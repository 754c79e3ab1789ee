import CodebaseMemory.Discover.Sites

/-!
# Completeness of discovery

A directory that finds the stack full is dropped, with all that lies below it,
and nothing is noted.  It is dropped if and only if 512 directories or more are
pending below it, which are the directories pushed before it and before those
above it.
-/

namespace CodebaseMemory
namespace Discover

open Lib
open Sqlite (CStr bytesOf)

/-- A tree of files as a file system holds it. -/
structure FileTree where
  root : Dir
  wellNamed : root.WellNamed

section Complete

variable {L : Type} [DecidableEq L]

/-- The file passes `should_skip_file` and has a language. -/
def Walk.wants (w : Walk L) (s : Site) : Bool :=
  match s.file with
  | some data =>
      !w.shouldSkipFile s.frame s.name s.relPath data.size &&
        (w.detectFileLanguage s.name data.content).isSome
  | none => false

/-- Every wanted file none of whose directories is skipped is listed once. -/
def LosesNoFile (languages : Languages L) (opts : DiscoverOpts) (repoPath : CStr) (t : FileTree) :
    Prop :=
  let w := discoverWalk languages opts t.root
  ∀ s ∈ w.allSites repoPath t.root, s.kept = true → w.wants s = true →
    ((cbmDiscover languages opts repoPath t.root).map FileInfo.relPath).count s.relPath = 1

omit [DecidableEq L] in
theorem filesOf_append (es es' : List (Event L)) : filesOf (es ++ es') = filesOf es ++ filesOf es' :=
  List.filterMap_append

theorem paths_siteEvents (w : Walk L) (s : Site) :
    (filesOf (w.siteEvents s)).map FileInfo.relPath = if w.wants s then [s.relPath] else [] := by
  cases hfile : s.file with
  | none =>
      simp only [Walk.siteEvents, Walk.wants, hfile]
      split <;> rfl
  | some data =>
      simp only [Walk.siteEvents, Walk.wants, hfile, Walk.processFile]
      by_cases hskip : w.shouldSkipFile s.frame s.name s.relPath data.size = true
      · simp [hskip, filesOf]
      · cases hlang : w.detectFileLanguage s.name data.content with
        | none => simp [hskip, filesOf]
        | some lang => simp [hskip, filesOf]

theorem paths_flatMap (w : Walk L) (sites : List Site) :
    (filesOf (sites.flatMap w.siteEvents)).map FileInfo.relPath =
      (sites.filter w.wants).map Site.relPath := by
  induction sites with
  | nil => rfl
  | cons s sites ih =>
      rw [List.flatMap_cons, filesOf_append, List.map_append, ih, paths_siteEvents]
      by_cases hwants : w.wants s = true
      · rw [if_pos hwants, List.filter_cons_of_pos hwants]
        rfl
      · rw [if_neg hwants, List.filter_cons_of_neg hwants]
        rfl

theorem paths_cbmDiscover (languages : Languages L) (opts : DiscoverOpts) (repoPath : CStr)
    (root : Dir) :
    ((cbmDiscover languages opts repoPath root).map FileInfo.relPath).Perm
      (((((discoverWalk languages opts root).allSites repoPath root).filter Site.taken).filter
        (discoverWalk languages opts root).wants).map Site.relPath) := by
  have hevents := walkDir_events (discoverWalk languages opts root) repoPath root
  rw [← paths_flatMap]
  exact (hevents.filterMap _).map _

theorem count_cbmDiscover (languages : Languages L) (opts : DiscoverOpts) (repoPath : CStr)
    (t : FileTree) {s : Site} (hs : s ∈ (discoverWalk languages opts t.root).allSites repoPath t.root)
    (hkept : s.kept = true) (hwants : (discoverWalk languages opts t.root).wants s = true) :
    ((cbmDiscover languages opts repoPath t.root).map FileInfo.relPath).count s.relPath = 1 ↔
      s.pending < walkStackCap := by
  have hnodup := nodup_sites (discoverWalk languages opts t.root) t.root
    (rootPlace repoPath t.root) 0 t.wellNamed
  have hsub : ((((discoverWalk languages opts t.root).allSites repoPath t.root).filter
      Site.taken).filter (discoverWalk languages opts t.root).wants).Sublist
      ((discoverWalk languages opts t.root).allSites repoPath t.root) :=
    List.filter_sublist.trans List.filter_sublist
  rw [(paths_cbmDiscover languages opts repoPath t.root).count_eq]
  constructor
  · intro hcount
    have hmem := List.count_pos_iff.mp (hcount.symm ▸ Nat.one_pos)
    obtain ⟨s', hs', heq⟩ := List.mem_map.mp hmem
    have hsame := List.inj_on_of_nodup_map hnodup (hsub.subset hs') hs heq
    have htaken := List.of_mem_filter (List.mem_of_mem_filter hs')
    rw [hsame] at htaken
    exact of_decide_eq_true (Bool.and_eq_true_iff.mp htaken).2
  · intro hpending
    refine List.count_eq_one_of_mem (hnodup.sublist (hsub.map _)) (List.mem_map_of_mem ?_)
    refine List.mem_filter.mpr ⟨List.mem_filter.mpr ⟨hs, ?_⟩, hwants⟩
    rw [Site.taken, hkept, decide_eq_true hpending]
    rfl

/-- Discovery loses no file if and only if none lies below 512 pending
directories. -/
theorem no_file_lost_iff (languages : Languages L) (opts : DiscoverOpts) (repoPath : CStr)
    (t : FileTree) :
    LosesNoFile languages opts repoPath t ↔
      ∀ s ∈ (discoverWalk languages opts t.root).allSites repoPath t.root, s.kept = true →
        (discoverWalk languages opts t.root).wants s = true → s.pending < walkStackCap := by
  refine forall₂_congr fun s hs => forall₂_congr fun hkept hwants => ?_
  exact count_cbmDiscover languages opts repoPath t hs hkept hwants

end Complete

/-- `n` empty directories, and a directory `b` behind them. -/
def wideDir (last : Dir) : Nat → Dir
  | 0 => .subdir [98] last .empty
  | n + 1 => .subdir (List.replicate (n + 1) 97) .empty (wideDir last n)

/-- Every file is a C file. -/
def onlyC : Languages Bool :=
  { json := false, forFilename := fun _ => some true, disambiguateM := fun _ => true }

def fullOpts : DiscoverOpts :=
  { mode := .full, maxFileSize := 0, ignoreFile := none }

def oneFile : Dir :=
  .file (bytesOf "x.c") { size := 1, content := [] } .empty

theorem mem_names_wideDir (last : Dir) (n : Nat) : ∀ name ∈ (wideDir last n).names,
    name = [98] ∨ name.length ≤ n ∧ ∀ c ∈ name, c = 97 := by
  induction n with
  | zero => simp [wideDir, Dir.names]
  | succ n ih =>
      intro name hname
      rcases List.mem_cons.mp hname with rfl | hname
      · exact Or.inr ⟨by simp, fun c hc => List.eq_of_mem_replicate hc⟩
      · rcases ih name hname with hb | ⟨hlen, hall⟩
        · exact Or.inl hb
        · exact Or.inr ⟨hlen.trans (Nat.le_succ n), hall⟩

theorem wellNamed_wideDir {last : Dir} (h : last.WellNamed) (n : Nat) :
    (wideDir last n).WellNamed := by
  induction n with
  | zero => exact ⟨⟨by decide, by decide, List.not_mem_nil⟩, h, trivial⟩
  | succ n ih =>
      refine ⟨⟨by simp, ?_, fun hmem => ?_⟩, trivial, ih⟩
      · intro hmem
        exact absurd (List.eq_of_mem_replicate hmem) (by decide)
      · rcases mem_names_wideDir last n _ hmem with hb | ⟨hlen, -⟩
        · have hhead := congrArg List.head? hb
          simp [List.replicate_succ] at hhead
        · simp at hlen

theorem shouldSkipDir_replicate (n : Nat) : cbmShouldSkipDir (List.replicate (n + 1) 97) .full = false := by
  have hall : ∀ name ∈ alwaysSkipDirs, ∃ c ∈ name, c ≠ 97 := by decide +kernel
  have hnot : alwaysSkipDirs.contains (List.replicate (n + 1) 97) = false := by
    rw [← Bool.not_eq_true, List.contains_iff_mem]
    intro hmem
    obtain ⟨c, hc, hne⟩ := hall _ hmem
    exact hne (List.eq_of_mem_replicate hc)
  rw [cbmShouldSkipDir, hnot]
  rfl

section Wide

variable (w : Walk Bool) (hmode : w.opts.mode = .full) (hgit : w.gitignore = none)
  (hcbm : w.cbmignore = none)
include hmode hgit hcbm

theorem kept_dir {p : Place} (hlocal : p.frame.localGi = none) {name : CStr}
    (hname : cbmShouldSkipDir name .full = false) :
    w.shouldSkipDirectory p.frame name (p.frame.relPath name) = false := by
  simp [Walk.shouldSkipDirectory, Walk.ignores, ignoredBy, hmode, hgit, hcbm, hlocal, hname]

theorem mem_sites_wideDir (n : Nat) : ∀ (p : Place) (i : Nat), p.kept = true →
    p.frame.localGi = none →
    ∃ s ∈ w.sites p i (wideDir oneFile n), s.kept = true ∧ s.pending = p.pending + i + n ∧
      s.file = some { size := 1, content := [] } ∧ s.name = bytesOf "x.c" ∧
      s.frame.localGi = none := by
  induction n with
  | zero =>
      intro p i hkept hlocal
      have hskip := kept_dir w hmode hgit hcbm hlocal
        (show cbmShouldSkipDir [98] .full = false by decide +kernel)
      refine ⟨(w.enter p (w.dirSite p i [98]) oneFile).site (bytesOf "x.c")
        (some { size := 1, content := [] }) (w.enter p (w.dirSite p i [98]) oneFile).pending,
        ?_, ?_, ?_, rfl, rfl, ?_⟩
      · exact List.mem_cons_of_mem _ (List.mem_append_left _ List.mem_cons_self)
      · simp [Place.site, Walk.enter, skips_dirSite, hkept, hskip]
      · simp [Place.site, Walk.enter, Walk.dirSite, hskip]
      · have hnofile : oneFile.file? (bytesOf ".gitignore") = none := by decide +kernel
        simp [Place.site, Walk.enter, Frame.load, Frame.child, hnofile, hlocal]
  | succ n ih =>
      intro p i hkept hlocal
      have hskip := kept_dir w hmode hgit hcbm hlocal (shouldSkipDir_replicate n)
      obtain ⟨s, hs, hkept', hpending, hrest⟩ := ih p (i + 1) hkept hlocal
      refine ⟨s, ?_, hkept', by omega, hrest⟩
      rw [wideDir, Walk.sites, skips_dirSite, if_neg (by simp [hskip])]
      exact List.mem_cons_of_mem _ (List.mem_append_right _ hs)

end Wide

theorem hasSubdir_of_not_mem {d : Dir} {name : CStr} (h : name ∉ d.names) :
    d.hasSubdir name = false := by
  induction d with
  | empty => rfl
  | file n data rest ih =>
      rw [Dir.names, List.mem_cons, not_or] at h
      rw [Dir.hasSubdir, if_neg (Ne.symm h.1), ih h.2]
  | subdir n sub rest _ ih =>
      rw [Dir.names, List.mem_cons, not_or] at h
      rw [Dir.hasSubdir, if_neg (Ne.symm h.1), ih h.2]

theorem file?_of_not_mem {d : Dir} {name : CStr} (h : name ∉ d.names) : d.file? name = none := by
  induction d with
  | empty => rfl
  | file n data rest ih =>
      rw [Dir.names, List.mem_cons, not_or] at h
      rw [Dir.file?, if_neg (Ne.symm h.1), ih h.2]
  | subdir n sub rest _ ih =>
      rw [Dir.names, List.mem_cons, not_or] at h
      rw [Dir.file?, if_neg (Ne.symm h.1), ih h.2]

theorem not_mem_names_wideDir (last : Dir) (n : Nat) {name : CStr} (hhead : name.head? = some 46) :
    name ∉ (wideDir last n).names := by
  intro hmem
  rcases mem_names_wideDir last n name hmem with rfl | ⟨-, hall⟩
  · exact absurd hhead (by decide)
  · exact absurd (hall 46 (List.mem_of_mem_head? hhead)) (by decide)

theorem wellNamed_oneFile : oneFile.WellNamed :=
  ⟨⟨by decide +kernel, by decide +kernel, List.not_mem_nil⟩, trivial⟩

/-- 512 directories before the last one. -/
def wideTree : FileTree :=
  { root := wideDir oneFile 512
    wellNamed := wellNamed_wideDir wellNamed_oneFile 512 }

theorem not_no_file_lost : ¬ LosesNoFile onlyC fullOpts (bytesOf "/repo") wideTree := by
  intro h
  have hgit : (discoverWalk onlyC fullOpts wideTree.root).gitignore = none := by
    have hnodir : wideTree.root.hasSubdir (bytesOf ".git") = false :=
      hasSubdir_of_not_mem (not_mem_names_wideDir oneFile 512 (by decide +kernel))
    simp [discoverWalk, hnodir]
  have hcbm : (discoverWalk onlyC fullOpts wideTree.root).cbmignore = none := by
    have hnofile : wideTree.root.file? (bytesOf ".cbmignore") = none :=
      file?_of_not_mem (not_mem_names_wideDir oneFile 512 (by decide +kernel))
    simp [discoverWalk, fullOpts, hnofile]
  obtain ⟨s, hs, hkept, hpending, hfile, hname, hlocal⟩ :=
    mem_sites_wideDir (discoverWalk onlyC fullOpts wideTree.root) rfl hgit hcbm 512
      (rootPlace (bytesOf "/repo") wideTree.root) 0 rfl rfl
  have hfilter : (discoverWalk onlyC fullOpts wideTree.root).filtersFile (bytesOf "x.c") 1 = false := by
    decide +kernel
  have hlang : ((discoverWalk onlyC fullOpts wideTree.root).detectFileLanguage (bytesOf "x.c")
      []).isSome = true := by
    decide +kernel
  have hwants : (discoverWalk onlyC fullOpts wideTree.root).wants s = true := by
    simp [Walk.wants, hfile, hname, Walk.shouldSkipFile, hfilter, Walk.ignores, ignoredBy, hgit, hcbm,
      hlocal, hlang]
  have hcount := (count_cbmDiscover onlyC fullOpts (bytesOf "/repo") wideTree hs hkept hwants).mp
    (h s hs hkept hwants)
  rw [hpending] at hcount
  exact absurd hcount (by decide)

end Discover
end CodebaseMemory
