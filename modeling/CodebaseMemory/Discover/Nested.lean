import CodebaseMemory.Discover.Complete

/-!
# Nested ignore files

A frame has room for one ignore file below the root.  A directory loads its own
only if none is inherited, so on the way down the first one is loaded and those
below it are not, even if the first one is empty.
-/

namespace CodebaseMemory
namespace Discover

open Lib
open Sqlite (CStr bytesOf)

/-- The nearest ignore file with a matching pattern is that of `d`, and it
ignores the entry.  Paths are taken relative to the directories. -/
def Site.DecidedBy (s : Site) (nearer : List (CStr × Gitignore)) (d : CStr × Gitignore)
    (rest : List (CStr × Gitignore)) : Prop :=
  s.above = nearer ++ d :: rest ∧
    cbmGitignoreMatches d.2 (localRelPath s.relPath d.1) s.file.isNone = true ∧
    ∀ x ∈ nearer, ∀ p ∈ x.2, p.hits (localRelPath s.relPath x.1) s.file.isNone = false

/-- An ignore file of a directory above ignores the entry. -/
def Site.Ignored (s : Site) : Prop :=
  ∃ nearer d rest, s.DecidedBy nearer d rest

/-- The ignore file that decides lies below another one. -/
def Site.IgnoredBelowTop (s : Site) : Prop :=
  ∃ nearer d rest, s.DecidedBy nearer d rest ∧ rest ≠ []

section Nested

variable {L : Type}

/-- The directories that are opened and the files that are examined. -/
def visitedPaths (events : List (Event L)) : List CStr :=
  events.filterMap fun
    | .opened relPath => some relPath
    | .examined relPath => some relPath
    | _ => none

variable [DecidableEq L]

/-- What an ignore file above ignores is not visited, and what nothing matches,
neither itself nor a directory above, is. -/
structure IgnoresApply (w : Walk L) (repoPath : CStr) (t : FileTree) : Prop where
  ignored : ∀ s ∈ w.allSites repoPath t.root, s.Ignored →
    s.relPath ∉ visitedPaths (w.walkDir repoPath t.root)
  unmatched : ∀ s ∈ w.allSites repoPath t.root, s.clear = true → w.matched s = false →
    s.relPath ∈ visitedPaths (w.walkDir repoPath t.root)

/-- No directory is dropped from the stack. -/
def Fits (w : Walk L) (repoPath : CStr) (t : FileTree) : Prop :=
  ∀ s ∈ w.allSites repoPath t.root, s.kept = true → s.pending < walkStackCap

theorem visitedPaths_siteEvents (w : Walk L) (s : Site) :
    visitedPaths (w.siteEvents s) = if w.skips s then [] else [s.relPath] := by
  cases hfile : s.file with
  | none =>
      simp only [Walk.siteEvents, hfile]
      split <;> rfl
  | some data =>
      simp only [Walk.siteEvents, Walk.skips, hfile, Walk.processFile]
      split
      · rfl
      · split <;> rfl

theorem mem_visitedPaths_flatMap (w : Walk L) {sites : List Site} {path : CStr} :
    path ∈ visitedPaths (sites.flatMap w.siteEvents) ↔
      ∃ s ∈ sites, w.skips s = false ∧ s.relPath = path := by
  rw [visitedPaths, List.filterMap_flatMap, List.mem_flatMap]
  refine exists_congr fun s => and_congr_right fun _ => ?_
  have hevents := visitedPaths_siteEvents w s
  rw [visitedPaths] at hevents
  rw [hevents]
  by_cases hskip : w.skips s = true
  · simp [hskip]
  · simp [hskip, eq_comm]

omit [DecidableEq L] in
theorem relPath_ne_nil (w : Walk L) (d : Dir) : ∀ (p : Place) (i : Nat) (s : Site), d.WellNamed →
    s ∈ w.sites p i d → s.relPath ≠ [] := by
  have hname : ∀ (f : Frame) (name : CStr), name ≠ [] → f.relPath name ≠ [] := by
    intro f name hname
    unfold Frame.relPath
    split
    · simp
    · exact hname
  induction d with
  | empty => exact fun p i s _ hs => absurd hs List.not_mem_nil
  | file name data rest ih =>
      intro p i s hwell hs
      rcases List.mem_cons.mp hs with rfl | hs
      · exact hname p.frame name hwell.1.1
      · exact ih p i s hwell.2 hs
  | subdir name sub rest ihsub ih =>
      intro p i s hwell hs
      rcases List.mem_cons.mp hs with rfl | hs
      · exact hname p.frame name hwell.1.1
      · rcases List.mem_append.mp hs with hs | hs
        · exact ihsub _ 0 s hwell.2.1 hs
        · exact ih p _ s hwell.2.2 hs

theorem mem_visited_iff {w : Walk L} {repoPath : CStr} {t : FileTree} (hfits : Fits w repoPath t)
    {s : Site} (hs : s ∈ w.allSites repoPath t.root) :
    s.relPath ∈ visitedPaths (w.walkDir repoPath t.root) ↔ s.kept = true ∧ w.skips s = false := by
  have hnodup := nodup_sites w t.root (rootPlace repoPath t.root) 0 t.wellNamed
  have hperm := (walkDir_events w repoPath t.root).filterMap fun
    | .opened relPath => some relPath
    | .examined relPath => some relPath
    | _ => none
  have hne := relPath_ne_nil w t.root _ 0 s t.wellNamed hs
  have hroot : s.relPath ∈ visitedPaths (w.walkDir repoPath t.root) ↔ s.relPath ∈
      visitedPaths (((w.allSites repoPath t.root).filter Site.taken).flatMap w.siteEvents) := by
    rw [visitedPaths, hperm.mem_iff]
    exact List.mem_cons.trans (or_iff_right hne)
  rw [hroot, mem_visitedPaths_flatMap]
  constructor
  · rintro ⟨s', hs', hskip, heq⟩
    obtain ⟨hmem, htaken⟩ := List.mem_filter.mp hs'
    have hsame := List.inj_on_of_nodup_map hnodup hmem hs heq
    rw [← hsame]
    exact ⟨(Bool.and_eq_true_iff.mp htaken).1, hskip⟩
  · rintro ⟨hkept, hskip⟩
    refine ⟨s, List.mem_filter.mpr ⟨hs, ?_⟩, hskip, rfl⟩
    rw [Site.taken, hkept, decide_eq_true (hfits s hs hkept)]
    rfl

/-- The frame has the first ignore file on the way down. -/
def HasTop (f : Frame) (above : List (CStr × Gitignore)) : Prop :=
  match above.getLast? with
  | none => f.localGi = none
  | some d => f.localGi = some d.2 ∧ f.localGiPrefix = d.1

omit [DecidableEq L]

theorem hasTop_child {f : Frame} {above : List (CStr × Gitignore)} (h : HasTop f above)
    {name : CStr} (hname : name ≠ []) (sub : Dir) :
    HasTop (f.child name sub).load (aboveIn above (f.relPath name) sub) := by
  have hfront : f.relPath name ≠ [] := by
    unfold Frame.relPath
    split
    · simp
    · exact hname
  unfold aboveIn
  cases habove : above with
  | nil =>
      rw [habove] at h
      have hnone : f.localGi = none := h
      cases hfile : sub.file? (bytesOf ".gitignore") with
      | none =>
          simp [HasTop, Frame.load, Frame.child, hnone, hfile]
      | some data =>
          simp [HasTop, Frame.load, Frame.child, hnone, hfront, hfile]
  | cons d rest =>
      rw [habove] at h
      -- something is inherited, so nothing is loaded
      have hlast : ∀ above', above'.getLast? = (d :: rest).getLast? →
          HasTop (f.child name sub).load above' := by
        intro above' heq
        unfold HasTop at h ⊢
        rw [heq]
        cases hlast : (d :: rest).getLast? with
        | none => simp at hlast
        | some top =>
            rw [hlast] at h
            simp [Frame.load, Frame.child, h.1, h.2]
      cases sub.file? (bytesOf ".gitignore") with
      | none => exact hlast _ rfl
      | some data => exact hlast _ (List.getLast?_cons_cons)

theorem hasTop_sites (w : Walk L) (d : Dir) : ∀ (p : Place) (i : Nat) (s : Site), d.WellNamed →
    HasTop p.frame p.above → s ∈ w.sites p i d → HasTop s.frame s.above := by
  induction d with
  | empty => exact fun p i s _ _ hs => absurd hs List.not_mem_nil
  | file name data rest ih =>
      intro p i s hwell htop hs
      rcases List.mem_cons.mp hs with rfl | hs
      · exact htop
      · exact ih p i s hwell.2 htop hs
  | subdir name sub rest ihsub ih =>
      intro p i s hwell htop hs
      rcases List.mem_cons.mp hs with rfl | hs
      · exact htop
      · rcases List.mem_append.mp hs with hs | hs
        · exact ihsub _ 0 s hwell.2.1 (hasTop_child htop hwell.1.1 sub) hs
        · exact ih p _ s hwell.2.2 htop hs

theorem skips_eq (w : Walk L) (s : Site) :
    w.skips s = (w.filters s || w.ignores s.frame s.relPath s.file.isNone) := by
  unfold Walk.skips Walk.filters
  cases s.file with
  | none => rfl
  | some data => rfl

theorem skips_of_top {w : Walk L} {s : Site} (htop : HasTop s.frame s.above)
    {nearer : List (CStr × Gitignore)} {d : CStr × Gitignore} (h : s.DecidedBy nearer d []) :
    w.skips s = true := by
  obtain ⟨habove, hmatches, -⟩ := h
  have hlocal : s.frame.localGi = some d.2 ∧ s.frame.localGiPrefix = d.1 := by
    have hlast : s.above.getLast? = some d := by rw [habove]; simp
    unfold HasTop at htop
    rw [hlast] at htop
    exact htop
  rw [skips_eq]
  simp [Walk.ignores, ignoredBy, hlocal.1, hlocal.2, hmatches]

theorem not_skips_of_unmatched {w : Walk L} {s : Site} (htop : HasTop s.frame s.above)
    (h : w.matched s = false) : w.skips s = false := by
  rw [Walk.matched, Bool.or_eq_false_iff, Walk.anyIgnores, Bool.or_eq_false_iff,
    Bool.or_eq_false_iff] at h
  obtain ⟨hfilter, hgit, habove, hcbm⟩ := h
  have hlocal : ignoredBy s.frame.localGi (localRelPath s.relPath s.frame.localGiPrefix)
      s.file.isNone = false := by
    unfold HasTop at htop
    cases hlast : s.above.getLast? with
    | none =>
        rw [hlast] at htop
        rw [htop]
        rfl
    | some d =>
        rw [hlast] at htop
        rw [htop.1, htop.2]
        exact Bool.eq_false_iff.mpr (List.any_eq_false.mp habove d (List.mem_of_getLast? hlast))
  rw [skips_eq, Walk.ignores, hfilter, hgit, hlocal, hcbm]
  rfl

theorem kept_of_clear (w : Walk L) (d : Dir) : ∀ (p : Place) (i : Nat) (s : Site), d.WellNamed →
    HasTop p.frame p.above → (p.clear = true → p.kept = true) → s ∈ w.sites p i d →
    s.clear = true → s.kept = true := by
  induction d with
  | empty => exact fun p i s _ _ _ hs => absurd hs List.not_mem_nil
  | file name data rest ih =>
      intro p i s hwell htop hp hs
      rcases List.mem_cons.mp hs with rfl | hs
      · exact hp
      · exact ih p i s hwell.2 htop hp hs
  | subdir name sub rest ihsub ih =>
      intro p i s hwell htop hp hs
      rcases List.mem_cons.mp hs with rfl | hs
      · exact hp
      · rcases List.mem_append.mp hs with hs | hs
        · refine ihsub _ 0 s hwell.2.1 (hasTop_child htop hwell.1.1 sub) ?_ hs
          intro hclear
          obtain ⟨hclear, hmatched⟩ := Bool.and_eq_true_iff.mp hclear
          have hskip := not_skips_of_unmatched (w := w) (s := w.dirSite p i name) htop
            (by simpa using hmatched)
          exact Bool.and_eq_true_iff.mpr ⟨hp hclear, by simp [hskip]⟩
        · exact ih p _ s hwell.2.2 htop hp hs

theorem hasTop_root (repoPath : CStr) (root : Dir) :
    HasTop (rootPlace repoPath root).frame (rootPlace repoPath root).above := rfl

variable [DecidableEq L]

/-- Where no directory is dropped, every nested ignore file applies if and only
if whatever one below another ignores is skipped for another reason as well. -/
theorem nested_ignores_iff (w : Walk L) (repoPath : CStr) (t : FileTree)
    (hfits : Fits w repoPath t) :
    IgnoresApply w repoPath t ↔
      ∀ s ∈ w.allSites repoPath t.root, s.kept = true → s.IgnoredBelowTop → w.skips s = true := by
  have htop : ∀ s ∈ w.allSites repoPath t.root, HasTop s.frame s.above := fun s hs =>
    hasTop_sites w t.root _ 0 s t.wellNamed (hasTop_root repoPath t.root) hs
  constructor
  · rintro h s hs hkept ⟨nearer, d, rest, hdecided, -⟩
    by_contra hskip
    exact h.ignored s hs ⟨nearer, d, rest, hdecided⟩
      ((mem_visited_iff hfits hs).mpr ⟨hkept, by simpa using hskip⟩)
  · intro h
    refine ⟨?_, ?_⟩
    · rintro s hs ⟨nearer, d, rest, hdecided⟩ hvisited
      obtain ⟨hkept, hskip⟩ := (mem_visited_iff hfits hs).mp hvisited
      have hskips : w.skips s = true := by
        by_cases hrest : rest = []
        · rw [hrest] at hdecided
          exact skips_of_top (htop s hs) hdecided
        · exact h s hs hkept ⟨nearer, d, rest, hdecided, hrest⟩
      rw [hskips] at hskip
      exact absurd hskip (by simp)
    · intro s hs hclear hmatched
      refine (mem_visited_iff hfits hs).mpr ⟨?_, not_skips_of_unmatched (htop s hs) hmatched⟩
      exact kept_of_clear w t.root _ 0 s t.wellNamed (hasTop_root repoPath t.root)
        (fun _ => rfl) hs hclear

end Nested

def fileNamed (name content : String) (rest : Dir) : Dir :=
  .file (bytesOf name) { size := 1, content := bytesOf content } rest

/-- One ignore file, in `a`. -/
def ignoringDir : Dir :=
  .subdir (bytesOf "a") (fileNamed ".gitignore" "x.c" (fileNamed "x.c" "" (fileNamed "y.c" "" .empty)))
    .empty

/-- An empty ignore file in `a` and another one in `a/b`. -/
def shadowedDir : Dir :=
  .subdir (bytesOf "a")
    (fileNamed ".gitignore" ""
      (.subdir (bytesOf "b") (fileNamed ".gitignore" "x.c" (fileNamed "x.c" "" .empty)) .empty))
    .empty

/-- Whether the names of a directory are as a file system has them. -/
def Dir.wellNamed : Dir → Bool
  | .empty => true
  | .file name _ rest =>
      (!name.isEmpty && !name.contains 47 && !rest.names.contains name) && rest.wellNamed
  | .subdir name sub rest =>
      (!name.isEmpty && !name.contains 47 && !rest.names.contains name) &&
        (sub.wellNamed && rest.wellNamed)

theorem wellNamed_of_eq_true {d : Dir} (h : d.wellNamed = true) : d.WellNamed := by
  induction d with
  | empty => trivial
  | file name data rest ih =>
      simp only [Dir.wellNamed, Bool.and_eq_true] at h
      refine ⟨⟨?_, ?_, ?_⟩, ih h.2⟩
      · simpa using h.1.1.1
      · simpa using h.1.1.2
      · simpa using h.1.2
  | subdir name sub rest ihsub ih =>
      simp only [Dir.wellNamed, Bool.and_eq_true] at h
      refine ⟨⟨?_, ?_, ?_⟩, ihsub h.2.1, ih h.2.2⟩
      · simpa using h.1.1.1
      · simpa using h.1.1.2
      · simpa using h.1.2

def ignoringTree : FileTree :=
  { root := ignoringDir, wellNamed := wellNamed_of_eq_true (by decide +kernel) }

def shadowedTree : FileTree :=
  { root := shadowedDir, wellNamed := wellNamed_of_eq_true (by decide +kernel) }

/-- The walk of a tree with C files only. -/
def plainWalk (t : FileTree) : Walk Bool :=
  discoverWalk onlyC fullOpts t.root

theorem not_belowTop_of_length {s : Site} (h : s.above.length ≤ 1) : ¬ s.IgnoredBelowTop := by
  rintro ⟨nearer, d, rest, ⟨habove, -, -⟩, hrest⟩
  have hlen := List.length_pos_of_ne_nil hrest
  rw [habove, List.length_append, List.length_cons] at h
  omega

theorem nested_ignores_single :
    IgnoresApply (plainWalk ignoringTree) (bytesOf "/repo") ignoringTree := by
  have hfits : ((plainWalk ignoringTree).allSites (bytesOf "/repo") ignoringTree.root).all
      (fun s => decide (s.pending < walkStackCap)) = true := by
    decide +kernel
  have hshort : ((plainWalk ignoringTree).allSites (bytesOf "/repo") ignoringTree.root).all
      (fun s => decide (s.above.length ≤ 1)) = true := by
    decide +kernel
  rw [List.all_eq_true] at hfits hshort
  refine (nested_ignores_iff (plainWalk ignoringTree) (bytesOf "/repo") ignoringTree
    fun s hs _ => of_decide_eq_true (hfits s hs)).mpr fun s hs _ hbelow => ?_
  exact absurd hbelow (not_belowTop_of_length (of_decide_eq_true (hshort s hs)))

/-- The ignore file of `a/b` is not read, and `a/b/x.c` is visited. -/
theorem not_nested_ignores :
    ¬ IgnoresApply (plainWalk shadowedTree) (bytesOf "/repo") shadowedTree := by
  intro h
  have hsite : ((plainWalk shadowedTree).allSites (bytesOf "/repo") shadowedTree.root).any
      (fun s => s.relPath == bytesOf "a/b/x.c" && match s.above with
        | d :: _ => cbmGitignoreMatches d.2 (localRelPath s.relPath d.1) s.file.isNone
        | [] => false) = true := by
    decide +kernel
  obtain ⟨s, hs, htest⟩ := List.any_eq_true.mp hsite
  obtain ⟨hpath, hmatches⟩ := Bool.and_eq_true_iff.mp htest
  have hignored : s.Ignored := by
    cases habove : s.above with
    | nil => simp [habove] at hmatches
    | cons d rest =>
        rw [habove] at hmatches
        exact ⟨[], d, rest, habove, hmatches, fun x hx => absurd hx List.not_mem_nil⟩
  refine h.ignored s hs hignored ?_
  rw [beq_iff_eq.mp hpath]
  decide +kernel

end Discover
end CodebaseMemory
