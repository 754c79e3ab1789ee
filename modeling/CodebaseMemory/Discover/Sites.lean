import CodebaseMemory.Discover.Walk
import Mathlib.Algebra.Order.Group.Multiset
import Mathlib.Tactic.Abel

/-!
# The entries of a tree and what the walk does with them

`sites` lists every entry of a tree, with what lies above it.  The walk takes
an entry up if every directory above it is kept and fewer than 512 frames lie
below the one of its directory on the stack.

How many that are can be read off the tree: of the directories that a directory
pushes, the last is taken off first, so those before it are still pending, at
each level on the way down.
-/

namespace CodebaseMemory
namespace Discover

open Lib
open Sqlite (CStr bytesOf)

/-- An entry of the tree. -/
structure Site where
  name : CStr
  relPath : CStr
  /-- `none` for a directory -/
  file : Option FileData
  /-- the frame of its directory, its ignore file loaded -/
  frame : Frame
  /-- the ignore files of the directories above, the root left out, with the
  paths of these; the nearest first -/
  above : List (CStr × Gitignore)
  /-- no directory above is skipped -/
  kept : Bool
  /-- no filter and no ignore file matches a directory above -/
  clear : Bool
  /-- how many frames lie below its own, or below that of its directory if it
  has none -/
  pending : Nat

/-- What a directory passes on to its entries. -/
structure Place where
  frame : Frame
  above : List (CStr × Gitignore)
  kept : Bool
  clear : Bool
  pending : Nat

def Place.site (p : Place) (name : CStr) (file : Option FileData) (pending : Nat) : Site :=
  { name := name
    relPath := p.frame.relPath name
    file := file
    frame := p.frame
    above := p.above
    kept := p.kept
    clear := p.clear
    pending := pending }

section Walk

variable {L : Type} (w : Walk L)

/-- `should_skip_file` or `should_skip_directory`. -/
def Walk.skips (s : Site) : Bool :=
  match s.file with
  | some data => w.shouldSkipFile s.frame s.name s.relPath data.size
  | none => w.shouldSkipDirectory s.frame s.name s.relPath

def Walk.filters (s : Site) : Bool :=
  match s.file with
  | some data => w.filtersFile s.name data.size
  | none => cbmShouldSkipDir s.name w.opts.mode

/-- An ignore file above ignores the entry. -/
def Walk.anyIgnores (s : Site) : Bool :=
  ignoredBy w.gitignore s.relPath s.file.isNone ||
    (s.above.any (fun d => cbmGitignoreMatches d.2 (localRelPath s.relPath d.1) s.file.isNone) ||
      ignoredBy w.cbmignore s.relPath s.file.isNone)

/-- A filter or an ignore file above matches the entry. -/
def Walk.matched (s : Site) : Bool :=
  w.filters s || w.anyIgnores s

/-- The ignore files above what lies in `sub`. -/
def aboveIn (above : List (CStr × Gitignore)) (relPath : CStr) (sub : Dir) :
    List (CStr × Gitignore) :=
  match sub.file? (bytesOf ".gitignore") with
  | some data => (relPath, cbmGitignoreParse data.content) :: above
  | none => above

def Walk.enter (p : Place) (s : Site) (sub : Dir) : Place :=
  { frame := (p.frame.child s.name sub).load
    above := aboveIn p.above s.relPath sub
    kept := p.kept && !w.skips s
    clear := p.clear && !w.matched s
    pending := s.pending }

/-- The entry of a directory; `i` directories before it have been pushed. -/
def Walk.dirSite (p : Place) (i : Nat) (name : CStr) : Site :=
  p.site name none (if w.shouldSkipDirectory p.frame name (p.frame.relPath name) then p.pending
    else p.pending + i)

/-- All entries, those of a directory behind it. -/
def Walk.sites (p : Place) : Nat → Dir → List Site
  | _, .empty => []
  | i, .file name data rest => p.site name (some data) p.pending :: Walk.sites p i rest
  | i, .subdir name sub rest =>
      w.dirSite p i name ::
        (Walk.sites (w.enter p (w.dirSite p i name) sub) 0 sub ++
          Walk.sites p (if w.skips (w.dirSite p i name) then i else i + 1) rest)

def rootPlace (repoPath : CStr) (root : Dir) : Place :=
  { frame := rootFrame repoPath root, above := [], kept := true, clear := true, pending := 0 }

/-- All entries of a tree. -/
def Walk.allSites (repoPath : CStr) (root : Dir) : List Site :=
  w.sites (rootPlace repoPath root) 0 root

variable [DecidableEq L]

/-- What the walk does when it meets the entry. -/
def Walk.siteEvents (s : Site) : List (Event L) :=
  match s.file with
  | some data => w.processFile s.frame s.name s.relPath data
  | none => if w.skips s then [.excluded s.relPath] else [.opened s.relPath]

/-- The walk gets to the entry. -/
def Site.taken (s : Site) : Bool :=
  s.kept && decide (s.pending < walkStackCap)

/-- What the walk does with the entries of a directory whose frame lies on `j`
others, and with what lies below; `i` directories have been pushed. -/
def Walk.visits (f : Frame) (j : Nat) : Nat → Dir → List (Event L)
  | _, .empty => []
  | i, .file name data rest =>
      w.processFile f name (f.relPath name) data ++ Walk.visits f j i rest
  | i, .subdir name sub rest =>
      if w.shouldSkipDirectory f name (f.relPath name) then
        .excluded (f.relPath name) :: Walk.visits f j i rest
      else
        (if j + i < walkStackCap then
          .opened (f.relPath name) :: Walk.visits (f.child name sub).load (j + i) 0 sub
        else []) ++ Walk.visits f j (i + 1) rest

/-- What the frames on the stack still lead to. -/
def Walk.pendingEvents : List Frame → Multiset (Event L)
  | [] => 0
  | f :: stack =>
      (↑(Event.opened f.relPrefix :: w.visits f.load stack.length 0 f.contents) :
        Multiset (Event L)) + Walk.pendingEvents stack

/-- What was done and what is still to do. -/
def Walk.total (st : List Frame × List (Event L)) : Multiset (Event L) :=
  (↑st.2 : Multiset (Event L)) + w.pendingEvents st.1

theorem pendingEvents_cons (f : Frame) (stack : List Frame) :
    w.pendingEvents (f :: stack) =
      (↑(Event.opened f.relPrefix :: w.visits f.load stack.length 0 f.contents) :
        Multiset (Event L)) + w.pendingEvents stack := rfl

omit [DecidableEq L] in
theorem coe_cons_eq (e : Event L) (es : List (Event L)) :
    (↑(e :: es) : Multiset (Event L)) = ↑[e] + ↑es := by
  rw [Multiset.coe_add, List.singleton_append]

theorem processEntries_total (f : Frame) (j : Nat) (d : Dir) :
    ∀ (i : Nat) (st : List Frame × List (Event L)), st.1.length = min walkStackCap (j + i) →
      w.total (w.processEntries f d st) = w.total st + ↑(w.visits f j i d) ∧
        (w.processEntries f d st).1.length ≤ walkStackCap := by
  induction d with
  | empty =>
      intro i st hlen
      refine ⟨?_, ?_⟩
      · rw [Walk.processEntries, Walk.visits, Multiset.coe_nil, add_zero]
      · rw [Walk.processEntries, hlen]
        exact Nat.min_le_left _ _
  | file name data rest ih =>
      intro i st hlen
      obtain ⟨htotal, hle⟩ := ih i (st.1, st.2 ++ w.processFile f name (f.relPath name) data) hlen
      rw [Walk.processEntries, Walk.visits]
      refine ⟨?_, hle⟩
      rw [htotal, Walk.total, Walk.total, ← Multiset.coe_add, ← Multiset.coe_add]
      abel
  | subdir name sub rest _ ih =>
      intro i st hlen
      rw [Walk.processEntries, Walk.visits]
      by_cases hskip : w.shouldSkipDirectory f name (f.relPath name) = true
      · rw [if_pos hskip, if_pos hskip]
        obtain ⟨htotal, hle⟩ := ih i (st.1, st.2 ++ [.excluded (f.relPath name)]) hlen
        refine ⟨?_, hle⟩
        rw [htotal, Walk.total, Walk.total, coe_cons_eq, ← Multiset.coe_add]
        abel
      · rw [if_neg hskip, if_neg hskip]
        by_cases hroom : j + i < walkStackCap
        · have hstack : st.1.length = j + i := hlen.trans (Nat.min_eq_right hroom.le)
          have hpush : walkPushSubdir st.1 (f.child name sub) = f.child name sub :: st.1 := by
            rw [walkPushSubdir, if_neg]
            omega
          obtain ⟨htotal, hle⟩ := ih (i + 1) (f.child name sub :: st.1, st.2) (by
            rw [List.length_cons]
            omega)
          rw [hpush, if_pos hroom]
          refine ⟨?_, hle⟩
          rw [htotal, Walk.total, Walk.total, pendingEvents_cons, hstack, ← Multiset.coe_add]
          have hframe : (f.child name sub).relPrefix = f.relPath name := rfl
          have hcontents : (f.child name sub).contents = sub := rfl
          rw [hframe, hcontents]
          abel
        · have hfull : st.1.length = walkStackCap := hlen.trans (Nat.min_eq_left (by omega))
          have hpush : walkPushSubdir st.1 (f.child name sub) = st.1 := by
            rw [walkPushSubdir, if_pos hfull.ge]
          obtain ⟨htotal, hle⟩ := ih (i + 1) st (by omega)
          rw [hpush, if_neg hroom, List.nil_append]
          exact ⟨htotal, hle⟩

/-- The directories that the frames on the stack lead to, with their own. -/
def dirsLeft (stack : List Frame) : Nat :=
  (stack.map fun f => f.contents.dirCount + 1).sum

omit [DecidableEq L] in
theorem dirsLeft_push (stack : List Frame) (f : Frame) :
    dirsLeft (walkPushSubdir stack f) ≤ f.contents.dirCount + 1 + dirsLeft stack := by
  unfold walkPushSubdir
  split
  · exact Nat.le_add_left _ _
  · simp [dirsLeft]

theorem dirsLeft_processEntries (f : Frame) (d : Dir) :
    ∀ st : List Frame × List (Event L),
      dirsLeft (w.processEntries f d st).1 ≤ dirsLeft st.1 + d.dirCount := by
  induction d with
  | empty => exact fun st => le_rfl
  | file name data rest ih => exact fun st => ih _
  | subdir name sub rest _ ih =>
      intro st
      rw [Walk.processEntries, Dir.dirCount]
      split
      · exact (ih _).trans (by dsimp only; omega)
      · have hpush := dirsLeft_push st.1 (f.child name sub)
        have hcontents : (f.child name sub).contents = sub := rfl
        rw [hcontents] at hpush
        exact (ih _).trans (by dsimp only; omega)

theorem rounds_total (n : Nat) : ∀ st : List Frame × List (Event L),
    st.1.length ≤ walkStackCap → dirsLeft st.1 ≤ n →
    (↑(w.rounds n st).2 : Multiset (Event L)) = w.total st := by
  induction n with
  | zero =>
      rintro ⟨stack, out⟩ - hleft
      cases stack with
      | nil => simp [Walk.rounds, Walk.total, Walk.pendingEvents]
      | cons f stack => simp [dirsLeft] at hleft
  | succ n ih =>
      rintro ⟨stack, out⟩ hlen hleft
      cases stack with
      | nil => simp [Walk.rounds, Walk.total, Walk.pendingEvents]
      | cons f stack =>
          rw [List.length_cons] at hlen
          obtain ⟨htotal, hle⟩ := processEntries_total w f.load stack.length f.contents 0
            (stack, out ++ [.opened f.relPrefix]) (by dsimp only; omega)
          have hdirs := dirsLeft_processEntries w f.load f.contents
            (stack, out ++ [.opened f.relPrefix])
          have hcons : dirsLeft (f :: stack) = f.contents.dirCount + 1 + dirsLeft stack := by
            simp [dirsLeft]
          rw [Walk.rounds, ih _ hle (by dsimp only at hdirs hleft; omega), htotal, Walk.total,
            Walk.total, pendingEvents_cons, coe_cons_eq, ← Multiset.coe_add]
          abel

theorem walkDir_visits (repoPath : CStr) (root : Dir) :
    (w.walkDir repoPath root).Perm
      (.opened [] :: w.visits (rootFrame repoPath root) 0 0 root) := by
  rw [← Multiset.coe_eq_coe, Walk.walkDir, rounds_total w _ _ (by simp [walkStackCap])
    (by simp [dirsLeft, rootFrame])]
  rw [Walk.total, pendingEvents_cons]
  have hload : (rootFrame repoPath root).load = rootFrame repoPath root := if_pos (Or.inr rfl)
  rw [hload]
  simp [Walk.pendingEvents, rootFrame]

omit [DecidableEq L] in
theorem pending_le (d : Dir) : ∀ (p : Place) (i : Nat) (s : Site), s ∈ w.sites p i d →
    p.pending ≤ s.pending := by
  induction d with
  | empty => exact fun p i s hs => absurd hs List.not_mem_nil
  | file name data rest ih =>
      intro p i s hs
      rcases List.mem_cons.mp hs with rfl | hs
      · exact le_rfl
      · exact ih p i s hs
  | subdir name sub rest ihsub ih =>
      intro p i s hs
      have hself : p.pending ≤ (w.dirSite p i name).pending := by
        unfold Walk.dirSite Place.site
        dsimp only
        split <;> omega
      rcases List.mem_cons.mp hs with rfl | hs
      · exact hself
      · rcases List.mem_append.mp hs with hs | hs
        · exact hself.trans (ihsub _ 0 s hs)
        · exact ih p _ s hs

omit [DecidableEq L] in
theorem not_kept (d : Dir) : ∀ (p : Place) (i : Nat) (s : Site), p.kept = false →
    s ∈ w.sites p i d → s.kept = false := by
  induction d with
  | empty => exact fun p i s _ hs => absurd hs List.not_mem_nil
  | file name data rest ih =>
      intro p i s hp hs
      rcases List.mem_cons.mp hs with rfl | hs
      · exact hp
      · exact ih p i s hp hs
  | subdir name sub rest ihsub ih =>
      intro p i s hp hs
      rcases List.mem_cons.mp hs with rfl | hs
      · exact hp
      · rcases List.mem_append.mp hs with hs | hs
        · exact ihsub _ 0 s (by simp [Walk.enter, hp]) hs
        · exact ih p _ s hp hs

omit [DecidableEq L] in
theorem filter_taken_eq_nil {l : List Site}
    (h : ∀ s ∈ l, s.kept = false ∨ walkStackCap ≤ s.pending) : l.filter Site.taken = [] := by
  rw [List.filter_eq_nil_iff]
  intro s hs
  unfold Site.taken
  rcases h s hs with hkept | hpending
  · simp [hkept]
  · simp [hpending]

omit [DecidableEq L] in
theorem skips_dirSite (p : Place) (i : Nat) (name : CStr) :
    w.skips (w.dirSite p i name) = w.shouldSkipDirectory p.frame name (p.frame.relPath name) := rfl

theorem visits_eq (d : Dir) : ∀ (p : Place) (i : Nat), p.kept = true →
    p.pending < walkStackCap →
    w.visits p.frame p.pending i d = ((w.sites p i d).filter Site.taken).flatMap w.siteEvents := by
  induction d with
  | empty => exact fun p i _ _ => rfl
  | file name data rest ih =>
      intro p i hkept hroom
      have htaken : (p.site name (some data) p.pending).taken = true := by
        simp [Site.taken, Place.site, hkept, hroom]
      rw [Walk.visits, Walk.sites, List.filter_cons_of_pos htaken, List.flatMap_cons,
        ih p i hkept hroom]
      rfl
  | subdir name sub rest ihsub ih =>
      intro p i hkept hroom
      rw [Walk.visits, Walk.sites, skips_dirSite]
      by_cases hskip : w.shouldSkipDirectory p.frame name (p.frame.relPath name) = true
      · have htaken : (w.dirSite p i name).taken = true := by
          simp [Site.taken, Walk.dirSite, Place.site, hkept, hroom, hskip]
        have hinside : (w.sites (w.enter p (w.dirSite p i name) sub) 0 sub).filter Site.taken = [] :=
          filter_taken_eq_nil fun s hs =>
            Or.inl (not_kept w sub _ 0 s (by simp [Walk.enter, skips_dirSite, hskip]) hs)
        rw [if_pos hskip, if_pos hskip, List.filter_cons_of_pos htaken, List.filter_append, hinside,
          List.nil_append, List.flatMap_cons, ← ih p i hkept hroom, Walk.siteEvents]
        simp [Walk.dirSite, Place.site, Walk.skips, hskip]
      · have hpending : (w.dirSite p i name).pending = p.pending + i := by
          simp [Walk.dirSite, Place.site, hskip]
        have hkept' : (w.enter p (w.dirSite p i name) sub).kept = true := by
          simp [Walk.enter, skips_dirSite, hkept, hskip]
        rw [if_neg hskip, if_neg hskip]
        by_cases hfits : p.pending + i < walkStackCap
        · have htaken : (w.dirSite p i name).taken = true := by
            rw [Site.taken, hpending]
            simp [Walk.dirSite, Place.site, hkept, hfits]
          rw [if_pos hfits, List.filter_cons_of_pos htaken, List.filter_append, List.flatMap_cons,
            List.flatMap_append, ← ih p (i + 1) hkept hroom,
            ← ihsub (w.enter p (w.dirSite p i name) sub) 0 hkept' (hpending.trans_lt hfits)]
          have hevents : w.siteEvents (w.dirSite p i name) = [.opened (p.frame.relPath name)] := by
            simp [Walk.siteEvents, Walk.dirSite, Place.site, Walk.skips, hskip]
          have hinside : (w.enter p (w.dirSite p i name) sub).pending = p.pending + i := hpending
          rw [hevents, hinside]
          rfl
        · have hnot : ¬ (w.dirSite p i name).taken = true := by
            rw [Site.taken, hpending]
            simp [hfits]
          have hinside :
              (w.sites (w.enter p (w.dirSite p i name) sub) 0 sub).filter Site.taken = [] := by
            refine filter_taken_eq_nil fun s hs => Or.inr ?_
            have hle := pending_le w sub _ 0 s hs
            have hinside : (w.enter p (w.dirSite p i name) sub).pending = p.pending + i := hpending
            omega
          rw [if_neg hfits, List.filter_cons_of_neg hnot, List.filter_append, hinside,
            List.nil_append, List.nil_append, ih p (i + 1) hkept hroom]

theorem walkDir_events (repoPath : CStr) (root : Dir) :
    (w.walkDir repoPath root).Perm
      (.opened [] :: ((w.allSites repoPath root).filter Site.taken).flatMap w.siteEvents) := by
  have hvisits := visits_eq w root (rootPlace repoPath root) 0 rfl (Nat.succ_pos 511)
  rw [Walk.allSites, ← hvisits]
  exact walkDir_visits w repoPath root

omit [DecidableEq L]

def Dir.names : Dir → List CStr
  | .empty => []
  | .file name _ rest => name :: rest.names
  | .subdir name _ rest => name :: rest.names

/-- In every directory, the entries have different names, which are not empty
and have no slash. -/
def Dir.WellNamed : Dir → Prop
  | .empty => True
  | .file name _ rest => (name ≠ [] ∧ 47 ∉ name ∧ name ∉ rest.names) ∧ rest.WellNamed
  | .subdir name sub rest =>
      (name ≠ [] ∧ 47 ∉ name ∧ name ∉ rest.names) ∧ sub.WellNamed ∧ rest.WellNamed

def AtOrBelow (entry path : CStr) : Prop :=
  path = entry ∨ ∃ rest, path = entry ++ 47 :: rest

theorem not_below_both {f : Frame} {name name' path : CStr} (hname : 47 ∉ name)
    (hname' : 47 ∉ name') (h : AtOrBelow (f.relPath name) path)
    (h' : AtOrBelow (f.relPath name') path) : name = name' := by
  obtain ⟨base, hbase⟩ : ∃ base : CStr, ∀ n, f.relPath n = base ++ n := by
    unfold Frame.relPath
    by_cases hfront : f.relPrefix ≠ []
    · exact ⟨f.relPrefix ++ [47], fun n => by rw [if_pos hfront]; simp⟩
    · exact ⟨[], fun n => by rw [if_neg hfront]; rfl⟩
  -- the component behind the common beginning
  have hcomponent : ∀ n : CStr, 47 ∉ n → AtOrBelow (f.relPath n) path →
      (path.drop base.length).takeWhile (· != 47) = n := by
    intro n hn hpath
    have hall : ∀ c ∈ n, (c != 47) = true := by
      intro c hc
      simp only [bne_iff_ne, ne_eq]
      rintro rfl
      exact hn hc
    rcases hpath with rfl | ⟨rest, rfl⟩
    · have hend : (n ++ []).takeWhile (· != 47) = n ++ [] := List.takeWhile_append_of_pos hall
      rw [hbase, List.drop_left]
      simpa using hend
    · rw [hbase, List.append_assoc, List.drop_left, List.takeWhile_append_of_pos hall]
      simp
  rw [← hcomponent name hname h, ← hcomponent name' hname' h']

theorem below_trans {a b c : CStr} (h : AtOrBelow a b) (h' : AtOrBelow b c) : AtOrBelow a c := by
  rcases h with rfl | ⟨rest, rfl⟩
  · exact h'
  · rcases h' with rfl | ⟨rest', rfl⟩
    · exact Or.inr ⟨rest, rfl⟩
    · exact Or.inr ⟨rest ++ 47 :: rest', by simp⟩

theorem relPrefix_load (f : Frame) : f.load.relPrefix = f.relPrefix := by
  unfold Frame.load
  split
  · rfl
  · split <;> rfl

theorem relPath_child_load {f : Frame} {name : CStr} (hname : name ≠ []) (sub : Dir) (n : CStr) :
    ((f.child name sub).load).relPath n = f.relPath name ++ 47 :: n := by
  have hfront : (f.child name sub).load.relPrefix = f.relPath name := relPrefix_load _
  have hne : f.relPath name ≠ [] := by
    unfold Frame.relPath
    split
    · simp
    · exact hname
  rw [Frame.relPath, hfront, if_pos hne]

theorem below_of_mem_sites (d : Dir) : ∀ (p : Place) (i : Nat) (s : Site), d.WellNamed →
    s ∈ w.sites p i d → ∃ name ∈ d.names, AtOrBelow (p.frame.relPath name) s.relPath := by
  induction d with
  | empty => exact fun p i s _ hs => absurd hs List.not_mem_nil
  | file name data rest ih =>
      intro p i s hwell hs
      rcases List.mem_cons.mp hs with rfl | hs
      · exact ⟨name, List.mem_cons_self, Or.inl rfl⟩
      · obtain ⟨n, hn, hbelow⟩ := ih p i s hwell.2 hs
        exact ⟨n, List.mem_cons_of_mem name hn, hbelow⟩
  | subdir name sub rest ihsub ih =>
      intro p i s hwell hs
      rcases List.mem_cons.mp hs with rfl | hs
      · exact ⟨name, List.mem_cons_self, Or.inl rfl⟩
      · rcases List.mem_append.mp hs with hs | hs
        · obtain ⟨n, -, hbelow⟩ := ihsub _ 0 s hwell.2.1 hs
          refine ⟨name, List.mem_cons_self, below_trans (Or.inr ⟨n, rfl⟩) ?_⟩
          have hpath := relPath_child_load (f := p.frame) hwell.1.1 sub n
          rw [← hpath]
          exact hbelow
        · obtain ⟨n, hn, hbelow⟩ := ih p _ s hwell.2.2 hs
          exact ⟨n, List.mem_cons_of_mem name hn, hbelow⟩

theorem slash_not_mem_names {d : Dir} (h : d.WellNamed) : ∀ name ∈ d.names, 47 ∉ name := by
  induction d with
  | empty => exact fun name hname => absurd hname List.not_mem_nil
  | file n data rest ih =>
      intro name hname
      rcases List.mem_cons.mp hname with rfl | hname
      · exact h.1.2.1
      · exact ih h.2 name hname
  | subdir n sub rest _ ih =>
      intro name hname
      rcases List.mem_cons.mp hname with rfl | hname
      · exact h.1.2.1
      · exact ih h.2.2 name hname

theorem ne_of_below {p : Place} {i : Nat} {rest : Dir} {name path : CStr} (hname : 47 ∉ name)
    (hnew : name ∉ rest.names) (hrest : rest.WellNamed) (hpath : AtOrBelow (p.frame.relPath name) path)
    {s : Site} (hs : s ∈ w.sites p i rest) : path ≠ s.relPath := by
  rintro rfl
  obtain ⟨n, hn, hbelow⟩ := below_of_mem_sites w rest p i s hrest hs
  have hsame := not_below_both hname (slash_not_mem_names hrest n hn) hpath hbelow
  exact hnew (hsame ▸ hn)

theorem nodup_sites (d : Dir) : ∀ (p : Place) (i : Nat), d.WellNamed →
    ((w.sites p i d).map Site.relPath).Nodup := by
  induction d with
  | empty => exact fun p i _ => List.nodup_nil
  | file name data rest ih =>
      intro p i hwell
      rw [Walk.sites, List.map_cons, List.nodup_cons]
      refine ⟨fun hmem => ?_, ih p i hwell.2⟩
      obtain ⟨s, hs, heq⟩ := List.mem_map.mp hmem
      exact ne_of_below w hwell.1.2.1 hwell.1.2.2 hwell.2 (Or.inl rfl) hs heq.symm
  | subdir name sub rest ihsub ih =>
      intro p i hwell
      have hbelow : ∀ s ∈ w.sites (w.enter p (w.dirSite p i name) sub) 0 sub,
          ∃ n rest', s.relPath = p.frame.relPath name ++ 47 :: n ++ rest' := by
        intro s hs
        obtain ⟨n, -, hbelow⟩ := below_of_mem_sites w sub _ 0 s hwell.2.1 hs
        have hpath := relPath_child_load (f := p.frame) hwell.1.1 sub n
        change AtOrBelow ((p.frame.child name sub).load.relPath n) s.relPath at hbelow
        rw [hpath] at hbelow
        rcases hbelow with heq | ⟨rest', heq⟩
        · exact ⟨n, [], by rw [heq, List.append_nil]⟩
        · exact ⟨n, 47 :: rest', heq⟩
      rw [Walk.sites, List.map_cons, List.map_append, List.nodup_cons, List.nodup_append]
      refine ⟨fun hmem => ?_, ihsub _ 0 hwell.2.1, ih p _ hwell.2.2, ?_⟩
      · rcases List.mem_append.mp hmem with hmem | hmem
        · obtain ⟨s, hs, heq⟩ := List.mem_map.mp hmem
          obtain ⟨n, rest', hpath⟩ := hbelow s hs
          have hlen := congrArg List.length (hpath.symm.trans heq)
          simp [Walk.dirSite, Place.site] at hlen
        · obtain ⟨s, hs, heq⟩ := List.mem_map.mp hmem
          exact ne_of_below w hwell.1.2.1 hwell.1.2.2 hwell.2.2 (Or.inl rfl) hs heq.symm
      · intro path hpath path' hpath'
        obtain ⟨s, hs, rfl⟩ := List.mem_map.mp hpath
        obtain ⟨s', hs', rfl⟩ := List.mem_map.mp hpath'
        obtain ⟨n, rest', heq⟩ := hbelow s hs
        refine ne_of_below w hwell.1.2.1 hwell.1.2.2 hwell.2.2 (Or.inr ⟨n ++ rest', ?_⟩) hs'
        rw [heq, List.append_assoc, List.cons_append]

end Walk

end Discover
end CodebaseMemory
