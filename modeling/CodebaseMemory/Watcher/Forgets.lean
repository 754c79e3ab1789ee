import CodebaseMemory.Watcher.Poll

/-!
# Which runs forget a change

The watcher keeps no record of what the index holds: a change is remembered
only as a HEAD other than `last_head`, or as a working tree that is dirty.  A
step that leaves the index behind the repository with neither of the two loses
the change, since the next due poll finds nothing to do.
-/

namespace CodebaseMemory
namespace Watcher

open Lib
open Sqlite (CStr bytesOf)

variable {τ : Type}

section Signs

variable (status : Repo τ → Bool)

/-- The signs by which a poll knows that there is something to index. -/
def Noticed (p : ProjectState) (r : Repo τ) : Prop :=
  status r = true ∨ p.lastHead ≠ [] ∧ ∃ head, gitHead r.revParse = some head ∧ head ≠ p.lastHead

theorem checkChanges_fst {p : ProjectState} (hgit : p.isGit = true) (r : Repo τ) :
    (checkChanges status p r).1 = true ↔ Noticed status p r := by
  rw [checkChanges, if_neg (by simp [hgit]), Noticed]
  cases hhead : gitHead r.revParse with
  | none => simp
  | some head =>
      by_cases hmoved : p.lastHead ≠ [] ∧ head ≠ p.lastHead
      · simp [hmoved]
      · simp [hmoved]

theorem checkChanges_snd {p : ProjectState} (hgit : p.isGit = true) (r : Repo τ) :
    (checkChanges status p r).2 = p.readHead r := by
  rw [checkChanges, if_neg (by simp [hgit]), ProjectState.readHead]
  cases hhead : gitHead r.revParse with
  | none => rfl
  | some head =>
      by_cases hmoved : p.lastHead ≠ [] ∧ head ≠ p.lastHead
      · simp [hmoved]
      · simp [hmoved]

theorem noticed_congr {p p' : ProjectState} (h : p.lastHead = p'.lastHead) (r : Repo τ) :
    Noticed status p r ↔ Noticed status p' r := by
  rw [Noticed, Noticed, h]

theorem noticed_readHead (p : ProjectState) (r : Repo τ) :
    Noticed status (p.readHead r) r ↔ status r = true := by
  rw [Noticed, ProjectState.readHead]
  constructor
  · rintro (hdirty | ⟨_, head, hhead, hne⟩)
    · exact hdirty
    · exact absurd (by simp [hhead]) hne
  · exact Or.inl

end Signs

section Promise

variable [DecidableEq τ] (status : Repo τ → Bool) (indexFn : Bool)

/-- A poll at the time `now` looks for changes and finds none. -/
def ReportsNoChange (s : State τ) (now : Int) : Prop :=
  s.phase = .idle ∧ s.project.baselineDone = true ∧ s.project.isGit = true ∧
    s.project.nextPollNs ≤ now ∧ (checkChanges status s.project s.repo).1 = false

/-- The last successful index started after the last event, and no index has failed since. -/
def Current (s : State τ) : Prop :=
  s.indexed = s.events ∧ s.failed = false

/-- A due poll that reports no change finds the index current. -/
def NeverForgets (s : State τ) : Prop :=
  ∀ now, ReportsNoChange status s now → Current s

/-- A step after which a change that is not indexed is still noticed.
* An event that finds no index running leaves the tree dirty or HEAD other than `last_head`.
* Without `index_fn`, a due poll finds the index current or the tree dirty.
* While an index that succeeds ran, nothing has moved, or the tree is dirty at its end.
* When an index fails, the tree is dirty or HEAD has moved since the poll. -/
def Safe (s : State τ) : Action τ → Prop
  | .event e =>
      s.phase = .idle → s.repo.after e ≠ s.repo → Noticed status s.project (s.repo.after e)
  | .poll now _ =>
      s.phase = .idle → indexFn = true ∨ now < s.project.nextPollNs ∨ Current s ∨
        status s.repo = true
  | .indexDone ok _ =>
      s.phase ≠ .idle →
        if ok then s.started = s.events ∨ status s.repo = true
        else Noticed status s.project s.repo
  | .touch => True

/-- What holds in every state after a baseline in a git repository. -/
structure Watched (s : State τ) : Prop where
  isGit : s.project.isGit = true
  baselineDone : s.project.baselineDone = true
  indexed_le : s.indexed ≤ s.events
  started_le : s.started ≤ s.events

variable {status}

omit [DecidableEq τ] in
theorem neverForgets_iff {s : State τ} (hs : Watched s) :
    NeverForgets status s ↔ (s.phase = .idle → Current s ∨ Noticed status s.project s.repo) := by
  have hfst : (checkChanges status s.project s.repo).1 = true ↔
      Noticed status s.project s.repo := checkChanges_fst status hs.isGit s.repo
  constructor
  · intro h hidle
    by_cases hnot : Noticed status s.project s.repo
    · exact Or.inr hnot
    · have hno : (checkChanges status s.project s.repo).1 = false :=
        Bool.eq_false_iff.mpr fun htrue => hnot (hfst.mp htrue)
      exact Or.inl (h _ ⟨hidle, hs.baselineDone, hs.isGit, le_refl _, hno⟩)
  · rintro h now ⟨hidle, _, _, _, hno⟩
    rcases h hidle with hcur | hnot
    · exact hcur
    · exact absurd (hfst.mpr hnot) (by simp [hno])

variable {s s' : State τ} {a : Action τ}

omit [DecidableEq τ] in
theorem Watched.indexReturned (hs : Watched s) (now : Int) (ok : Bool) (fileCount : Nat) :
    Watched (indexReturned s now ok fileCount) := by
  cases ok with
  | true => exact ⟨hs.isGit, hs.baselineDone, hs.started_le, hs.started_le⟩
  | false => exact ⟨hs.isGit, hs.baselineDone, hs.indexed_le, hs.started_le⟩

theorem Watched.applyEvent (hs : Watched s) (e : RepoEvent τ) : Watched (applyEvent s e) := by
  have hle : s.events ≤ (Watcher.applyEvent s e).events := by
    rw [Watcher.applyEvent]
    split
    · exact le_refl _
    · exact Nat.le_succ _
  exact ⟨hs.isGit, hs.baselineDone, hs.indexed_le.trans hle, hs.started_le.trans hle⟩

omit [DecidableEq τ] in
theorem pollProject_cases (hs : Watched s) (now : Int) (probe : Probe) :
    (now < s.project.nextPollNs ∧ pollProject status indexFn s now probe = s) ∨
    (s.project.nextPollNs ≤ now ∧ (indexFn = true → ¬ Noticed status s.project s.repo) ∧
      pollProject status indexFn s now probe =
        { s with project := (s.project.readHead s.repo).schedule now }) ∨
    (s.project.nextPollNs ≤ now ∧ indexFn = true ∧ Noticed status s.project s.repo ∧
      pollProject status indexFn s now probe =
        { s with
          project := s.project.readHead s.repo
          phase := .indexing now
          started := s.events }) := by
  have hfst : (checkChanges status s.project s.repo).1 = true ↔
      Noticed status s.project s.repo := checkChanges_fst status hs.isGit s.repo
  have hsnd : (checkChanges status s.project s.repo).2 = s.project.readHead s.repo :=
    checkChanges_snd status hs.isGit s.repo
  rw [pollProject, hs.baselineDone, hs.isGit]
  by_cases hdue : now < s.project.nextPollNs
  · exact Or.inl ⟨hdue, by simp [hdue]⟩
  · rw [← hfst]
    rcases hcheck : checkChanges status s.project s.repo with ⟨changed, p⟩
    rw [hcheck] at hsnd
    obtain rfl : p = s.project.readHead s.repo := hsnd
    cases changed with
    | false => exact Or.inr (Or.inl ⟨not_lt.mp hdue, by simp, by simp [hdue]⟩)
    | true =>
        cases indexFn with
        | false => exact Or.inr (Or.inl ⟨not_lt.mp hdue, by simp, by simp [hdue]⟩)
        | true => exact Or.inr (Or.inr ⟨not_lt.mp hdue, rfl, rfl, by simp [hdue]⟩)

omit [DecidableEq τ] in
theorem Watched.pollProject (hs : Watched s) (now : Int) (probe : Probe) :
    Watched (pollProject status indexFn s now probe) := by
  rcases pollProject_cases indexFn hs now probe with ⟨_, h⟩ | ⟨_, _, h⟩ | ⟨_, _, _, h⟩
  · rw [h]
    exact hs
  · rw [h]
    exact ⟨hs.isGit, hs.baselineDone, hs.indexed_le, hs.started_le⟩
  · rw [h]
    exact ⟨hs.isGit, hs.baselineDone, hs.indexed_le, le_refl _⟩

theorem step_cases (h : step status indexFn s a = some s') :
    (∃ e, a = .event e ∧ s' = applyEvent s e) ∨
    (∃ now probe, a = .poll now probe ∧ s.phase = .idle ∧
      s' = pollProject status indexFn s now probe) ∨
    (∃ ok fileCount now, a = .indexDone ok fileCount ∧ s.phase = .indexing now ∧
      s' = indexReturned s now ok fileCount) ∨
    (a = .touch ∧ s' = { s with project := { s.project with nextPollNs := 0 } }) := by
  cases a with
  | event e => exact Or.inl ⟨e, rfl, (Option.some.inj h).symm⟩
  | poll now probe =>
      cases hphase : s.phase with
      | idle =>
          simp only [step, hphase, Option.some.injEq] at h
          exact Or.inr (Or.inl ⟨now, probe, rfl, rfl, h.symm⟩)
      | indexing _ => simp [step, hphase] at h
  | indexDone ok fileCount =>
      cases hphase : s.phase with
      | idle => simp [step, hphase] at h
      | indexing now =>
          simp only [step, hphase, Option.some.injEq] at h
          exact Or.inr (Or.inr (Or.inl ⟨ok, fileCount, now, rfl, rfl, h.symm⟩))
  | touch => exact Or.inr (Or.inr (Or.inr ⟨rfl, (Option.some.inj h).symm⟩))

theorem Watched.step (hs : Watched s) (h : step status indexFn s a = some s') : Watched s' := by
  rcases step_cases indexFn h with
    ⟨e, rfl, rfl⟩ | ⟨now, probe, rfl, _, rfl⟩ | ⟨ok, n, now, rfl, _, rfl⟩ | ⟨rfl, rfl⟩
  · exact hs.applyEvent e
  · exact hs.pollProject indexFn now probe
  · exact hs.indexReturned now ok n
  · exact ⟨hs.isGit, hs.baselineDone, hs.indexed_le, hs.started_le⟩

omit [DecidableEq τ] in
theorem neverForgets_pollProject_iff (hs : Watched s) (hidle : s.phase = .idle)
    (hkept : Current s ∨ Noticed status s.project s.repo) (now : Int) (probe : Probe) :
    NeverForgets status (pollProject status indexFn s now probe) ↔
      (indexFn = true ∨ now < s.project.nextPollNs ∨ Current s ∨ status s.repo = true) := by
  rw [neverForgets_iff (hs.pollProject indexFn now probe)]
  rcases pollProject_cases indexFn hs now probe with
    ⟨hearly, h⟩ | ⟨_, hquiet, h⟩ | ⟨_, hfn, _, h⟩
  · rw [h]
    exact ⟨fun _ => Or.inr (Or.inl hearly), fun _ _ => hkept⟩
  · -- HEAD has been read: what is left of the signs is a dirty tree
    rw [h]
    have hread : Noticed status ((s.project.readHead s.repo).schedule now) s.repo ↔
        status s.repo = true :=
      (noticed_congr status rfl s.repo).trans (noticed_readHead status s.project s.repo)
    constructor
    · intro hafter
      rcases hafter hidle with hcur | hnot
      · exact Or.inr (Or.inr (Or.inl hcur))
      · exact Or.inr (Or.inr (Or.inr (hread.mp hnot)))
    · rintro hcond _
      by_cases hcur : Current s
      · exact Or.inl hcur
      · rcases hcond with hfn | hearly | hcur' | hdirty
        · exact absurd (hkept.resolve_left hcur) (hquiet hfn)
        · omega
        · exact Or.inl hcur'
        · exact Or.inr (hread.mpr hdirty)
  · rw [h]
    exact ⟨fun _ => Or.inl hfn, fun _ hphase => absurd hphase (by simp)⟩

omit [DecidableEq τ] in
theorem neverForgets_indexReturned_iff (hs : Watched s) (now : Int) (ok : Bool) (fileCount : Nat) :
    NeverForgets status (indexReturned s now ok fileCount) ↔
      if ok then s.started = s.events ∨ status s.repo = true
      else Noticed status s.project s.repo := by
  rw [neverForgets_iff (hs.indexReturned now ok fileCount)]
  cases ok with
  | true =>
      have hread : Noticed status (indexReturned s now true fileCount).project s.repo ↔
          status s.repo = true :=
        (noticed_congr status rfl s.repo).trans (noticed_readHead status s.project s.repo)
      have hcur : Current (indexReturned s now true fileCount) ↔ s.started = s.events :=
        ⟨And.left, fun h => ⟨h, rfl⟩⟩
      rw [if_pos rfl, ← hread, ← hcur]
      exact ⟨fun h => h rfl, fun h _ => h⟩
  | false =>
      have hread : Noticed status (indexReturned s now false fileCount).project s.repo ↔
          Noticed status s.project s.repo := noticed_congr status rfl s.repo
      have hcur : ¬ Current (indexReturned s now false fileCount) :=
        fun h => absurd h.2 (by simp [indexReturned])
      rw [if_neg (by simp), ← hread]
      exact ⟨fun h => (h rfl).resolve_left hcur, fun h _ => Or.inr h⟩

theorem neverForgets_applyEvent_iff (hs : Watched s) (hprev : NeverForgets status s)
    (e : RepoEvent τ) :
    NeverForgets status (applyEvent s e) ↔
      (s.phase = .idle → s.repo.after e ≠ s.repo →
        Noticed status s.project (s.repo.after e)) := by
  rw [neverForgets_iff hs] at hprev
  rw [neverForgets_iff (hs.applyEvent e)]
  by_cases hsame : s.repo.after e = s.repo
  · have hstay : applyEvent s e = s := by
      rw [applyEvent, if_pos hsame, hsame]
    rw [hstay]
    exact ⟨fun _ _ hne => absurd hsame hne, fun _ => hprev⟩
  · have hbehind : ¬ Current (applyEvent s e) := by
      intro hcur
      have hindexed : s.indexed = s.events + 1 := by
        simpa [applyEvent, hsame] using hcur.1
      have := hs.indexed_le
      omega
    constructor
    · exact fun h hidle _ => (h hidle).resolve_left hbehind
    · exact fun h hidle => Or.inr (h hidle hsame)

theorem neverForgets_iff_safe (hs : Watched s) (hprev : NeverForgets status s)
    (h : step status indexFn s a = some s') :
    NeverForgets status s' ↔ Safe status indexFn s a := by
  rcases step_cases indexFn h with
    ⟨e, rfl, rfl⟩ | ⟨now, probe, rfl, hidle, rfl⟩ | ⟨ok, n, now, rfl, hphase, rfl⟩ | ⟨rfl, rfl⟩
  · exact neverForgets_applyEvent_iff hs hprev e
  · have hkept := (neverForgets_iff hs).mp hprev hidle
    rw [neverForgets_pollProject_iff indexFn hs hidle hkept]
    exact ⟨fun hcond _ => hcond, fun hsafe => hsafe hidle⟩
  · rw [neverForgets_indexReturned_iff hs]
    have hbusy : s.phase ≠ .idle := by simp [hphase]
    exact ⟨fun hcond _ => hcond, fun hsafe => hsafe hbusy⟩
  · have hprev' := (neverForgets_iff hs).mp hprev
    exact ⟨fun _ => trivial, fun _ => (neverForgets_iff (hs.step indexFn h)).mpr hprev'⟩

theorem safe_of_step_eq_none (h : step status indexFn s a = none) : Safe status indexFn s a := by
  cases a with
  | event e => simp [step] at h
  | poll now probe =>
      intro hidle
      simp [step, hidle] at h
  | indexDone ok fileCount =>
      intro hbusy
      cases hphase : s.phase with
      | idle => exact absurd hphase hbusy
      | indexing now => simp [step, hphase] at h
  | touch => trivial

/-- The state after `init_baseline` in a git repository whose index is current. -/
def baseline (repo : Repo τ) (fileCount : Nat) (nowNs : Int) : State τ :=
  { project := initBaseline stateNew repo
      { rootExists := true, isGitRepo := true, fileCount := fileCount, nowNs := nowNs }
    repo := repo
    phase := .idle
    events := 0
    indexed := 0
    started := 0
    failed := false }

omit [DecidableEq τ] in
theorem watched_baseline (repo : Repo τ) (fileCount : Nat) (nowNs : Int) :
    Watched (baseline repo fileCount nowNs) :=
  ⟨rfl, rfl, le_refl _, le_refl _⟩

omit [DecidableEq τ] in
theorem neverForgets_baseline (repo : Repo τ) (fileCount : Nat) (nowNs : Int) :
    NeverForgets status (baseline repo fileCount nowNs) :=
  fun _ _ => ⟨rfl, rfl⟩

/-- Along every run from a baseline, all states keep the promise exactly if all steps are safe. -/
theorem never_forgets_iff (status : Repo τ → Bool) (indexFn : Bool) (repo : Repo τ)
    (fileCount : Nat) (nowNs : Int) (actions : List (Action τ)) :
    AllHold (step status indexFn) (NeverForgets status) (baseline repo fileCount nowNs) actions ↔
      AllMeet (step status indexFn) (Safe status indexFn) (baseline repo fileCount nowNs)
        actions :=
  allHold_iff_allMeet (fun _ _ _ hs h => hs.step indexFn h)
    (fun _ _ h => safe_of_step_eq_none indexFn h)
    (fun _ _ _ hs hprev h => neverForgets_iff_safe indexFn hs hprev h) actions
    (baseline repo fileCount nowNs) (watched_baseline repo fileCount nowNs)
    (neverForgets_baseline repo fileCount nowNs)

end Promise

/-- What `git rev-parse HEAD` prints at two commits. -/
def commitA : CStr := bytesOf "1f0c2a9d4b7e6835c0d1e2f3a4b5c6d7e8f90a1b\n"

@[inherit_doc commitA]
def commitB : CStr := bytesOf "8e7d6c5b4a39281706f5e4d3c2b1a0f9e8d7c6b5\n"

/-- `git status` of a tree that is 0 in the first commit and 1 in the second. -/
def treeStatus (r : Repo Nat) : Bool :=
  if r.revParse = commitA then r.tree ≠ 0 else r.tree ≠ 1

/-- A clean checkout of another commit, seen by a poll whose index fails.  The poll has taken the
new HEAD over, so no later poll sees it. -/
theorem not_never_forgets :
    ¬ AllHold (step treeStatus true) (NeverForgets treeStatus) (baseline ⟨commitA, 0⟩ 1 0)
      [.event (.checkout commitB 1), .poll 5000000000 ⟨true, true, 1, 5000000000⟩,
        .indexDone false 1] := by
  rintro ⟨_, _, _, h⟩
  have hcurrent := h 10000000000 ⟨rfl, rfl, rfl, by decide, by decide +kernel⟩
  exact absurd hcurrent.1 (by decide)

end Watcher
end CodebaseMemory
