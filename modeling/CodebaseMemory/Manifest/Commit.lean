import CodebaseMemory.Manifest.Statements
import Mathlib.Data.List.Nodup

/-!
# Memories that are committed (`handle_memory_commit`)

A commit counts, inserts the selected candidates into `memories` and then marks the
selected candidates.  The last two statements evaluate the same predicate at different
times, and the last one is skipped when nothing was inserted.

* A candidate that another process validates between the two is marked without having been
  inserted: its memory is lost.
* Candidates that were inserted and not marked, because a process stopped between the two,
  are never marked by a commit that finds nothing new to insert.

`memories_kept` says what holds in every state of every run in which no validation comes
between the insert and the update of a commit that it concerns (`Undisturbed`), and
exactly when a commit marks all it has selected.
-/

namespace CodebaseMemory
namespace Manifest

open Lib
open Sqlite (CStr bytesOf)

universe u

section Commit

variable {ι : Type} [DecidableEq ι] {δ : Type u}

/-- No committed candidate is without its memory, and no memory without a candidate that was
validated. -/
structure NothingLost (s : State ι δ) : Prop where
  kept : ∀ c ∈ s.candidates, c.status = .committed →
    ∃ m ∈ s.memories, m.id = c.id ∧ m.projectKey = c.projectKey ∧ m.text = c.text
  validated : ∀ m ∈ s.memories, ∃ c ∈ s.candidates, c.id = m.id ∧ c.status ≠ .pending

/-- A memory enters the table only while its candidate is validated. -/
def ValidatedFirst (s : State ι δ) : Prop :=
  ∀ a s', step s a = some s' → ∀ m ∈ s'.memories, m ∉ s.memories →
    ∃ c ∈ s.candidates, c.id = m.id ∧ c.status = .validated

/-- No candidate that a commit selects is left validated. -/
def Cleared (projectKey : CStr) (id : Option CStr) (s : State ι δ) : Prop :=
  ∀ c ∈ s.candidates, ¬ c.Selected projectKey id

/-- Some candidate is selected, and every selected one is in `memories` already. -/
def AllInserted (projectKey : CStr) (id : Option CStr) (s : State ι δ) : Prop :=
  (∃ c ∈ s.candidates, c.Selected projectKey id) ∧
    ∀ c ∈ s.candidates, c.Selected projectKey id → c.id ∈ s.memories.map MemoryRow.id

/-- An update of `memory_validate` does not come between the insert and the update of a
commit that would select a candidate it validates. -/
def Undisturbed (s : State ι δ) : Action ι δ → Prop
  | .request _ _ _ => True
  | .next p _ =>
    ∀ projectKey, s.phase p = .validating projectKey →
      ∀ q id, s.phase q = .inserted projectKey id →
        ∀ c ∈ s.candidates, c.projectKey = projectKey → c.status = .pending →
          id ≠ none ∧ id ≠ some c.id

inductive Moves : State ι δ → Action ι δ → State ι δ → Prop
  | candidate (s : State ι δ) (p : ι) (r : Request δ) (now : Int) (c : Candidate δ)
      (hc : c.status = .pending) :
      Moves s (.request p r now) { s with candidates := insertCandidate s.candidates c }
  | counts (s : State ι δ) (p : ι) (r : Request δ) (now : Int) (phase : Phase)
      (hphase : ∀ projectKey id, phase ≠ .inserted projectKey id) :
      Moves s (.request p r now) (s.setPhase p phase)
  | validates (s : State ι δ) (p : ι) (now : Int) (projectKey : CStr)
      (hp : s.phase p = .validating projectKey) :
      Moves s (.next p now)
        { s.setPhase p .idle with
          candidates := s.candidates.map (Candidate.validate projectKey now) }
  | inserts (s : State ι δ) (p : ι) (now : Int) (projectKey : CStr) (id : Option CStr)
      (phase : Phase) (hphase : phase = .idle ∨ phase = .inserted projectKey id) :
      Moves s (.next p now)
        { s.setPhase p phase with
          memories := commitInsert projectKey id now s.candidates s.memories }
  | marks (s : State ι δ) (p : ι) (now : Int) (projectKey : CStr) (id : Option CStr)
      (hp : s.phase p = .inserted projectKey id) :
      Moves s (.next p now)
        { s.setPhase p .idle with
          candidates := s.candidates.map (Candidate.commit projectKey id now) }

variable {projectKey : CStr}
variable {candidates rows : List (Candidate δ)}
variable {id : Option CStr}
variable {memories : List (MemoryRow δ)}
variable {c : Candidate δ}
variable {phase : Phase}
variable {m : MemoryRow δ}
variable {p : ι}
variable {s : State ι δ}
variable {now : Int}

theorem setPhase_self (h : s.phase p = phase) : s.setPhase p phase = s := by
  subst h
  simp [State.setPhase]

theorem setPhase_same (s : State ι δ) (p : ι) (phase : Phase) :
    (s.setPhase p phase).phase p = phase := by
  simp [State.setPhase]

theorem setPhase_other {q : ι} (h : q ≠ p) : (s.setPhase p phase).phase q = s.phase q := by
  simp [State.setPhase, h]

theorem moves_of_step {s' : State ι δ} {a : Action ι δ} (h : step s a = some s') :
    Moves s a s' := by
  cases a with
  | request p r now =>
    simp only [step] at h
    split at h
    · next hidle =>
      cases h
      have hstay : Moves s (.request p r now) s := by
        have := Moves.counts s p r now .idle (by simp)
        rwa [setPhase_self hidle] at this
      cases r with
      | candidate id projectKey text details => exact .candidate s p _ now _ rfl
      | validate projectKey dryRun =>
        simp only [State.begin]
        split
        · exact .counts s p _ now _ (by simp)
        · exact hstay
      | commit projectKey id dryRun =>
        simp only [State.begin]
        split
        · exact .counts s p _ now _ (by simp)
        · exact hstay
    · cases h
  | next p now =>
    simp only [step, State.resume] at h
    cases hp : s.phase p with
    | idle => simp [hp] at h
    | validating projectKey =>
      simp only [hp, Option.some.injEq] at h
      subst h
      exact .validates s p now projectKey hp
    | counted projectKey id =>
      simp only [hp] at h
      split at h
      · cases h
        exact .inserts s p now projectKey id _ (.inr rfl)
      · cases h
        exact .inserts s p now projectKey id _ (.inl rfl)
    | inserted projectKey id =>
      simp only [hp, Option.some.injEq] at h
      subst h
      exact .marks s p now projectKey id hp

theorem mem_insertOrIgnore {rows : List (MemoryRow δ)} {m' : MemoryRow δ}
    (h : m' ∈ insertOrIgnore rows m) : m' ∈ rows ∨ m' = m := by
  unfold insertOrIgnore at h
  split at h
  · exact .inl h
  · simpa using h

theorem insertOrIgnore_isPrefix (rows : List (MemoryRow δ)) (m : MemoryRow δ) :
    rows <+: insertOrIgnore rows m := by
  unfold insertOrIgnore
  split
  · exact List.prefix_rfl
  · exact List.prefix_append _ _

theorem id_mem_insertOrIgnore (rows : List (MemoryRow δ)) (m : MemoryRow δ) :
    m.id ∈ (insertOrIgnore rows m).map MemoryRow.id := by
  unfold insertOrIgnore
  split
  · next h => exact h
  · simp

theorem insertAll_isPrefix (new : List (MemoryRow δ)) :
    ∀ rows, rows <+: new.foldl insertOrIgnore rows := by
  induction new with
  | nil => exact fun rows => List.prefix_rfl
  | cons m new ih => exact fun rows => (insertOrIgnore_isPrefix rows m).trans (ih _)

theorem mem_insertAll {m' : MemoryRow δ} (new : List (MemoryRow δ)) :
    ∀ rows, m' ∈ new.foldl insertOrIgnore rows → m' ∈ rows ∨ m' ∈ new := by
  induction new with
  | nil => exact fun rows h => .inl h
  | cons m new ih =>
    intro rows h
    rcases ih _ h with h | h
    · rcases mem_insertOrIgnore h with h | rfl
      · exact .inl h
      · exact .inr List.mem_cons_self
    · exact .inr (List.mem_cons_of_mem _ h)

theorem id_mem_insertAll (new : List (MemoryRow δ)) (hm : m ∈ new) :
    ∀ rows, m.id ∈ (new.foldl insertOrIgnore rows).map MemoryRow.id := by
  induction new with
  | nil => cases hm
  | cons m' new ih =>
    intro rows
    rcases List.mem_cons.mp hm with rfl | hm
    · have hid := id_mem_insertOrIgnore rows m
      exact (List.Sublist.map _ (insertAll_isPrefix new _).sublist).subset hid
    · exact ih hm _

theorem insertAll_eq_self (new : List (MemoryRow δ)) {rows : List (MemoryRow δ)}
    (h : ∀ m ∈ new, m.id ∈ rows.map MemoryRow.id) : new.foldl insertOrIgnore rows = rows := by
  induction new with
  | nil => rfl
  | cons m new ih =>
    have hm : insertOrIgnore rows m = rows := if_pos (h m List.mem_cons_self)
    rw [List.foldl_cons, hm]
    exact ih fun m' hm' => h m' (List.mem_cons_of_mem _ hm')

theorem mem_commitInsert (h : m ∈ commitInsert projectKey id now candidates memories) :
    m ∈ memories ∨ ∃ c ∈ candidates, c.Selected projectKey id ∧ m = c.toMemory now := by
  rcases mem_insertAll _ _ h with h | h
  · exact .inl h
  · obtain ⟨c, hc, rfl⟩ := List.mem_map.mp h
    simp only [List.mem_filter, decide_eq_true_eq] at hc
    exact .inr ⟨c, hc.1, hc.2, rfl⟩

theorem id_mem_commitInsert (hc : c ∈ candidates) (hsel : c.Selected projectKey id) :
    c.id ∈ (commitInsert projectKey id now candidates memories).map MemoryRow.id := by
  have hm : c.toMemory now ∈
      (candidates.filter fun c => c.Selected projectKey id).map (Candidate.toMemory now) :=
    List.mem_map_of_mem (by simp [hc, hsel])
  exact id_mem_insertAll _ hm memories

theorem commitInsert_subset : memories ⊆ commitInsert projectKey id now candidates memories :=
  (insertAll_isPrefix _ memories).subset

/-- A change of a row that keeps what identifies it and does not take a validation back. -/
structure Forward (f : Candidate δ → Candidate δ) : Prop where
  id : ∀ c, (f c).id = c.id
  projectKey : ∀ c, (f c).projectKey = c.projectKey
  text : ∀ c, (f c).text = c.text
  status : ∀ c, c.status ≠ .pending → (f c).status ≠ .pending

theorem forward_validate (projectKey : CStr) (now : Int) :
    Forward (Candidate.validate (δ := δ) projectKey now) := by
  constructor <;> intro c <;> unfold Candidate.validate <;> split <;> simp

theorem forward_commit (projectKey : CStr) (id : Option CStr) (now : Int) :
    Forward (Candidate.commit (δ := δ) projectKey id now) := by
  constructor <;> intro c <;> unfold Candidate.commit <;> split <;> simp

/-- A candidate of the id, project and text of the memory, which is no longer pending. -/
def HasSource (candidates : List (Candidate δ)) (m : MemoryRow δ) : Prop :=
  ∃ c ∈ candidates, c.id = m.id ∧ c.projectKey = m.projectKey ∧ c.text = m.text ∧
    c.status ≠ .pending

structure Inv (s : State ι δ) : Prop where
  distinct : (s.candidates.map Candidate.id).Nodup
  kept : ∀ c ∈ s.candidates, c.status = .committed → c.id ∈ s.memories.map MemoryRow.id
  source : ∀ m ∈ s.memories, HasSource s.candidates m
  /-- What a commit in progress will mark has been inserted. -/
  covered : ∀ p projectKey id, s.phase p = .inserted projectKey id →
    ∀ c ∈ s.candidates, c.Selected projectKey id → c.id ∈ s.memories.map MemoryRow.id

theorem HasSource.map {f : Candidate δ → Candidate δ} (hf : Forward f)
    (h : HasSource candidates m) : HasSource (candidates.map f) m := by
  obtain ⟨c, hc, hid, hkey, htext, hst⟩ := h
  exact ⟨f c, List.mem_map_of_mem hc, (hf.id c).trans hid, (hf.projectKey c).trans hkey,
    (hf.text c).trans htext, hf.status c hst⟩

theorem distinct_map {f : Candidate δ → Candidate δ} (hf : Forward f)
    (h : (candidates.map Candidate.id).Nodup) : ((candidates.map f).map Candidate.id).Nodup := by
  have he : (candidates.map f).map Candidate.id = candidates.map Candidate.id := by
    rw [List.map_map]
    exact List.map_congr_left fun c _ => hf.id c
  rw [he]
  exact h

theorem mem_insertCandidate {c' : Candidate δ} :
    c' ∈ insertCandidate rows c → c' ∈ rows ∨ c' = c := by
  unfold insertCandidate
  split
  · exact .inl
  · simp

theorem insertCandidate_subset (rows : List (Candidate δ)) (c : Candidate δ) :
    rows ⊆ insertCandidate rows c := by
  unfold insertCandidate
  split
  · exact List.Subset.refl _
  · exact List.subset_append_left _ _

theorem distinct_insertCandidate (c : Candidate δ) (h : (rows.map Candidate.id).Nodup) :
    ((insertCandidate rows c).map Candidate.id).Nodup := by
  unfold insertCandidate
  split
  · exact h
  · next hnew =>
    rw [List.map_append, List.map_singleton, List.nodup_append]
    refine ⟨h, by simp, ?_⟩
    intro a ha b hb
    rw [List.mem_singleton] at hb
    rintro rfl
    exact hnew (hb ▸ ha)

theorem selected_validate {key : CStr} (h : (c.validate projectKey now).Selected key id) :
    c.Selected key id ∨
      c.projectKey = projectKey ∧ key = projectKey ∧ c.status = .pending ∧
        (id = none ∨ id = some c.id) := by
  unfold Candidate.validate at h
  split at h
  · next hc => exact .inr ⟨hc.1, h.1.symm.trans hc.1, hc.2, h.2.2⟩
  · exact .inl h

theorem selected_commit {key : CStr} {id' : Option CStr}
    (h : (c.commit projectKey id now).Selected key id') : c.Selected key id' := by
  unfold Candidate.commit at h
  split at h
  · exact absurd h.2.1 (by simp)
  · exact h

theorem inserted_of_setPhase {q : ι} (hphase : ∀ key i, phase ≠ .inserted key i)
    (h : (s.setPhase p phase).phase q = .inserted projectKey id) :
    s.phase q = .inserted projectKey id := by
  by_cases hq : q = p
  · subst hq
    rw [setPhase_same] at h
    exact absurd h (hphase _ _)
  · rwa [setPhase_other hq] at h

theorem inv_of_moves {s' : State ι δ} {a : Action ι δ} (h : Inv s) (hok : Undisturbed s a)
    (hm : Moves s a s') : Inv s' := by
  cases hm with
  | candidate p r now c hc =>
    refine ⟨distinct_insertCandidate c h.distinct, ?_, ?_, ?_⟩
    · intro c' hc' hst
      rcases mem_insertCandidate hc' with hc' | rfl
      · exact h.kept c' hc' hst
      · rw [hc] at hst
        cases hst
    · intro m hm
      obtain ⟨c', hc', hrest⟩ := h.source m hm
      exact ⟨c', insertCandidate_subset _ c hc', hrest⟩
    · intro q projectKey id hq c' hc' hsel
      rcases mem_insertCandidate hc' with hc' | rfl
      · exact h.covered q projectKey id hq c' hc' hsel
      · rw [hsel.2.1] at hc
        cases hc
  | counts p r now phase hphase =>
    refine ⟨h.distinct, h.kept, h.source, fun q projectKey id hq => ?_⟩
    exact h.covered q projectKey id (inserted_of_setPhase hphase hq)
  | validates p now projectKey hp =>
    have hf := forward_validate (δ := δ) projectKey now
    refine ⟨distinct_map hf h.distinct, ?_, fun m hm => (h.source m hm).map hf, ?_⟩
    · intro c' hc' hst
      obtain ⟨c, hc, rfl⟩ := List.mem_map.mp hc'
      rw [hf.id]
      refine h.kept c hc ?_
      unfold Candidate.validate at hst
      split at hst
      · cases hst
      · exact hst
    · intro q key id hq c' hc' hsel
      obtain ⟨c, hc, rfl⟩ := List.mem_map.mp hc'
      rw [hf.id]
      have hq' := inserted_of_setPhase (by simp) hq
      rcases selected_validate hsel with hsel | ⟨hkey, rfl, hst, hid⟩
      · exact h.covered q key id hq' c hc hsel
      · -- the condition: this commit would mark a candidate that it has not inserted
        have hne := hok key hp q id hq' c hc hkey hst
        exact absurd hid (by simp [hne.1, hne.2])
  | inserts p now projectKey id phase hphase =>
    have hsub : ∀ {i : CStr}, i ∈ s.memories.map MemoryRow.id →
        i ∈ (commitInsert projectKey id now s.candidates s.memories).map MemoryRow.id :=
      fun hi => List.map_subset _ commitInsert_subset hi
    refine ⟨h.distinct, fun c hc hst => hsub (h.kept c hc hst), ?_, ?_⟩
    · intro m hm
      rcases mem_commitInsert hm with hm | ⟨c, hc, hsel, rfl⟩
      · exact h.source m hm
      · exact ⟨c, hc, rfl, rfl, rfl, by simp [hsel.2.1]⟩
    · intro q key i hq c hc hsel
      by_cases hqp : q = p
      · subst hqp
        rw [setPhase_same] at hq
        rcases hphase with rfl | rfl
        · cases hq
        · cases hq
          exact id_mem_commitInsert hc hsel
      · rw [setPhase_other hqp] at hq
        exact hsub (h.covered q key i hq c hc hsel)
  | marks p now projectKey id hp =>
    have hf := forward_commit (δ := δ) projectKey id now
    refine ⟨distinct_map hf h.distinct, ?_, fun m hm => (h.source m hm).map hf, ?_⟩
    · intro c' hc' hst
      obtain ⟨c, hc, rfl⟩ := List.mem_map.mp hc'
      rw [hf.id]
      by_cases hsel : c.Selected projectKey id
      · exact h.covered p projectKey id hp c hc hsel
      · rw [Candidate.commit, if_neg hsel] at hst
        exact h.kept c hc hst
    · intro q key i hq c' hc' hsel
      obtain ⟨c, hc, rfl⟩ := List.mem_map.mp hc'
      rw [hf.id]
      exact h.covered q key i (inserted_of_setPhase (by simp) hq) c hc (selected_commit hsel)

omit [DecidableEq ι] in
theorem inv_start : Inv (start : State ι δ) := by
  constructor <;> simp [start]

theorem inv_of_steps (h : Steps step Undisturbed start s) : Inv s :=
  h.invariant (fun _ _ _ hinv hok hstep => inv_of_moves hinv hok (moves_of_step hstep)) inv_start

omit [DecidableEq ι] in
theorem Inv.nothingLost (h : Inv s) : NothingLost s where
  kept := fun c hc hst => by
    obtain ⟨m, hm, hid⟩ := List.mem_map.mp (h.kept c hc hst)
    obtain ⟨c', hc', hid', hkey, htext, -⟩ := h.source m hm
    have he : c' = c := List.inj_on_of_nodup_map h.distinct hc' hc (hid'.trans hid)
    exact ⟨m, hm, hid, he ▸ hkey.symm, he ▸ htext.symm⟩
  validated := fun m hm => by
    obtain ⟨c, hc, hid, -, -, hst⟩ := h.source m hm
    exact ⟨c, hc, hid, hst⟩

theorem validatedFirst (s : State ι δ) : ValidatedFirst s := by
  intro a s' hstep m hm hnew
  cases moves_of_step hstep with
  | candidate p r now c hc => exact absurd hm hnew
  | counts p r now phase hphase => exact absurd hm hnew
  | validates p now projectKey hp => exact absurd hm hnew
  | inserts p now projectKey id phase hphase =>
    rcases mem_commitInsert hm with hm | ⟨c, hc, hsel, rfl⟩
    · exact absurd hm hnew
    · exact ⟨c, hc, rfl, hsel.2.1⟩
  | marks p now projectKey id hp => exact absurd hm hnew

theorem count_pos_iff {status : Status} :
    0 < countByStatus rows projectKey status ↔
      ∃ c ∈ rows, c.projectKey = projectKey ∧ c.status = status := by
  simp [countByStatus, List.countP_pos_iff]

omit [DecidableEq ι] in
theorem commitInsert_grows_iff :
    s.memories.length < (commitInsert projectKey id now s.candidates s.memories).length ↔
      ∃ c ∈ s.candidates, c.Selected projectKey id ∧ c.id ∉ s.memories.map MemoryRow.id := by
  constructor
  · intro hgrow
    by_contra hall
    push Not at hall
    have he : commitInsert projectKey id now s.candidates s.memories = s.memories := by
      refine insertAll_eq_self _ fun m hm => ?_
      obtain ⟨c, hc, rfl⟩ := List.mem_map.mp hm
      simp only [List.mem_filter, decide_eq_true_eq] at hc
      exact hall c hc.1 hc.2
    rw [he] at hgrow
    exact lt_irrefl _ hgrow
  · rintro ⟨c, hc, hsel, hnew⟩
    have hpre : s.memories <+: commitInsert projectKey id now s.candidates s.memories :=
      insertAll_isPrefix _ _
    refine lt_of_le_of_ne hpre.length_le fun hlen => hnew ?_
    rw [hpre.eq_of_length hlen]
    exact id_mem_commitInsert hc hsel

theorem commitAlone_spec (hp : s.phase p = .idle) :
    (commitAlone p projectKey id now s).phase p = .idle ∧
    (commitAlone p projectKey id now s).candidates =
      if s.memories.length < (commitInsert projectKey id now s.candidates s.memories).length then
        s.candidates.map (Candidate.commit projectKey id now)
      else s.candidates := by
  have hbegin : s.begin p now (.commit projectKey id false) =
      if 0 < countByStatus s.candidates projectKey .validated then
        s.setPhase p (.counted projectKey id)
      else s := by
    simp [State.begin]
  rw [commitAlone, hbegin]
  by_cases hready : 0 < countByStatus s.candidates projectKey .validated
  · rw [if_pos hready]
    by_cases hgrow :
        s.memories.length < (commitInsert projectKey id now s.candidates s.memories).length
    · rw [if_pos hgrow]
      simp [finish, State.resume, State.setPhase, hgrow]
    · rw [if_neg hgrow]
      simp [finish, State.resume, State.setPhase, hgrow]
  · have hgrow :
        ¬ s.memories.length < (commitInsert projectKey id now s.candidates s.memories).length := by
      rw [commitInsert_grows_iff]
      rintro ⟨c, hc, hsel, -⟩
      exact hready (count_pos_iff.mpr ⟨c, hc, hsel.1, hsel.2.1⟩)
    rw [if_neg hready, if_neg hgrow]
    simp [finish, State.resume, hp]

theorem cleared_commitAlone_iff (hp : s.phase p = .idle) :
    Cleared projectKey id (commitAlone p projectKey id now s) ↔ ¬ AllInserted projectKey id s := by
  unfold Cleared
  rw [(commitAlone_spec hp).2]
  by_cases hgrow :
      s.memories.length < (commitInsert projectKey id now s.candidates s.memories).length
  · rw [if_pos hgrow]
    refine iff_of_true ?_ ?_
    · intro c' hc' hsel
      obtain ⟨c, -, rfl⟩ := List.mem_map.mp hc'
      have hc := selected_commit hsel
      rw [Candidate.commit, if_pos hc] at hsel
      exact absurd hsel.2.1 (by simp)
    · rintro ⟨-, hall⟩
      obtain ⟨c, hc, hsel, hnew⟩ := commitInsert_grows_iff.mp hgrow
      exact hnew (hall c hc hsel)
  · rw [if_neg hgrow]
    rw [commitInsert_grows_iff] at hgrow
    push Not at hgrow
    constructor
    · rintro hnone ⟨⟨c, hc, hsel⟩, -⟩
      exact hnone c hc hsel
    · intro hnot c hc hsel
      exact hnot ⟨⟨c, hc, hsel⟩, hgrow⟩

/-- For any number of processes and every run from an empty manifest in which no validation
comes between the insert and the update of a commit that would select what it validates:
no memory is lost, memories come from validated candidates, and a commit that runs alone
leaves none of its selection validated exactly when it has something to insert or
nothing to do. -/
theorem memories_kept {s : State ι δ} (h : Steps step Undisturbed start s) :
    NothingLost s ∧ ValidatedFirst s ∧
      ∀ (p : ι) (projectKey : CStr) (id : Option CStr) (now : Int), s.phase p = .idle →
        (commitAlone p projectKey id now s).phase p = .idle ∧
        (Cleared projectKey id (commitAlone p projectKey id now s) ↔
          ¬ AllInserted projectKey id s) :=
  ⟨(inv_of_steps h).nothingLost, validatedFirst s, fun _ _ _ _ hp =>
    ⟨(commitAlone_spec hp).1, cleared_commitAlone_iff hp⟩⟩

end Commit

def keyK : CStr := bytesOf "k"

/-- A candidate is recorded and validated by the process `false`. -/
def oneValidated : List (Action Bool Unit) :=
  [.request false (.candidate (bytesOf "mem-1") keyK (bytesOf "x") ()) 1,
    .request false (.validate keyK false) 1, .next false 1]

def oneCommitted : List (Action Bool Unit) :=
  oneValidated ++ [.request false (.commit keyK none false) 2, .next false 2, .next false 2]

theorem memories_kept_oneCommitted :
    ∃ s : State Bool Unit, runActions step start oneCommitted = some s ∧ NothingLost s := by
  refine ⟨_, rfl, (memories_kept (steps_of_runActions oneCommitted start ?_ rfl)).1⟩
  refine ⟨trivial, trivial, ?_, trivial, ?_, ?_, trivial⟩
  · intro _ _ q id hq
    cases q <;> simp [start, State.begin, insertCandidate, countByStatus, State.setPhase] at hq
  · intro key hq
    cases hq
  · intro key hq
    cases hq

/-- A second candidate is recorded before the commit, and the process `true` validates it
between the insert and the update. -/
def lostRun : List (Action Bool Unit) :=
  oneValidated ++
    [.request false (.candidate (bytesOf "mem-2") keyK (bytesOf "y") ()) 2,
      .request false (.commit keyK none false) 3, .next false 3,
      .request true (.validate keyK false) 3, .next true 3, .next false 3]

/-- The second candidate ends as committed, and is in no row of `memories`. -/
theorem memory_lost :
    ¬ ∀ s : State Bool Unit, Steps step (fun _ _ => True) start s → NothingLost s := by
  intro h
  have hall : AllMeet step (fun _ _ => True) (start : State Bool Unit) lostRun :=
    allMeet_of_forall (fun _ _ => trivial) lostRun start
  have hlost := h _ (steps_of_runActions lostRun start hall rfl)
  obtain ⟨m, hm, hid, -⟩ := hlost.kept
    { id := bytesOf "mem-2", projectKey := keyK, text := bytesOf "y", details := (),
      status := .committed, createdAt := 2, validatedAt := some 3, committedAt := some 3 }
    (.tail _ (.head _)) rfl
  cases hm with
  | head => exact absurd hid (by decide)
  | tail _ hm => cases hm

end Manifest
end CodebaseMemory
