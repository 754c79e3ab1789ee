import CodebaseMemory.Artifact.RoundTrip
import CodebaseMemory.Lib.Transition

/-!
# Exports at the same time (`src/pipeline/artifact.c`)

Every export of best quality makes its stripped copy at one temporary path.  The
machine takes the file-system steps of any number of exports in any order: unlink,
`VACUUM INTO`, drop the indexes, read, unlink, write the `.tmp` file, rename.
-/

namespace CodebaseMemory
namespace Artifact

open Lib
open Sqlite (CStr)

universe u

/-- Where an export of best quality stands. -/
inductive Pc where
  | start
  | cleared
  | vacuumed
  | stripped
  | copied (data : Option CStr)
  | refused
  | packed (compressed : CStr)
  | written (file : CStr)
  | done
  | failed
deriving DecidableEq

/-- The file at the temporary path, where each export stands, and the artifact in
the repository of each. -/
structure Machine (ι : Type u) where
  temp : Option CStr
  pc : ι → Pc
  artifact : ι → Option CStr

section Machine

variable {ι : Type u} [DecidableEq ι]
variable (tools : Tools)
variable (o : ι → ExportOutcome)
variable (db : ι → Option CStr)

/-- An export moves on. -/
def Machine.goto (m : Machine ι) (p : ι) (pc : Pc) : Machine ι :=
  { m with pc := Function.update m.pc p pc }

/-- The next step of an export. -/
def step (m : Machine ι) (p : ι) : Option (Machine ι) :=
  match m.pc p with
  | .start => some ({ m with temp := none }.goto p .cleared)
  | .cleared =>
      if db p = none then some (m.goto p .failed)
      else match vacuumInto tools (o p).strip.vacuumOk (db p) m.temp with
        | none => some (m.goto p .refused)
        | some copy => some ({ m with temp := some copy }.goto p .vacuumed)
  | .vacuumed =>
      let temp := if (o p).strip.opened then m.temp.map tools.dropIndexes else m.temp
      some ({ m with temp := temp }.goto p .stripped)
  | .stripped => some (m.goto p (.copied (readFileAlloc (o p).strip.readOk m.temp)))
  | .copied data =>
      match data.bind (compressData tools (o p) .best) with
      | none => some ({ m with temp := none }.goto p .failed)
      | some compressed => some ({ m with temp := none }.goto p (.packed compressed))
  | .refused => some ({ m with temp := none }.goto p .failed)
  | .packed compressed =>
      match writeTmp (o p).artifact compressed with
      | none => some (m.goto p .failed)
      | some file => some (m.goto p (.written file))
  | .written file =>
      if (o p).artifact.renamed then
        some ({ m with artifact := Function.update m.artifact p (some file) }.goto p .done)
      else some (m.goto p .failed)
  | .done => none
  | .failed => none

/-- The export as it goes without the others. -/
def alone (p : ι) : Repo × Int :=
  cbmArtifactExport tools (o p) (db p) .best ⟨none, none⟩

/-- An export that has returned 0 has written the artifact that it writes alone, and
one that has failed fails alone as well. -/
def EndsAsAlone (m : Machine ι) : Prop :=
  ∀ p, (m.pc p = .done → (alone tools o db p).2 = 0 ∧
      m.artifact p = (alone tools o db p).1.artifact) ∧
    (m.pc p = .failed → (alone tools o db p).2 ≠ 0)

/-- The copy is at the temporary path and will be read. -/
def Pc.Needs : Pc → Prop
  | .vacuumed => True
  | .stripped => True
  | _ => False

/-- The copy is at the temporary path. -/
def Pc.Occupies : Pc → Prop
  | .vacuumed => True
  | .stripped => True
  | .copied _ => True
  | _ => False

/-- The step does not unlink a copy that another export needs, and does not make a
copy where another one is. -/
def Spares (m : Machine ι) (p : ι) : Prop :=
  match m.pc p with
  | .start => ∀ q, q ≠ p → ¬ (m.pc q).Needs
  | .cleared => ∀ q, q ≠ p → ¬ (m.pc q).Occupies
  | .copied _ => ∀ q, q ≠ p → ¬ (m.pc q).Needs
  | .refused => ∀ q, q ≠ p → ¬ (m.pc q).Needs
  | _ => True

/-- The exports have not begun. -/
def Machine.Fresh (m : Machine ι) : Prop :=
  ∀ p, m.pc p = .start

/-- The compressed bytes that the export has alone. -/
def ownPacked (p : ι) : Option CStr :=
  (prepareStrippedDb tools (o p).strip (db p)).bind (compressData tools (o p) .best)

/-- What holds of an export by where it stands: its copy, its data and its result are
those it has alone. -/
def PcOk (p : ι) (temp artifact : Option CStr) : Pc → Prop
  | .start => True
  | .cleared => True
  | .vacuumed => ∃ copy, vacuumInto tools (o p).strip.vacuumOk (db p) none = some copy ∧
      temp = some copy
  | .stripped => ∃ copy, vacuumInto tools (o p).strip.vacuumOk (db p) none = some copy ∧
      temp = some (if (o p).strip.opened then tools.dropIndexes copy else copy)
  | .copied data => data = prepareStrippedDb tools (o p).strip (db p)
  | .refused => prepareStrippedDb tools (o p).strip (db p) = none
  | .packed compressed => ownPacked tools o db p = some compressed
  | .written file => (ownPacked tools o db p).bind (writeTmp (o p).artifact) = some file
  | .done => (alone tools o db p).2 = 0 ∧ artifact = (alone tools o db p).1.artifact
  | .failed => (alone tools o db p).2 ≠ 0

/-- The invariant: every export is on its own way; the temporary path is free for an
export that has cleared it, unless another one's copy is there; one copy at most is
needed. -/
structure Consistent (m : Machine ι) : Prop where
  own : ∀ p, PcOk tools o db p m.temp (m.artifact p) (m.pc p)
  free : ∀ p, m.pc p = .cleared → m.temp = none ∨ ∃ q, q ≠ p ∧ (m.pc q).Occupies
  one : ∀ p q, (m.pc p).Needs → (m.pc q).Needs → p = q

end Machine

section Alone

variable {ι : Type u}
variable {tools : Tools}
variable {o : ι → ExportOutcome}
variable {db : ι → Option CStr}
variable {p : ι}

theorem alone_of_file {file : CStr}
    (hfile : (ownPacked tools o db p).bind (writeTmp (o p).artifact) = some file)
    (hrenamed : (o p).artifact.renamed = true) :
    (alone tools o db p).2 = 0 ∧ (alone tools o db p).1.artifact = some file := by
  obtain ⟨compressed, hpacked, hwrite⟩ := Option.bind_eq_some_iff.mp hfile
  obtain ⟨data, hdata, hpack⟩ := Option.bind_eq_some_iff.mp hpacked
  simp [alone, cbmArtifactExport, exportData, hdata, hpack, writeFileAtomic, hwrite, hrenamed]

theorem alone_ne_zero (hnone : (ownPacked tools o db p).bind (writeTmp (o p).artifact) = none ∨
      (o p).artifact.renamed = false) : (alone tools o db p).2 ≠ 0 := by
  unfold ownPacked at hnone
  cases hdata : prepareStrippedDb tools (o p).strip (db p) with
  | none => simp [alone, cbmArtifactExport, exportData, hdata]
  | some data =>
      cases hpack : compressData tools (o p) .best data with
      | none => simp [alone, cbmArtifactExport, exportData, hdata, hpack]
      | some compressed =>
          cases hwrite : writeTmp (o p).artifact compressed with
          | none =>
              simp [alone, cbmArtifactExport, exportData, hdata, hpack, writeFileAtomic, hwrite]
          | some file =>
              have hrenamed : (o p).artifact.renamed = false := by
                simpa [hdata, hpack, hwrite] using hnone
              simp [alone, cbmArtifactExport, exportData, hdata, hpack, writeFileAtomic, hwrite,
                hrenamed]

theorem ownPacked_of_none (h : prepareStrippedDb tools (o p).strip (db p) = none) :
    (ownPacked tools o db p).bind (writeTmp (o p).artifact) = none := by
  rw [ownPacked, h]
  rfl

theorem PcOk.of_not_needs {temp artifact : Option CStr} {pc : Pc}
    (h : PcOk tools o db p temp artifact pc) (hneeds : ¬ pc.Needs) (temp' : Option CStr) :
    PcOk tools o db p temp' artifact pc := by
  cases pc with
  | vacuumed => exact absurd trivial hneeds
  | stripped => exact absurd trivial hneeds
  | _ => exact h

theorem Consistent.others {m : Machine ι} (hm : Consistent tools o db m) (hp : (m.pc p).Needs) :
    ∀ q, q ≠ p → ¬ (m.pc q).Needs :=
  fun q hq hneeds => hq (hm.one q p hneeds hp)

theorem prepareStrippedDb_of_copy {copy : CStr}
    (hcopy : vacuumInto tools (o p).strip.vacuumOk (db p) none = some copy) :
    prepareStrippedDb tools (o p).strip (db p) = readFileAlloc (o p).strip.readOk
      (some (if (o p).strip.opened then tools.dropIndexes copy else copy)) := by
  unfold prepareStrippedDb
  rw [hcopy]

theorem prepareStrippedDb_of_none
    (hcopy : vacuumInto tools (o p).strip.vacuumOk (db p) none = none) :
    prepareStrippedDb tools (o p).strip (db p) = none := by
  unfold prepareStrippedDb
  rw [hcopy]

end Alone

section Step

variable {ι : Type u} [DecidableEq ι]
variable {tools : Tools}
variable {o : ι → ExportOutcome}
variable {db : ι → Option CStr}

theorem Pc.Needs.occupies {pc : Pc} (h : pc.Needs) : pc.Occupies := by
  cases pc <;> first | exact trivial | exact h

theorem Consistent.update {m : Machine ι} (hm : Consistent tools o db m) {p : ι} {pc : Pc}
    {temp : Option CStr} {artifact : ι → Option CStr}
    (hown : PcOk tools o db p temp (artifact p) pc)
    (hartifact : ∀ q, q ≠ p → artifact q = m.artifact q)
    (htemp : temp = m.temp ∨ ∀ q, q ≠ p → ¬ (m.pc q).Needs)
    (hfree : temp = none ∨ pc.Occupies ∨ temp = m.temp ∧ ¬ (m.pc p).Occupies)
    (hcleared : pc = .cleared → temp = none)
    (hone : pc.Needs → ∀ q, q ≠ p → ¬ (m.pc q).Needs) :
    Consistent tools o db ⟨temp, Function.update m.pc p pc, artifact⟩ where
  own := by
    intro q
    by_cases hq : q = p
    · subst hq
      change PcOk tools o db q temp (artifact q) (Function.update m.pc q pc q)
      rwa [Function.update_self]
    · change PcOk tools o db q temp (artifact q) (Function.update m.pc p pc q)
      rw [Function.update_of_ne hq, hartifact q hq]
      rcases htemp with rfl | hneeds
      · exact hm.own q
      · exact (hm.own q).of_not_needs (hneeds q hq) temp
  free := by
    intro q hq
    change Function.update m.pc p pc q = .cleared at hq
    change temp = none ∨ ∃ r, r ≠ q ∧ (Function.update m.pc p pc r).Occupies
    by_cases hqp : q = p
    · subst hqp
      rw [Function.update_self] at hq
      exact Or.inl (hcleared hq)
    · rw [Function.update_of_ne hqp] at hq
      rcases hfree with hnone | hocc | ⟨rfl, hocc⟩
      · exact Or.inl hnone
      · exact Or.inr ⟨p, Ne.symm hqp, by rwa [Function.update_self]⟩
      · rcases hm.free q hq with hnone | ⟨r, hr, hroc⟩
        · exact Or.inl hnone
        · have hrp : r ≠ p := by
            rintro rfl
            exact hocc hroc
          exact Or.inr ⟨r, hr, by rwa [Function.update_of_ne hrp]⟩
  one := by
    intro q r hq hr
    change (Function.update m.pc p pc q).Needs at hq
    change (Function.update m.pc p pc r).Needs at hr
    by_cases hqp : q = p
    · by_cases hrp : r = p
      · rw [hqp, hrp]
      · rw [hqp, Function.update_self] at hq
        rw [Function.update_of_ne hrp] at hr
        exact absurd hr (hone hq r hrp)
    · rw [Function.update_of_ne hqp] at hq
      by_cases hrp : r = p
      · rw [hrp, Function.update_self] at hr
        exact absurd hq (hone hr q hqp)
      · rw [Function.update_of_ne hrp] at hr
        exact hm.one q r hq hr

theorem Consistent.step {m m' : Machine ι} {p : ι} (hm : Consistent tools o db m)
    (hspares : Spares m p) (hstep : step tools o db m p = some m') : Consistent tools o db m' := by
  have hown := hm.own p
  unfold Spares at hspares
  unfold Artifact.step at hstep
  cases hpc : m.pc p with
  | start =>
      simp only [hpc, Option.some.injEq] at hspares hstep
      subst hstep
      exact hm.update trivial (fun _ _ => rfl) (Or.inr hspares) (Or.inl rfl) (fun _ => rfl)
        fun h => absurd h id
  | cleared =>
      simp only [hpc] at hspares hstep
      have hquiet : ∀ q, q ≠ p → ¬ (m.pc q).Needs :=
        fun q hq hneeds => hspares q hq hneeds.occupies
      have htemp : m.temp = none := by
        rcases hm.free p hpc with hnone | ⟨q, hq, hocc⟩
        · exact hnone
        · exact absurd hocc (hspares q hq)
      have hstay : ¬ (m.pc p).Occupies := by
        rw [hpc]
        exact id
      split at hstep
      · next hdb =>
          obtain rfl := Option.some.inj hstep
          refine hm.update (alone_ne_zero (Or.inl (ownPacked_of_none ?_))) (fun _ _ => rfl)
            (Or.inl rfl) (Or.inr (Or.inr ⟨rfl, hstay⟩)) (fun h => by cases h) fun h => absurd h id
          refine prepareStrippedDb_of_none ?_
          rw [hdb, vacuumInto]
          split <;> rfl
      · rw [htemp] at hstep
        cases hcopy : vacuumInto tools (o p).strip.vacuumOk (db p) none with
        | none =>
            simp only [hcopy, Option.some.injEq] at hstep
            subst hstep
            exact hm.update (prepareStrippedDb_of_none hcopy) (fun _ _ => rfl) (Or.inl rfl)
              (Or.inr (Or.inr ⟨rfl, hstay⟩)) (fun h => by cases h) fun h => absurd h id
        | some copy =>
            simp only [hcopy, Option.some.injEq] at hstep
            subst hstep
            exact hm.update ⟨copy, hcopy, rfl⟩ (fun _ _ => rfl) (Or.inr hquiet)
              (Or.inr (Or.inl trivial)) (fun h => by cases h) fun _ => hquiet
  | vacuumed =>
      rw [hpc] at hown
      obtain ⟨copy, hcopy, htemp⟩ := hown
      simp only [hpc, htemp, Option.map_some, Option.some.injEq] at hstep
      subst hstep
      have hneeds : (m.pc p).Needs := by
        rw [hpc]
        trivial
      refine hm.update ⟨copy, hcopy, ?_⟩ (fun _ _ => rfl) (Or.inr (hm.others hneeds))
        (Or.inr (Or.inl trivial)) (fun h => by cases h) fun _ => hm.others hneeds
      split <;> rfl
  | stripped =>
      rw [hpc] at hown
      obtain ⟨copy, hcopy, htemp⟩ := hown
      simp only [hpc, htemp, Option.some.injEq] at hstep
      subst hstep
      refine hm.update ?_ (fun _ _ => rfl) (Or.inl rfl) (Or.inr (Or.inl trivial))
        (fun h => by cases h) fun h => absurd h id
      exact (prepareStrippedDb_of_copy hcopy).symm
  | copied data =>
      rw [hpc] at hown
      simp only [hpc] at hspares hstep
      cases hpack : data.bind (compressData tools (o p) .best) with
      | none =>
          simp only [hpack, Option.some.injEq] at hstep
          subst hstep
          refine hm.update (alone_ne_zero (Or.inl ?_)) (fun _ _ => rfl) (Or.inr hspares)
            (Or.inl rfl) (fun h => by cases h) fun h => absurd h id
          rw [ownPacked, ← hown, hpack]
          rfl
      | some compressed =>
          simp only [hpack, Option.some.injEq] at hstep
          subst hstep
          refine hm.update ?_ (fun _ _ => rfl) (Or.inr hspares)
            (Or.inl rfl) (fun h => by cases h) fun h => absurd h id
          change ownPacked tools o db p = some compressed
          rw [ownPacked, ← hown, hpack]
  | refused =>
      rw [hpc] at hown
      simp only [hpc, Option.some.injEq] at hspares hstep
      subst hstep
      exact hm.update (alone_ne_zero (Or.inl (ownPacked_of_none hown))) (fun _ _ => rfl)
        (Or.inr hspares) (Or.inl rfl) (fun h => by cases h) fun h => absurd h id
  | packed compressed =>
      rw [hpc] at hown
      simp only [hpc] at hstep
      have hstay : ¬ (m.pc p).Occupies := by
        rw [hpc]
        exact id
      have hfile : (ownPacked tools o db p).bind (writeTmp (o p).artifact) =
          writeTmp (o p).artifact compressed := by
        rw [show ownPacked tools o db p = some compressed from hown]
        rfl
      cases hwrite : writeTmp (o p).artifact compressed with
      | none =>
          simp only [hwrite, Option.some.injEq] at hstep
          subst hstep
          exact hm.update (alone_ne_zero (Or.inl (hfile.trans hwrite))) (fun _ _ => rfl)
            (Or.inl rfl) (Or.inr (Or.inr ⟨rfl, hstay⟩)) (fun h => by cases h)
            fun h => absurd h id
      | some file =>
          simp only [hwrite, Option.some.injEq] at hstep
          subst hstep
          exact hm.update (hfile.trans hwrite) (fun _ _ => rfl) (Or.inl rfl)
            (Or.inr (Or.inr ⟨rfl, hstay⟩)) (fun h => by cases h) fun h => absurd h id
  | written file =>
      rw [hpc] at hown
      simp only [hpc] at hstep
      have hstay : ¬ (m.pc p).Occupies := by
        rw [hpc]
        exact id
      split at hstep
      · next hrenamed =>
          obtain rfl := Option.some.inj hstep
          obtain ⟨hzero, hartifact⟩ := alone_of_file hown hrenamed
          refine hm.update ⟨hzero, ?_⟩ (fun q hq => Function.update_of_ne hq _ _) (Or.inl rfl)
            (Or.inr (Or.inr ⟨rfl, hstay⟩)) (fun h => by cases h) fun h => absurd h id
          rw [hartifact]
          exact Function.update_self _ _ _
      · next hrenamed =>
          obtain rfl := Option.some.inj hstep
          exact hm.update (alone_ne_zero (Or.inr (Bool.eq_false_of_not_eq_true hrenamed)))
            (fun _ _ => rfl) (Or.inl rfl) (Or.inr (Or.inr ⟨rfl, hstay⟩)) (fun h => by cases h)
            fun h => absurd h id
  | done =>
      simp only [hpc] at hstep
      cases hstep
  | failed =>
      simp only [hpc] at hstep
      cases hstep

end Step

section Run

variable {ι : Type u}
variable {tools : Tools}
variable {o : ι → ExportOutcome}
variable {db : ι → Option CStr}

theorem Machine.Fresh.consistent {m : Machine ι} (hm : m.Fresh) : Consistent tools o db m where
  own := by
    intro p
    rw [hm p]
    trivial
  free := by
    intro p hp
    rw [hm p] at hp
    cases hp
  one := by
    intro p q hp
    rw [hm p] at hp
    exact absurd hp id

theorem Consistent.endsAsAlone {m : Machine ι} (hm : Consistent tools o db m) :
    EndsAsAlone tools o db m := by
  intro p
  have hown := hm.own p
  constructor
  · intro hpc
    rwa [hpc] at hown
  · intro hpc
    rwa [hpc] at hown

end Run

/-- Along a run whose steps spare the copies of the others, every export ends as it
would alone. -/
theorem exports_own {ι : Type u} [DecidableEq ι] (tools : Tools) (o : ι → ExportOutcome)
    (db : ι → Option CStr) {m m' : Machine ι} (hfresh : m.Fresh)
    (hrun : Steps (step tools o db) Spares m m') : EndsAsAlone tools o db m' :=
  (hrun.invariant (fun _ _ _ hm hspares hstep => hm.step hspares hstep)
    hfresh.consistent).endsAsAlone

section Sequence

variable {ι : Type u} [DecidableEq ι]
variable {tools : Tools}
variable {o : ι → ExportOutcome}
variable {db : ι → Option CStr}

theorem step_pc_of_ne {m m' : Machine ι} {p q : ι} (hstep : step tools o db m p = some m')
    (hq : q ≠ p) : m'.pc q = m.pc q := by
  have hgoto : ∀ {n : Machine ι} {pc : Pc}, some (n.goto p pc) = some m' → n.pc = m.pc →
      m'.pc q = m.pc q := by
    intro n pc h hn
    obtain rfl := Option.some.inj h
    rw [← hn]
    exact Function.update_of_ne hq _ _
  unfold step at hstep
  cases hpc : m.pc p <;> simp only [hpc] at hstep
  case start => exact hgoto hstep rfl
  case cleared =>
    split at hstep
    · exact hgoto hstep rfl
    · split at hstep <;> exact hgoto hstep rfl
  case vacuumed => exact hgoto hstep rfl
  case stripped => exact hgoto hstep rfl
  case copied data => split at hstep <;> exact hgoto hstep rfl
  case refused => exact hgoto hstep rfl
  case packed compressed => split at hstep <;> exact hgoto hstep rfl
  case written file => split at hstep <;> exact hgoto hstep rfl
  case done => cases hstep
  case failed => cases hstep

omit [DecidableEq ι] in
theorem spares_of_idle {m : Machine ι} {p : ι} (h : ∀ q, q ≠ p → ¬ (m.pc q).Occupies) :
    Spares m p := by
  have hneeds : ∀ q, q ≠ p → ¬ (m.pc q).Needs := fun q hq hn => h q hq hn.occupies
  unfold Spares
  split
  · exact hneeds
  · exact h
  · exact hneeds
  · exact hneeds
  · trivial

theorem steps_of_idle {p : ι} (k : Nat) :
    ∀ {m m' : Machine ι}, (∀ q, q ≠ p → ¬ (m.pc q).Occupies) →
      runActions (step tools o db) m (List.replicate k p) = some m' →
      Steps (step tools o db) Spares m m' := by
  intro m m' hidle hrun
  refine steps_of_runActions _ m ?_ hrun
  clear hrun
  induction k generalizing m with
  | zero => trivial
  | succ k ih =>
      refine ⟨spares_of_idle hidle, ?_⟩
      cases hstep : step tools o db m p with
      | none => trivial
      | some n =>
          refine ih fun q hq => ?_
          rw [step_pc_of_ne hstep hq]
          exact hidle q hq

end Sequence

/-- The exports of two projects, with the databases `[65]` and `[66]`. -/
def twoExports : Bool → ExportOutcome :=
  fun _ => smallExport 2 1

def twoDatabases : Bool → Option CStr
  | false => some [65]
  | true => some [66]

def twoFresh : Machine Bool where
  temp := none
  pc := fun _ => .start
  artifact := fun _ => none

/-- While the second export has not begun, the first artifact holds the first database. -/
theorem exports_own_first :
    ((runActions (step smallTools twoExports twoDatabases) twoFresh (List.replicate 7 false)).map
      fun m => (m.pc false, m.artifact false)) = some (.done, some [40, 65]) ∧
    ∀ m, runActions (step smallTools twoExports twoDatabases) twoFresh (List.replicate 7 false) =
      some m → EndsAsAlone smallTools twoExports twoDatabases m :=
  ⟨by decide, fun _ hrun => exports_own smallTools twoExports twoDatabases (fun _ => rfl)
    (steps_of_idle (m := twoFresh) 7 (fun _ _ h => h) hrun)⟩

/-- The second export makes its copy where the first one had its own: the first
artifact holds the second database, and the second export fails. -/
theorem not_exports_own :
    ((runActions (step smallTools twoExports twoDatabases) twoFresh
      [false, false, true, true, false, false, false, false, false, true, true, true]).map
        fun m => (m.pc false, m.artifact false, m.pc true)) =
      some (.done, some [40, 66], .failed) ∧
    (alone smallTools twoExports twoDatabases false).1.artifact = some [40, 65] ∧
    (alone smallTools twoExports twoDatabases true).2 = 0 := by
  decide

end Artifact
end CodebaseMemory
