import Mathlib.Order.Basic

/-!
# Runs of a state machine

A machine is a partial step function: `step s a` is the state after the action
`a`, or `none` where `a` cannot be taken.  `Steps step ok s s'` says that some
sequence of actions leads from `s` to `s'`, each of which meets `ok` in the
state it finds.
-/

namespace CodebaseMemory
namespace Lib

universe u v

section Transition

variable {σ : Type u} {α : Type v} {step : σ → α → Option σ}

/-- A run in which every action meets `ok` in the state it finds. -/
inductive Steps (step : σ → α → Option σ) (ok : σ → α → Prop) (s : σ) : σ → Prop
  | refl : Steps step ok s s
  | tail {s' s'' : σ} {a : α} :
      Steps step ok s s' → ok s' a → step s' a = some s'' → Steps step ok s s''

variable {ok ok' : σ → α → Prop} {s s' s'' : σ}

theorem Steps.invariant {P : σ → Prop} (h : Steps step ok s s')
    (hstep : ∀ t a t', P t → ok t a → step t a = some t' → P t') (hs : P s) : P s' := by
  induction h with
  | refl => exact hs
  | tail _ hok hnext ih => exact hstep _ _ _ ih hok hnext

theorem Steps.trans (h : Steps step ok s s') (h' : Steps step ok s' s'') :
    Steps step ok s s'' := by
  induction h' with
  | refl => exact h
  | tail _ hok hnext ih => exact ih.tail hok hnext

/-- The state after a list of actions, if all can be taken. -/
def runActions (step : σ → α → Option σ) : σ → List α → Option σ
  | s, [] => some s
  | s, a :: as =>
      match step s a with
      | none => none
      | some s' => runActions step s' as

/-- Every action of the list meets `ok` in the state it finds. -/
def AllMeet (step : σ → α → Option σ) (ok : σ → α → Prop) : σ → List α → Prop
  | _, [] => True
  | s, a :: as =>
      ok s a ∧
        match step s a with
        | none => True
        | some s' => AllMeet step ok s' as

theorem allMeet_of_forall (hok : ∀ s a, ok s a) (as : List α) : ∀ s, AllMeet step ok s as := by
  induction as with
  | nil => exact fun _ => trivial
  | cons a as ih =>
      intro s
      refine ⟨hok s a, ?_⟩
      cases step s a with
      | none => trivial
      | some s' => exact ih s'

theorem steps_of_runActions (as : List α) :
    ∀ s, AllMeet step ok s as → runActions step s as = some s' → Steps step ok s s' := by
  induction as with
  | nil =>
      intro s _ hrun
      obtain rfl : s = s' := Option.some.inj hrun
      exact Steps.refl
  | cons a as ih =>
      intro s hall hrun
      obtain ⟨hok, hrest⟩ := hall
      cases hnext : step s a with
      | none =>
          rw [runActions, hnext] at hrun
          exact absurd hrun (by simp)
      | some t =>
          rw [runActions, hnext] at hrun
          rw [hnext] at hrest
          exact (Steps.refl.tail hok hnext).trans (ih t hrest hrun)

/-- Every state that the list of actions passes satisfies `P`. -/
def AllHold (step : σ → α → Option σ) (P : σ → Prop) : σ → List α → Prop
  | s, [] => P s
  | s, a :: as =>
      P s ∧
        match step s a with
        | none => True
        | some s' => AllHold step P s' as

theorem AllHold.head {P : σ → Prop} {as : List α} (h : AllHold step P s as) : P s := by
  cases as with
  | nil => exact h
  | cons a as => exact h.1

/-- A property that a step keeps exactly if it meets `ok`, in the states with `J`, holds along
a run exactly if all steps of the run meet `ok`. -/
theorem allHold_iff_allMeet {P J : σ → Prop}
    (hJ : ∀ s a s', J s → step s a = some s' → J s')
    (hnone : ∀ s a, step s a = none → ok s a)
    (hP : ∀ s a s', J s → P s → step s a = some s' → (P s' ↔ ok s a)) (as : List α) :
    ∀ s, J s → P s → (AllHold step P s as ↔ AllMeet step ok s as) := by
  induction as with
  | nil => exact fun s _ hs => ⟨fun _ => trivial, fun _ => hs⟩
  | cons a as ih =>
      intro s hjs hps
      rw [AllHold, AllMeet]
      cases hnext : step s a with
      | none => exact ⟨fun _ => ⟨hnone s a hnext, trivial⟩, fun _ => ⟨hps, trivial⟩⟩
      | some s' =>
          have hjs' : J s' := hJ s a s' hjs hnext
          have hone : P s' ↔ ok s a := hP s a s' hjs hps hnext
          constructor
          · rintro ⟨_, hrest⟩
            have hps' : P s' := AllHold.head hrest
            exact ⟨hone.mp hps', (ih s' hjs' hps').mp hrest⟩
          · rintro ⟨hok, hrest⟩
            exact ⟨hps, (ih s' hjs' (hone.mpr hok)).mpr hrest⟩

end Transition

end Lib
end CodebaseMemory
