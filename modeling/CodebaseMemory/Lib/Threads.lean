import Mathlib.Algebra.BigOperators.Group.Finset.Basic
import Mathlib.Data.Fintype.Basic

/-!
# Threads that take turns

Threads with a state of their own share a state.  In a turn one thread takes a step, which
reads and writes the shared state and its own.
-/

namespace CodebaseMemory
namespace Lib

section Threads

variable {ι σ π : Type} [DecidableEq ι]

def takeTurn (step : σ → π → σ × π) (s : σ × (ι → π)) (t : ι) : σ × (ι → π) :=
  ((step s.1 (s.2 t)).1, Function.update s.2 t (step s.1 (s.2 t)).2)

/-- Turns in a given order. -/
def runTurns (step : σ → π → σ × π) (s : σ × (ι → π)) (ts : List ι) : σ × (ι → π) :=
  ts.foldl (takeTurn step) s

/-- Every turn is that of a thread that has not stopped. -/
@[simp] def AllActive (step : σ → π → σ × π) (stopped : π → Prop) : σ × (ι → π) → List ι → Prop
  | _, [] => True
  | s, t :: ts => ¬ stopped (s.2 t) ∧ AllActive step stopped (takeTurn step s t) ts

variable {step : σ → π → σ × π}

theorem runTurns_invariant {P : σ × (ι → π) → Prop} (hturn : ∀ s t, P s → P (takeTurn step s t))
    {s : σ × (ι → π)} (hs : P s) (ts : List ι) : P (runTurns step s ts) := by
  induction ts generalizing s with
  | nil => exact hs
  | cons t ts ih => exact ih (hturn s t hs)

theorem length_le_of_measure {P : σ × (ι → π) → Prop} {stopped : π → Prop}
    {measure : σ × (ι → π) → Nat}
    (hturn : ∀ s t, P s → ¬ stopped (s.2 t) →
      P (takeTurn step s t) ∧ measure (takeTurn step s t) < measure s)
    {s : σ × (ι → π)} (hs : P s) {ts : List ι} (h : AllActive step stopped s ts) :
    ts.length ≤ measure s := by
  induction ts generalizing s with
  | nil => exact Nat.zero_le _
  | cons t ts ih =>
      obtain ⟨hkeep, hlt⟩ := hturn s t hs h.1
      have hle := ih hkeep h.2
      rw [List.length_cons]
      omega

theorem exists_all_stopped {P : σ × (ι → π) → Prop} {stopped : π → Prop}
    {measure : σ × (ι → π) → Nat}
    (hturn : ∀ s t, P s → ¬ stopped (s.2 t) →
      P (takeTurn step s t) ∧ measure (takeTurn step s t) < measure s)
    {s : σ × (ι → π)} (hs : P s) : ∃ ts, ∀ t, stopped ((runTurns step s ts).2 t) := by
  induction hn : measure s using Nat.strong_induction_on generalizing s with
  | _ n ih =>
      by_cases hall : ∀ t, stopped (s.2 t)
      · exact ⟨[], hall⟩
      · obtain ⟨t, ht⟩ := not_forall.mp hall
        obtain ⟨hkeep, hlt⟩ := hturn s t hs ht
        obtain ⟨ts, hts⟩ := ih _ (hn ▸ hlt) hkeep rfl
        exact ⟨t :: ts, hts⟩

theorem sum_update_add {M : Type} [AddCommMonoid M] (f : π → M) (pcs : ι → π) {s : Finset ι}
    {t : ι} (ht : t ∈ s) (p : π) :
    ∑ i ∈ s, f (Function.update pcs t p i) + f (pcs t) = ∑ i ∈ s, f (pcs i) + f p := by
  have hrest : ∑ i ∈ s.erase t, f (Function.update pcs t p i) = ∑ i ∈ s.erase t, f (pcs i) :=
    Finset.sum_congr rfl fun i hi => by rw [Function.update_of_ne (Finset.ne_of_mem_erase hi)]
  rw [← Finset.add_sum_erase s _ ht, hrest, Function.update_self,
    ← Finset.add_sum_erase s (fun i => f (pcs i)) ht]
  ac_rfl

end Threads

end Lib
end CodebaseMemory
