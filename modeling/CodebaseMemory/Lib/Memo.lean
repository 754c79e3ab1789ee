import Mathlib.Data.List.AList

/-!
# Memoization

A table of results that may be there or not: a call looks its key up, and else
computes and stores the result.  The computation may change a state of its own.
-/

namespace CodebaseMemory
namespace Lib

universe u v w

section Memo

variable {κ : Type u} {β : Type v} {σ : Type w} [DecidableEq κ]

abbrev MemoTable (κ : Type u) (β : Type v) := Option (AList fun _ : κ => β)

/-- A call through the table. -/
def memo (t : MemoTable κ β) (k : κ) (s : σ) (compute : σ → β × σ) : β × MemoTable κ β × σ :=
  match t with
  | none => ((compute s).1, none, (compute s).2)
  | some table =>
      match table.lookup k with
      | some v => (v, some table, s)
      | none => ((compute s).1, some (table.insert k (compute s).1), (compute s).2)

/-- The table holds results of `f` only. -/
def Memoizes (f : κ → β) (t : MemoTable κ β) : Prop :=
  ∀ table ∈ t, ∀ k v, table.lookup k = some v → v = f k

theorem memoizes_none (f : κ → β) : Memoizes f none :=
  fun _ h => absurd h (by simp)

theorem memoizes_empty (f : κ → β) : Memoizes f (some ∅) := by
  intro table htable k v hv
  obtain rfl : ∅ = table := Option.some.inj htable
  exact absurd hv (by simp)

variable {f : κ → β} {t : MemoTable κ β} {k : κ} {s : σ} {compute : σ → β × σ}

theorem memo_fst (ht : Memoizes f t) (hcompute : (compute s).1 = f k) :
    (memo t k s compute).1 = f k := by
  cases t with
  | none => exact hcompute
  | some table =>
      rw [memo]
      cases hv : table.lookup k with
      | none => exact hcompute
      | some v => exact ht table rfl k v hv

theorem Memoizes.memo (ht : Memoizes f t) (hcompute : (compute s).1 = f k) :
    Memoizes f (memo t k s compute).2.1 := by
  cases t with
  | none => exact memoizes_none f
  | some table =>
      rw [Lib.memo]
      cases hv : table.lookup k with
      | some v => exact ht
      | none =>
          intro table' htable' k' v' hv'
          obtain rfl : table.insert k (compute s).1 = table' := Option.some.inj htable'
          by_cases hk : k' = k
          · subst hk
            rw [AList.lookup_insert] at hv'
            exact (Option.some.inj hv').symm.trans hcompute
          · rw [AList.lookup_insert_ne hk] at hv'
            exact ht table rfl k' v' hv'

theorem memo_state {P : σ → Prop} (hs : P s) (hcompute : P (compute s).2) :
    P (memo t k s compute).2.2 := by
  cases t with
  | none => exact hcompute
  | some table =>
      rw [memo]
      cases table.lookup k with
      | none => exact hcompute
      | some v => exact hs

end Memo

end Lib
end CodebaseMemory
