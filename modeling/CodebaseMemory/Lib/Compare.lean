import Mathlib.Data.List.Lex
import Mathlib.Data.List.Sort
import Mathlib.Data.Prod.Lex

/-!
# Comparators and orders

A comparator `cmp` is described by a key: `(cmp a b).Compares (key a) (key b)`
says that it compares `a` and `b` as the linear order of the keys does.
-/

namespace CodebaseMemory
namespace Lib

section Compare

variable {α β : Type} [LinearOrder α] [LinearOrder β]

theorem compares_then {o o' : Ordering} {a b : α} {c d : β} (h : o.Compares a b)
    (h' : o'.Compares c d) : (o.then o').Compares (toLex (a, c)) (toLex (b, d)) := by
  cases o with
  | lt => exact Prod.Lex.toLex_lt_toLex.mpr (Or.inl h)
  | gt => exact Prod.Lex.toLex_lt_toLex.mpr (Or.inl h)
  | eq =>
      obtain rfl : a = b := h
      cases o' with
      | lt => exact Prod.Lex.toLex_lt_toLex.mpr (Or.inr ⟨rfl, h'⟩)
      | gt => exact Prod.Lex.toLex_lt_toLex.mpr (Or.inr ⟨rfl, h'⟩)
      | eq => exact congrArg (fun x => toLex (a, x)) h'

theorem compares_map {f : α → β} (hf : StrictMono f) {o : Ordering} {a b : α}
    (h : o.Compares a b) : o.Compares (f a) (f b) := by
  cases o with
  | lt => exact hf h
  | eq => exact congrArg f h
  | gt => exact hf h

theorem compares_cons {o o' : Ordering} {a b : α} {as bs : List α} (h : o.Compares a b)
    (h' : o'.Compares as bs) : (o.then o').Compares (a :: as) (b :: bs) := by
  cases o with
  | lt => exact List.Lex.rel h
  | gt => exact List.Lex.rel h
  | eq =>
      obtain rfl : a = b := h
      exact compares_map (f := (a :: ·)) (fun _ _ => List.Lex.cons) h'

end Compare

theorem pairwise_insertionSort_lt {α κ : Type} [LinearOrder κ] {cmp : α → α → Ordering}
    {key : α → κ} (hcmp : ∀ a b, (cmp a b).Compares (key a) (key b)) {rows : List α}
    (hkeys : rows.Pairwise fun a b => key a ≠ key b) :
    (rows.insertionSort (fun a b => cmp a b ≠ .gt)).Pairwise fun a b => key a < key b := by
  have hle : ∀ a b, cmp a b ≠ .gt ↔ key a ≤ key b := fun a b => (hcmp a b).ne_gt
  have : Std.Total (fun a b : α => cmp a b ≠ .gt) :=
    ⟨fun a b => by
      rw [hle, hle]
      exact le_total _ _⟩
  have : IsTrans α (fun a b => cmp a b ≠ .gt) :=
    ⟨fun a b c hab hbc => by
      rw [hle] at hab hbc ⊢
      exact hab.trans hbc⟩
  have hsorted := List.pairwise_insertionSort (fun a b => cmp a b ≠ .gt) rows
  have hne : (rows.insertionSort (fun a b => cmp a b ≠ .gt)).Pairwise fun a b => key a ≠ key b :=
    (List.Perm.pairwise_iff (fun {a b} (h : key a ≠ key b) => h.symm)
      (List.perm_insertionSort _ rows)).mpr hkeys
  refine (hsorted.and hne).imp ?_
  rintro a b ⟨hab, hkey⟩
  exact lt_of_le_of_ne ((hle a b).mp hab) hkey

theorem pairwise_insertionSort_lt_of {α κ : Type} [LinearOrder κ] {cmp : α → α → Ordering}
    {key : α → κ} {p : α → Prop} (hcmp : ∀ a b, p a → p b → (cmp a b).Compares (key a) (key b))
    {rows : List α} (hrows : ∀ a, a ∈ rows → p a)
    (hkeys : rows.Pairwise fun a b => key a ≠ key b) :
    (rows.insertionSort (fun a b => cmp a b ≠ .gt)).Pairwise fun a b => key a < key b := by
  have hval : rows = (rows.attachWith p hrows).map Subtype.val := by simp
  have hsort : rows.insertionSort (fun a b => cmp a b ≠ .gt) =
      ((rows.attachWith p hrows).insertionSort
        (fun a b => cmp a.val b.val ≠ .gt)).map Subtype.val := by
    conv_lhs => rw [hval]
    exact (List.map_insertionSort _ _ Subtype.val _ fun _ _ _ _ => Iff.rfl).symm
  rw [hsort, List.pairwise_map]
  have hcmp' : ∀ a b : Subtype p, (cmp a.val b.val).Compares (key a.val) (key b.val) :=
    fun a b => hcmp a.val b.val a.2 b.2
  rw [hval, List.pairwise_map] at hkeys
  exact pairwise_insertionSort_lt hcmp' hkeys

end Lib
end CodebaseMemory
