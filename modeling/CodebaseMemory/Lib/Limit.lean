import Mathlib.Data.List.Perm.Subperm
import Mathlib.Data.List.Pairwise
import Mathlib.Order.Nat

/-!
# The first rows of a sorted table

`ORDER BY` with `LIMIT` sorts a table by a key and takes a number of rows from the
front.  Rows with equal keys may come in any order.
-/

namespace CodebaseMemory
namespace Lib

universe u

variable {α : Type u}

def SortedBy (key : α → Nat) (table rows : List α) : Prop :=
  rows.Perm table ∧ rows.Pairwise fun x y => key x ≤ key y

theorem exists_sortedBy_first (key : α → Nat) (table : List α) (y : α) :
    ∃ rows, SortedBy key table rows ∧
      rows.Pairwise fun x z => z = y → key x = key y → x = y := by
  classical
  let before : α → α → Bool := fun x z =>
    decide (key x < key z ∨ key x = key z ∧ (x = y ∨ z ≠ y))
  have hbefore : ∀ x z, before x z = true ↔
      key x < key z ∨ key x = key z ∧ (x = y ∨ z ≠ y) := fun _ _ => decide_eq_true_iff
  have htrans : ∀ a b c, before a b = true → before b c = true → before a c = true := by
    intro a b c hab hbc
    rw [hbefore] at hab hbc ⊢
    rcases hab with hab | ⟨hab, hya⟩
    · rcases hbc with hbc | ⟨hbc, _⟩
      · exact Or.inl (hab.trans hbc)
      · exact Or.inl (hbc ▸ hab)
    · rcases hbc with hbc | ⟨hbc, hyb⟩
      · exact Or.inl (hab ▸ hbc)
      · refine Or.inr ⟨hab.trans hbc, ?_⟩
        rcases hyb with hyb | hyc
        · rcases hya with hya | hne
          · exact Or.inl hya
          · exact absurd hyb hne
        · exact Or.inr hyc
  have htotal : ∀ a b, (before a b || before b a) = true := by
    intro a b
    rw [Bool.or_eq_true, hbefore, hbefore]
    rcases lt_trichotomy (key a) (key b) with hlt | heq | hgt
    · exact Or.inl (Or.inl hlt)
    · by_cases hb : b = y
      · exact Or.inr (Or.inr ⟨heq.symm, Or.inl hb⟩)
      · exact Or.inl (Or.inr ⟨heq, Or.inr hb⟩)
    · exact Or.inr (Or.inl hgt)
  have hsorted := List.pairwise_mergeSort htrans htotal table
  refine ⟨table.mergeSort before, ⟨List.mergeSort_perm table before, ?_⟩, ?_⟩
  · refine hsorted.imp fun {x z} hxz => ?_
    rw [hbefore] at hxz
    rcases hxz with hlt | ⟨heq, _⟩
    · exact hlt.le
    · exact heq.le
  · refine hsorted.imp fun {x z} hxz hz hkey => ?_
    rw [hbefore, hz] at hxz
    rcases hxz with hlt | ⟨_, hx | hne⟩
    · exact absurd hkey hlt.ne
    · exact hx
    · exact absurd rfl hne

theorem exists_sortedBy (key : α → Nat) (table : List α) : ∃ rows, SortedBy key table rows := by
  let before : α → α → Bool := fun x y => decide (key x ≤ key y)
  have htrans : ∀ a b c, before a b = true → before b c = true → before a c = true :=
    fun a b c hab hbc => decide_eq_true ((of_decide_eq_true hab).trans (of_decide_eq_true hbc))
  have htotal : ∀ a b, (before a b || before b a) = true := by
    intro a b
    rw [Bool.or_eq_true, decide_eq_true_iff, decide_eq_true_iff]
    exact Nat.le_total _ _
  have hsorted := List.pairwise_mergeSort htrans htotal table
  exact ⟨_, List.mergeSort_perm table _, hsorted.imp fun h => of_decide_eq_true h⟩

theorem pairwise_take_drop {r : α → α → Prop} {rows : List α} (h : rows.Pairwise r) {limit : Nat}
    {x y : α} (hx : x ∈ rows.take limit) (hy : y ∈ rows.drop limit) : r x y := by
  rw [← List.take_append_drop limit rows] at h
  exact (List.pairwise_append.mp h).2.2 x hx y hy

section Wanted

variable {key : α → Nat}
variable {table wanted : List α}
variable {limit : Nat}

theorem mem_take_of_sortedBy {rows : List α} (hwanted : wanted.Nodup)
    (htable : table.Nodup) (hroom : wanted.length ≤ limit) (hin : ∀ x ∈ wanted, x ∈ table)
    (hother : ∀ y ∈ table, y ∉ wanted → limit = wanted.length ∧ ∀ x ∈ wanted, key x < key y)
    (hrows : SortedBy key table rows) (x : α) : x ∈ rows.take limit ↔ x ∈ wanted := by
  have hnodup : rows.Nodup := hrows.1.nodup_iff.mpr htable
  have hwantedIn : wanted.Subperm rows :=
    (List.subperm_of_subset hwanted hin).trans hrows.1.symm.subperm
  by_cases hall : ∀ y ∈ table, y ∈ wanted
  · have hlength : rows.length ≤ limit :=
      (List.subperm_of_subset hnodup fun y hy => hall y (hrows.1.mem_iff.mp hy)).length_le.trans hroom
    rw [List.take_of_length_le hlength]
    exact ⟨fun hx => hall x (hrows.1.mem_iff.mp hx), fun hx => hrows.1.mem_iff.mpr (hin x hx)⟩
  · rw [not_forall₂] at hall
    obtain ⟨y, hy, hne⟩ := hall
    have hlimit := (hother y hy hne).1
    have htake : (rows.take limit).length = wanted.length := by
      rw [List.length_take, hlimit, Nat.min_eq_left hwantedIn.length_le]
    have hsub : ∀ z ∈ rows.take limit, z ∈ wanted := by
      intro z hz
      by_contra hout
      have hall : ∀ x ∈ wanted, x ∈ rows.take limit := by
        intro x hx
        by_contra hlate
        have hxrows : x ∈ rows := hrows.1.mem_iff.mpr (hin x hx)
        rw [← List.take_append_drop limit rows, List.mem_append] at hxrows
        have hle := pairwise_take_drop hrows.2 hz (hxrows.resolve_left hlate)
        have hlt := (hother z (hrows.1.mem_iff.mp (List.mem_of_mem_take hz)) hout).2 x hx
        omega
      have hmore : (z :: wanted).Subperm (rows.take limit) :=
        List.subperm_of_subset (List.nodup_cons.mpr ⟨hout, hwanted⟩) fun w hw =>
          (List.mem_cons.mp hw).elim (fun h => h ▸ hz) (hall w)
      have hle := hmore.length_le
      rw [List.length_cons] at hle
      omega
    have hperm : (rows.take limit).Perm wanted :=
      (List.subperm_of_subset (hnodup.sublist (List.take_sublist _ _)) hsub).perm_of_length_le
        htake.ge
    exact hperm.mem_iff

theorem take_iff_of_sortedBy (hwanted : wanted.Nodup) (htable : table.Nodup)
    (hroom : wanted.length ≤ limit) :
    (∀ rows, SortedBy key table rows → ∀ x, x ∈ rows.take limit ↔ x ∈ wanted) ↔
      (∀ x ∈ wanted, x ∈ table) ∧
        ∀ y ∈ table, y ∉ wanted → limit = wanted.length ∧ ∀ x ∈ wanted, key x < key y := by
  constructor
  · intro hexact
    refine ⟨fun x hx => ?_, fun y hy hne => ?_⟩
    · obtain ⟨rows, hrows⟩ := exists_sortedBy key table
      exact hrows.1.mem_iff.mp (List.mem_of_mem_take ((hexact rows hrows x).mpr hx))
    · obtain ⟨rows, hrows, hfirst⟩ := exists_sortedBy_first key table y
      have hmem := hexact rows hrows
      have hlate : y ∉ rows.take limit := fun h => hne ((hmem y).mp h)
      have hyrows : y ∈ rows := hrows.1.mem_iff.mpr hy
      rw [← List.take_append_drop limit rows, List.mem_append] at hyrows
      have hdrop : y ∈ rows.drop limit := hyrows.resolve_left hlate
      have hnodup : (rows.take limit).Nodup :=
        (hrows.1.nodup_iff.mpr htable).sublist (List.take_sublist _ _)
      have hperm : (rows.take limit).Perm wanted :=
        (List.perm_ext_iff_of_nodup hnodup hwanted).mpr hmem
      refine ⟨?_, fun x hx => ?_⟩
      · have hlong : limit < rows.length := by
          by_contra hshort
          rw [List.drop_of_length_le (Nat.le_of_not_lt hshort)] at hdrop
          exact List.not_mem_nil hdrop
        rw [← hperm.length_eq, List.length_take, Nat.min_eq_left hlong.le]
      · have hxtake : x ∈ rows.take limit := (hmem x).mpr hx
        have hle := pairwise_take_drop hrows.2 hxtake hdrop
        have htie := pairwise_take_drop hfirst hxtake hdrop rfl
        rcases Nat.lt_or_eq_of_le hle with hlt | heq
        · exact hlt
        · exact absurd (htie heq ▸ hx) hne
  · intro ⟨hin, hother⟩ rows hrows
    exact mem_take_of_sortedBy hwanted htable hroom hin hother hrows

end Wanted

section Downwards

variable {key : α → Nat}
variable {rows : List α}
variable {limit bound : Nat}

theorem mem_take_le_of_countP (hrows : rows.Pairwise fun x y => key y ≤ key x)
    (hcount : limit ≤ rows.countP (bound ≤ key ·)) {x : α} (hx : x ∈ rows.take limit) :
    bound ≤ key x := by
  by_contra hlow
  have hdrop : (rows.drop limit).countP (bound ≤ key ·) = 0 := by
    rw [List.countP_eq_zero]
    intro y hy hle
    have hyx := pairwise_take_drop hrows hx hy
    have hle := of_decide_eq_true hle
    omega
  have htake : (rows.take limit).countP (bound ≤ key ·) < (rows.take limit).length := by
    refine lt_of_le_of_ne List.countP_le_length fun heq => ?_
    exact hlow (of_decide_eq_true (List.countP_eq_length.mp heq x hx))
  have hsplit : rows.countP (bound ≤ key ·) =
      (rows.take limit).countP (bound ≤ key ·) + (rows.drop limit).countP (bound ≤ key ·) := by
    rw [← List.countP_append, List.take_append_drop]
  have hlength := List.length_take_le limit rows
  omega

theorem exists_mem_take_lt (hlong : limit ≤ rows.length)
    (hcount : rows.countP (bound ≤ key ·) < limit) : ∃ x ∈ rows.take limit, key x < bound := by
  by_contra hnone
  have hall : ∀ x ∈ rows.take limit, decide (bound ≤ key x) = true := by
    intro x hx
    by_contra hlow
    rw [decide_eq_true_iff, Nat.not_le] at hlow
    exact hnone ⟨x, hx, hlow⟩
  have htake : (rows.take limit).countP (bound ≤ key ·) = limit := by
    rw [List.countP_eq_length.mpr hall, List.length_take, Nat.min_eq_left hlong]
  have hle : (rows.take limit).countP (bound ≤ key ·) ≤ rows.countP (bound ≤ key ·) :=
    (List.take_sublist limit rows).countP_le
  omega

end Downwards

end Lib
end CodebaseMemory
