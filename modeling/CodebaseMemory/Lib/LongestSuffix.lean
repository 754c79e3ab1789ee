import Mathlib.Data.List.Infix

/-!
# Longest suffixes in a set of words

For a set of words that holds the empty one, `longestSuffix W u` is the longest
suffix of `u` in `W`.  If with each word its prefixes are in `W`, it can be
computed from left to right: the longest suffix of `u ++ [c]` is that of the
longest suffix of `u` followed by `c`.  This is what string matching automata
rest on.
-/

namespace CodebaseMemory
namespace Lib

universe u

section LongestSuffix

variable {α : Type u} [DecidableEq α] (W : List (List α))

/-- The longest suffix that is in `W`, or the empty one. -/
def longestSuffix : List α → List α
  | [] => []
  | a :: u => if a :: u ∈ W then a :: u else longestSuffix u

/-- `W` holds the empty word and the prefixes of its words. -/
structure PrefixClosed : Prop where
  nil_mem : [] ∈ W
  of_append : ∀ w c, w ++ [c] ∈ W → w ∈ W

variable {W}

theorem longestSuffix_suffix (u : List α) : longestSuffix W u <:+ u := by
  induction u with
  | nil => exact List.suffix_rfl
  | cons a u ih =>
      rw [longestSuffix]
      split
      · exact List.suffix_rfl
      · exact ih.trans (List.suffix_cons a u)

theorem longestSuffix_mem (hnil : [] ∈ W) (u : List α) : longestSuffix W u ∈ W := by
  induction u with
  | nil => exact hnil
  | cons a u ih =>
      rw [longestSuffix]
      split
      · assumption
      · exact ih

theorem longestSuffix_of_mem {u : List α} (hu : u ∈ W) : longestSuffix W u = u := by
  cases u with
  | nil => rfl
  | cons a u => rw [longestSuffix, if_pos hu]

theorem longestSuffix_of_notMem {u : List α} (hu : u ∉ W) :
    longestSuffix W u = longestSuffix W u.tail := by
  cases u with
  | nil => rfl
  | cons a u => rw [longestSuffix, if_neg hu, List.tail_cons]

theorem suffix_longestSuffix_iff {x u : List α} (hx : x ∈ W) :
    x <:+ longestSuffix W u ↔ x <:+ u := by
  constructor
  · exact fun h => h.trans (longestSuffix_suffix u)
  · induction u with
    | nil => exact id
    | cons a u ih =>
        intro h
        rw [longestSuffix]
        split
        · exact h
        · next hnot =>
            rcases List.suffix_cons_iff.mp h with rfl | htail
            · exact absurd hx hnot
            · exact ih htail

theorem suffix_append_singleton_iff (hW : PrefixClosed W) {x u : List α} {c : α} (hx : x ∈ W) :
    x <:+ longestSuffix W u ++ [c] ↔ x <:+ u ++ [c] := by
  rw [List.suffix_concat_iff, List.suffix_concat_iff]
  constructor
  · rintro (rfl | ⟨y, rfl, hy⟩)
    · exact Or.inl rfl
    · exact Or.inr ⟨y, rfl, (suffix_longestSuffix_iff (hW.of_append y c hx)).mp hy⟩
  · rintro (rfl | ⟨y, rfl, hy⟩)
    · exact Or.inl rfl
    · exact Or.inr ⟨y, rfl, (suffix_longestSuffix_iff (hW.of_append y c hx)).mpr hy⟩

theorem longestSuffix_append_singleton (hW : PrefixClosed W) (u : List α) (c : α) :
    longestSuffix W (u ++ [c]) = longestSuffix W (longestSuffix W u ++ [c]) := by
  have hmem := longestSuffix_mem hW.nil_mem (u ++ [c])
  have hmem' := longestSuffix_mem hW.nil_mem (longestSuffix W u ++ [c])
  have hle : longestSuffix W (u ++ [c]) <:+ longestSuffix W (longestSuffix W u ++ [c]) := by
    rw [suffix_longestSuffix_iff hmem, suffix_append_singleton_iff hW hmem]
    exact longestSuffix_suffix _
  have hge : longestSuffix W (longestSuffix W u ++ [c]) <:+ longestSuffix W (u ++ [c]) := by
    rw [suffix_longestSuffix_iff hmem', ← suffix_append_singleton_iff hW hmem']
    exact longestSuffix_suffix _
  exact hle.eq_of_length (Nat.le_antisymm hle.length_le hge.length_le)

end LongestSuffix

end Lib
end CodebaseMemory
