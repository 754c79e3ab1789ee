import Mathlib.Data.List.Forall2

/-!
# LIKE patterns

A pattern with two wildcards, one for a single character and one for any run of
characters.  All other characters stand for those that count as the same.
-/

namespace CodebaseMemory
namespace Lib

/-!
## Texts as bytes

A text is a list of characters, and its bytes are their UTF-8 encodings.  A byte
below 128 is a character of its own, so that a scan which looks for such bytes
only sees the same in the bytes as in the characters.
-/

def utf8 (text : List Char) : List UInt8 :=
  text.flatMap String.utf8EncodeChar

@[simp] theorem utf8_nil : utf8 [] = [] := rfl

theorem utf8_cons (c : Char) (text : List Char) :
    utf8 (c :: text) = String.utf8EncodeChar c ++ utf8 text :=
  List.flatMap_cons

theorem utf8_append (text text' : List Char) : utf8 (text ++ text') = utf8 text ++ utf8 text' :=
  List.flatMap_append

theorem utf8_injective {text text' : List Char} (h : utf8 text = utf8 text') : text = text' := by
  refine String.ofList_injective (String.toByteArray_inj.mp ?_)
  rw [String.toByteArray_ofList, String.toByteArray_ofList]
  exact congrArg List.toByteArray h

theorem utf8EncodeChar_ascii {c : Char} (hc : c.val.toNat ≤ 127) :
    String.utf8EncodeChar c = [UInt8.ofNat c.val.toNat] :=
  if_pos hc

theorem le_of_mem_utf8EncodeChar {c : Char} (hc : 127 < c.val.toNat) {b : UInt8}
    (hb : b ∈ String.utf8EncodeChar c) : 128 ≤ b.toNat := by
  have hbyte : ∀ n, 128 ≤ n → n < 256 → 128 ≤ (UInt8.ofNat n).toNat := by
    intro n hlow hhigh
    rw [UInt8.toNat_ofNat', Nat.mod_eq_of_lt hhigh]
    exact hlow
  rw [String.utf8EncodeChar] at hb
  rw [if_neg (by omega)] at hb
  split at hb
  · simp only [List.mem_cons, List.not_mem_nil, or_false] at hb
    rcases hb with rfl | rfl <;> exact hbyte _ (by omega) (by omega)
  · split at hb
    · simp only [List.mem_cons, List.not_mem_nil, or_false] at hb
      rcases hb with rfl | rfl | rfl <;> exact hbyte _ (by omega) (by omega)
    · simp only [List.mem_cons, List.not_mem_nil, or_false] at hb
      rcases hb with rfl | rfl | rfl | rfl <;> exact hbyte _ (by omega) (by omega)

theorem mem_utf8EncodeChar {a c : Char} (ha : a.val.toNat ≤ 127)
    (hmem : UInt8.ofNat a.val.toNat ∈ String.utf8EncodeChar c) : c = a := by
  have ha8 : (UInt8.ofNat a.val.toNat).toNat = a.val.toNat := by
    rw [UInt8.toNat_ofNat', Nat.mod_eq_of_lt (by omega)]
  by_cases hc : c.val.toNat ≤ 127
  · rw [utf8EncodeChar_ascii hc, List.mem_singleton] at hmem
    have hc8 : (UInt8.ofNat c.val.toNat).toNat = c.val.toNat := by
      rw [UInt8.toNat_ofNat', Nat.mod_eq_of_lt (by omega)]
    have heq := congrArg UInt8.toNat hmem
    rw [ha8, hc8] at heq
    exact Char.ext (UInt32.toNat_inj.mp heq.symm)
  · have hle := le_of_mem_utf8EncodeChar (by omega) hmem
    omega

universe u

variable {α : Type u}

/-- A text satisfies a LIKE pattern. -/
inductive Like (same : α → α → Prop) (one many : α) : List α → List α → Prop
  | nil : Like same one many [] []
  | many {pattern text : List α} (run : List α) :
      Like same one many pattern text → Like same one many (many :: pattern) (run ++ text)
  | one {pattern text : List α} (c : α) :
      Like same one many pattern text → Like same one many (one :: pattern) (c :: text)
  | char {pattern text : List α} {c d : α} (hone : c ≠ one) (hmany : c ≠ many) (hsame : same c d) :
      Like same one many pattern text → Like same one many (c :: pattern) (d :: text)

section Like

variable {same : α → α → Prop}
variable {one many : α}

theorem Like.append {pattern text : List α} (h : Like same one many pattern text)
    {pattern' text' : List α} (h' : Like same one many pattern' text') :
    Like same one many (pattern ++ pattern') (text ++ text') := by
  induction h with
  | nil => exact h'
  | many run _ ih =>
      rw [List.cons_append, List.append_assoc]
      exact .many run ih
  | one c _ ih => exact .one c ih
  | char hone hmany hsame _ ih => exact .char hone hmany hsame ih

theorem Like.of_append {pattern pattern' : List α} :
    ∀ {text : List α}, Like same one many (pattern ++ pattern') text →
      ∃ left right, text = left ++ right ∧ Like same one many pattern left ∧
        Like same one many pattern' right := by
  induction pattern with
  | nil =>
      intro text h
      exact ⟨[], text, rfl, .nil, h⟩
  | cons c pattern ih =>
      intro text h
      rw [List.cons_append] at h
      cases h with
      | many run h =>
          obtain ⟨left, right, rfl, hleft, hright⟩ := ih h
          exact ⟨run ++ left, right, (List.append_assoc _ _ _).symm, .many run hleft, hright⟩
      | one d h =>
          obtain ⟨left, right, rfl, hleft, hright⟩ := ih h
          exact ⟨d :: left, right, rfl, .one d hleft, hright⟩
      | char hone hmany hsame h =>
          obtain ⟨left, right, rfl, hleft, hright⟩ := ih h
          exact ⟨_ :: left, right, rfl, .char hone hmany hsame hleft, hright⟩

theorem like_many (run : List α) : Like same one many [many] run := by
  have h : Like same one many [many] (run ++ []) := .many run .nil
  rwa [List.append_nil] at h

theorem like_self (hrefl : ∀ c, same c c) (text : List α) : Like same one many text text := by
  induction text with
  | nil => exact .nil
  | cons c text ih =>
      by_cases hone : c = one
      · rw [hone]
        exact .one one ih
      · by_cases hmany : c = many
        · rw [hmany]
          exact .many [many] ih
        · exact .char hone hmany (hrefl c) ih

theorem like_literal_iff {pattern : List α} (hone : one ∉ pattern) (hmany : many ∉ pattern) :
    ∀ {text : List α}, Like same one many pattern text ↔ List.Forall₂ same pattern text := by
  induction pattern with
  | nil =>
      intro text
      rw [List.forall₂_nil_left_iff]
      constructor
      · intro h
        cases h
        rfl
      · rintro rfl
        exact .nil
  | cons c pattern ih =>
      rw [List.mem_cons, not_or] at hone hmany
      intro text
      constructor
      · intro h
        cases h with
        | many run h => exact absurd rfl hmany.1
        | one d h => exact absurd rfl hone.1
        | char _ _ hsame h => exact .cons hsame ((ih hone.2 hmany.2).mp h)
      · intro h
        cases h with
        | cons hsame h =>
            exact .char (Ne.symm hone.1) (Ne.symm hmany.1) hsame ((ih hone.2 hmany.2).mpr h)

end Like

end Lib
end CodebaseMemory
