import Mathlib.Data.List.Basic
import Mathlib.Tactic.NormNum

/-!
# Decimal numbers in keys

The decimal spelling of an integer, as `printf("%lld")` has it, and what keys
that are put together from such spellings need: it is injective, has no colon,
and is short for the integers of 64 bits.
-/

namespace CodebaseMemory
namespace Lib

def decimalNat (n : Nat) : List UInt8 :=
  (Nat.toDigits 10 n).map (fun c => UInt8.ofNat c.toNat)

/-- The decimal spelling of an integer, with `-` in front of a negative one. -/
def decimal : Int → List UInt8
  | Int.ofNat n => decimalNat n
  | Int.negSucc n => 45 :: decimalNat (n + 1)

theorem digit_bounds {n : Nat} {c : Char} (hc : c ∈ Nat.toDigits 10 n) :
    48 ≤ c.toNat ∧ c.toNat ≤ 57 := by
  have hdigit := Nat.isDigit_of_mem_toDigits (by decide) (by decide) hc
  simp only [Char.isDigit, ge_iff_le, Bool.and_eq_true, decide_eq_true_eq] at hdigit
  exact ⟨UInt32.le_iff_toNat_le.mp hdigit.1, UInt32.le_iff_toNat_le.mp hdigit.2⟩

theorem byte_bounds {n : Nat} {b : UInt8} (hb : b ∈ decimalNat n) :
    48 ≤ b.toNat ∧ b.toNat ≤ 57 := by
  obtain ⟨c, hc, rfl⟩ := List.mem_map.mp hb
  have hbounds := digit_bounds hc
  have hbyte : (UInt8.ofNat c.toNat).toNat = c.toNat := by
    simp only [UInt8.toNat_ofNat']
    omega
  rw [hbyte]
  exact hbounds

theorem decimalNat_injective {m n : Nat} (h : decimalNat m = decimalNat n) : m = n := by
  have hdigits : Nat.toDigits 10 m = Nat.toDigits 10 n := by
    have hlen : (Nat.toDigits 10 m).length = (Nat.toDigits 10 n).length := by
      simpa [decimalNat] using congrArg List.length h
    apply List.ext_getElem hlen
    intro i him hin
    have hbyte := List.getElem_of_eq h (i := i) (by simpa [decimalNat] using him)
    simp only [decimalNat, List.getElem_map] at hbyte
    have hm := digit_bounds (List.getElem_mem him)
    have hn := digit_bounds (List.getElem_mem hin)
    have hnat := congrArg UInt8.toNat hbyte
    simp only [UInt8.toNat_ofNat'] at hnat
    exact Char.toNat_inj.mp (by omega)
  have hvalue := congrArg (fun ds => Nat.ofDigitChars 10 ds 0) hdigits
  simpa using hvalue

theorem decimalNat_ne_cons_minus (n : Nat) (bs : List UInt8) : decimalNat n ≠ 45 :: bs := by
  intro h
  have hmem : (45 : UInt8) ∈ decimalNat n := by
    rw [h]
    exact List.mem_cons_self
  have hbounds := byte_bounds hmem
  exact absurd hbounds.1 (by decide)

theorem decimal_injective {i j : Int} (h : decimal i = decimal j) : i = j := by
  cases i with
  | ofNat m =>
      cases j with
      | ofNat n => exact congrArg Int.ofNat (decimalNat_injective h)
      | negSucc n => exact absurd h (decimalNat_ne_cons_minus m _)
  | negSucc m =>
      cases j with
      | ofNat n => exact absurd h.symm (decimalNat_ne_cons_minus n _)
      | negSucc n =>
          have htail := decimalNat_injective (List.cons.inj h).2
          exact congrArg Int.negSucc (by omega)

theorem colon_not_mem_decimal (i : Int) : (58 : UInt8) ∉ decimal i := by
  have hnat : ∀ n, (58 : UInt8) ∉ decimalNat n := by
    intro n h
    exact absurd (byte_bounds h).2 (by decide)
  cases i with
  | ofNat n => exact hnat n
  | negSucc n =>
      intro h
      rcases List.mem_cons.mp h with h | h
      · exact absurd h (by decide)
      · exact hnat (n + 1) h

def InI64 (i : Int) : Prop :=
  -(2 ^ 63) ≤ i ∧ i < 2 ^ 63

instance (i : Int) : Decidable (InI64 i) :=
  inferInstanceAs (Decidable (_ ∧ _))

theorem length_decimalNat_le {n : Nat} (h : n ≤ 2 ^ 63) : (decimalNat n).length ≤ 19 := by
  rw [decimalNat, List.length_map, Nat.length_toDigits_le_iff (by decide) (by decide)]
  omega

theorem length_decimal_le {i : Int} (h : InI64 i) : (decimal i).length ≤ 20 := by
  obtain ⟨hlo, hhi⟩ := h
  cases i with
  | ofNat n =>
      have hn : n ≤ 2 ^ 63 := by
        have : (n : Int) < 2 ^ 63 := hhi
        omega
      exact le_trans (length_decimalNat_le hn) (by decide)
  | negSucc n =>
      have hn : n + 1 ≤ 2 ^ 63 := by omega
      rw [decimal, List.length_cons]
      exact Nat.succ_le_succ (length_decimalNat_le hn)

theorem append_colon_inj {as bs cs ds : List UInt8} (ha : (58 : UInt8) ∉ as)
    (hb : (58 : UInt8) ∉ bs) (h : as ++ 58 :: cs = bs ++ 58 :: ds) : as = bs ∧ cs = ds := by
  induction as generalizing bs with
  | nil =>
      cases bs with
      | nil => exact ⟨rfl, (List.cons.inj h).2⟩
      | cons b bs =>
          have hcolon := (List.cons.inj h).1
          exact absurd (hcolon ▸ List.mem_cons_self) hb
  | cons a as ih =>
      cases bs with
      | nil =>
          have hcolon := (List.cons.inj h).1
          exact absurd (hcolon ▸ List.mem_cons_self) ha
      | cons b bs =>
          obtain ⟨hab, htail⟩ := List.cons.inj h
          obtain ⟨heq, hrest⟩ := ih (fun hmem => ha (List.mem_cons_of_mem a hmem))
            (fun hmem => hb (List.mem_cons_of_mem b hmem)) htail
          exact ⟨by rw [hab, heq], hrest⟩

/-- The value of the digits that a text begins with, after the value `v`. -/
def digitsValue (v : Nat) : List UInt8 → Nat
  | [] => v
  | b :: rest => if 48 ≤ b ∧ b ≤ 57 then digitsValue (v * 10 + (b.toNat - 48)) rest else v

theorem digitsValue_map (cs : List Char) (hcs : ∀ c ∈ cs, 48 ≤ c.toNat ∧ c.toNat ≤ 57) :
    ∀ v, digitsValue v (cs.map fun c => UInt8.ofNat c.toNat) = Nat.ofDigitChars 10 cs v := by
  induction cs with
  | nil => exact fun v => rfl
  | cons c cs ih =>
    intro v
    have hc := hcs c List.mem_cons_self
    have hbyte : (UInt8.ofNat c.toNat).toNat = c.toNat := by
      simp only [UInt8.toNat_ofNat']
      omega
    have hdigit : (48 : UInt8) ≤ UInt8.ofNat c.toNat ∧ UInt8.ofNat c.toNat ≤ 57 := by
      simp only [UInt8.le_iff_toNat_le, hbyte]
      exact hc
    rw [List.map_cons, digitsValue, if_pos hdigit, hbyte, Nat.ofDigitChars_cons,
      ih (fun c' hc' => hcs c' (List.mem_cons_of_mem _ hc')), Nat.mul_comm]
    rfl

theorem digitsValue_decimalNat (n : Nat) : digitsValue 0 (decimalNat n) = n := by
  rw [decimalNat, digitsValue_map _ (fun c hc => digit_bounds hc)]
  simp

theorem decimalNat_ne_nil (n : Nat) : decimalNat n ≠ [] := by
  simp [decimalNat]

end Lib
end CodebaseMemory
