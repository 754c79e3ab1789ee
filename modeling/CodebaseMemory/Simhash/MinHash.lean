import CodebaseMemory.Sqlite.Record
import Mathlib.Data.List.Induction
import Mathlib.Data.List.TakeWhile

/-!
# Fingerprints as text (`src/simhash/minhash.c`)

`cbm_minhash_to_hex` prints each value with eight digits, and `cbm_minhash_from_hex`
reads eight bytes a value with `strtoul`, which also takes white space, a sign and `0x`,
and stops where no digit is.
-/

namespace CodebaseMemory
namespace Simhash

open Sqlite (CStr bytesOf)

def cbmMinhashK : Nat := 64

def hexCharsPerU32 : Nat := 8

def cbmMinhashHexLen : Nat := 512

/-- `cbm_minhash_t`. -/
structure Minhash where
  values : List UInt32
  length : values.length = cbmMinhashK

def hexDigit (d : Nat) : UInt8 :=
  if d < 10 then UInt8.ofNat (48 + d) else UInt8.ofNat (87 + d)

/-- The last `n` hex digits of a number. -/
def hexDigits : Nat → Nat → CStr
  | 0, _ => []
  | n + 1, v => hexDigits n (v / 16) ++ [hexDigit (v % 16)]

/-- `snprintf` with `%08x`. -/
def hexOfU32 (v : UInt32) : CStr :=
  hexDigits hexCharsPerU32 v.toNat

/-- `cbm_minhash_to_hex`, with room for the text. -/
def cbmMinhashToHex (fp : Minhash) : CStr :=
  fp.values.flatMap hexOfU32

def isSpace (c : UInt8) : Bool :=
  c = 32 || (9 ≤ c && c ≤ 13)

def hexValue (c : UInt8) : Option Nat :=
  if 48 ≤ c ∧ c ≤ 57 then some (c.toNat - 48)
  else if 97 ≤ c ∧ c ≤ 102 then some (c.toNat - 87)
  else if 65 ≤ c ∧ c ≤ 70 then some (c.toNat - 55)
  else none

/-- `isxdigit` -/
def isHexDigit (c : UInt8) : Bool :=
  (hexValue c).isSome

/-- What stands behind a sign, and whether it is a minus. -/
def takeSign : CStr → Bool × CStr
  | 45 :: s => (true, s)
  | 43 :: s => (false, s)
  | s => (false, s)

/-- `0x` is passed over if a digit stands behind it. -/
def skipHexPrefix : CStr → CStr
  | 48 :: x :: d :: s => if (x = 120 ∨ x = 88) ∧ isHexDigit d then d :: s else 48 :: x :: d :: s
  | s => s

def hexNumber (digits : CStr) : Nat :=
  digits.foldl (fun v c => 16 * v + (hexValue c).getD 0) 0

/-- `strtoul(s, NULL, 16)` -/
def strtoulHex (s : CStr) : Nat :=
  let signed := takeSign (s.dropWhile isSpace)
  let v := hexNumber ((skipHexPrefix signed.2).takeWhile isHexDigit)
  if 2 ^ 64 ≤ v then 2 ^ 64 - 1 else if signed.1 then (2 ^ 64 - v) % 2 ^ 64 else v

def hexChunks (hex : CStr) : List CStr :=
  (List.range cbmMinhashK).map fun i => (hex.drop (i * hexCharsPerU32)).take hexCharsPerU32

def cbmMinhashFromHex (hex : CStr) : Option Minhash :=
  if hex.length % 2 ^ 32 = cbmMinhashHexLen then
    some
      { values := (hexChunks hex).map fun chunk => UInt32.ofNat (strtoulHex chunk)
        length := by rw [List.length_map, hexChunks, List.length_map, List.length_range] }
  else none

theorem hexValue_hexDigit {d : Nat} (h : d < 16) : hexValue (hexDigit d) = some d := by
  have hall : ∀ d ∈ List.range 16, hexValue (hexDigit d) = some d := by decide
  exact hall d (List.mem_range.mpr h)

theorem length_hexDigits (n v : Nat) : (hexDigits n v).length = n := by
  induction n generalizing v with
  | zero => rfl
  | succ n ih => rw [hexDigits, List.length_append, ih, List.length_singleton]

theorem isHexDigit_hexDigits (n v : Nat) : ∀ c ∈ hexDigits n v, isHexDigit c = true := by
  induction n generalizing v with
  | zero => exact fun c hc => absurd hc List.not_mem_nil
  | succ n ih =>
      rw [hexDigits]
      refine List.forall_mem_append.mpr ⟨ih (v / 16), fun c hc => ?_⟩
      rw [List.mem_singleton.mp hc, isHexDigit, hexValue_hexDigit (Nat.mod_lt v (by omega))]
      rfl

theorem hexNumber_concat (s : CStr) (c : UInt8) :
    hexNumber (s ++ [c]) = 16 * hexNumber s + (hexValue c).getD 0 := by
  rw [hexNumber, List.foldl_append]
  rfl

theorem hexNumber_hexDigits (n v : Nat) : hexNumber (hexDigits n v) = v % 16 ^ n := by
  induction n generalizing v with
  | zero => rw [Nat.pow_zero, Nat.mod_one]; rfl
  | succ n ih =>
      rw [hexDigits, hexNumber_concat, ih, hexValue_hexDigit (Nat.mod_lt v (by omega)),
        Option.getD_some, Nat.pow_succ', Nat.mod_mul]
      omega

theorem isHexDigit_iff (c : UInt8) :
    isHexDigit c = true ↔ 48 ≤ c ∧ c ≤ 57 ∨ 97 ≤ c ∧ c ≤ 102 ∨ 65 ≤ c ∧ c ≤ 70 := by
  rw [isHexDigit, hexValue]
  split_ifs <;> simp_all

theorem ne_of_isHexDigit {c : UInt8} (h : isHexDigit c = true) :
    isSpace c = false ∧ c ≠ 45 ∧ c ≠ 43 ∧ c ≠ 120 ∧ c ≠ 88 := by
  have hrange := (isHexDigit_iff c).mp h
  simp only [isSpace, ne_eq, ← UInt8.toNat_inj, UInt8.le_iff_toNat_le, Bool.or_eq_false_iff,
    Bool.and_eq_false_iff, decide_eq_false_iff_not] at hrange ⊢
  simp only [UInt8.reduceToNat] at hrange ⊢
  omega

variable {s : CStr}

theorem takeSign_of_digits (h : ∀ c ∈ s, isHexDigit c = true) : takeSign s = (false, s) := by
  cases s with
  | nil => rfl
  | cons c s =>
      obtain ⟨_, hminus, hplus, _⟩ := ne_of_isHexDigit (h c List.mem_cons_self)
      rw [takeSign]
      · simpa using hminus
      · simpa using hplus

theorem skipHexPrefix_of_digits (h : ∀ c ∈ s, isHexDigit c = true) : skipHexPrefix s = s := by
  unfold skipHexPrefix
  split
  · next x d s =>
      obtain ⟨_, _, _, hx, hx'⟩ := ne_of_isHexDigit
        (h x (List.mem_cons_of_mem _ List.mem_cons_self))
      rw [if_neg fun hand => hand.1.elim hx hx']
  · rfl

theorem strtoulHex_of_digits (h : ∀ c ∈ s, isHexDigit c = true) (hlt : hexNumber s < 2 ^ 64) :
    strtoulHex s = hexNumber s := by
  have hspace : s.dropWhile isSpace = s := by
    cases s with
    | nil => rfl
    | cons c s =>
        have hc := (ne_of_isHexDigit (h c List.mem_cons_self)).1
        rw [List.dropWhile_cons_of_neg (by rw [hc]; exact Bool.false_ne_true)]
  have hdigits : s.takeWhile isHexDigit = s := List.takeWhile_eq_self_iff.mpr h
  rw [strtoulHex, hspace, takeSign_of_digits h]
  dsimp only
  rw [skipHexPrefix_of_digits h, hdigits, if_neg (by omega), if_neg Bool.false_ne_true]

theorem length_hexOfU32 (v : UInt32) : (hexOfU32 v).length = hexCharsPerU32 :=
  length_hexDigits _ _

theorem chunk_flatMap {f : UInt32 → CStr} (hf : ∀ v, (f v).length = hexCharsPerU32)
    (vs : List UInt32) {i : Nat} (hi : i < vs.length) :
    ((vs.flatMap f).drop (i * hexCharsPerU32)).take hexCharsPerU32 = f vs[i] := by
  induction vs generalizing i with
  | nil => exact absurd hi (Nat.not_lt_zero i)
  | cons v vs ih =>
      rw [List.flatMap_cons]
      cases i with
      | zero =>
          rw [Nat.zero_mul, List.drop_zero, List.take_append_of_le_length (hf v).ge,
            List.take_of_length_le (hf v).le]
          rfl
      | succ i =>
          have hdrop : (i + 1) * hexCharsPerU32 = (f v).length + i * hexCharsPerU32 := by
            rw [hf]
            ring
          rw [hdrop, List.drop_length_add_append]
          exact ih (Nat.lt_of_succ_lt_succ hi)

theorem length_cbmMinhashToHex (fp : Minhash) :
    (cbmMinhashToHex fp).length = cbmMinhashHexLen := by
  have hsum : ∀ vs : List UInt32, (vs.flatMap hexOfU32).length = vs.length * hexCharsPerU32 := by
    intro vs
    induction vs with
    | nil => rfl
    | cons v vs ih =>
        rw [List.flatMap_cons, List.length_append, ih, length_hexOfU32, List.length_cons]
        ring
  rw [cbmMinhashToHex, hsum, fp.length]
  rfl

theorem strtoulHex_hexOfU32 (v : UInt32) : UInt32.ofNat (strtoulHex (hexOfU32 v)) = v := by
  have hnumber : hexNumber (hexOfU32 v) = v.toNat := by
    rw [hexOfU32, hexNumber_hexDigits]
    exact Nat.mod_eq_of_lt v.toNat_lt
  have hlt := v.toNat_lt
  have hdigits : ∀ c ∈ hexOfU32 v, isHexDigit c = true := isHexDigit_hexDigits _ _
  rw [strtoulHex_of_digits hdigits (by rw [hnumber]; omega), hnumber, UInt32.ofNat_toNat]

theorem cbmMinhashFromHex_toHex (fp : Minhash) :
    cbmMinhashFromHex (cbmMinhashToHex fp) = some fp := by
  have hlength := length_cbmMinhashToHex fp
  rw [cbmMinhashFromHex, if_pos (by rw [hlength]; rfl)]
  obtain ⟨vs, hvs⟩ := fp
  congr 2
  refine List.ext_getElem (by simp [hexChunks, hvs]) fun i hi hi' => ?_
  simp only [hexChunks, List.getElem_map, List.getElem_range]
  rw [cbmMinhashToHex, chunk_flatMap length_hexOfU32 vs hi', strtoulHex_hexOfU32]

def toLower (c : UInt8) : UInt8 :=
  if 65 ≤ c ∧ c ≤ 90 then c + 32 else c

theorem hexDigit_value {c : UInt8} (h : isHexDigit c = true) :
    hexDigit ((hexValue c).getD 0) = toLower c ∧ (hexValue c).getD 0 < 16 := by
  have hall : ∀ n ∈ List.range' 48 55, isHexDigit (UInt8.ofNat n) = true →
      hexDigit ((hexValue (UInt8.ofNat n)).getD 0) = toLower (UInt8.ofNat n) ∧
        (hexValue (UInt8.ofNat n)).getD 0 < 16 := by
    decide
  have hrange := (isHexDigit_iff c).mp h
  simp only [UInt8.le_iff_toNat_le, UInt8.reduceToNat] at hrange
  have hc := hall c.toNat (List.mem_range'_1.mpr (by omega))
  rw [UInt8.ofNat_toNat] at hc
  exact hc h

theorem hexNumber_lt (h : ∀ c ∈ s, isHexDigit c = true) : hexNumber s < 16 ^ s.length := by
  induction s using List.reverseRecOn with
  | nil => exact Nat.one_pos
  | append_singleton s c ih =>
      have hs := ih fun x hx => h x (List.mem_append_left _ hx)
      have hc := (hexDigit_value (h c (List.mem_append_right _ List.mem_cons_self))).2
      rw [hexNumber_concat, List.length_append, List.length_singleton, Nat.pow_succ']
      omega

theorem hexDigits_hexNumber (h : ∀ c ∈ s, isHexDigit c = true) :
    hexDigits s.length (hexNumber s) = s.map toLower := by
  induction s using List.reverseRecOn with
  | nil => rfl
  | append_singleton s c ih =>
      have hs := ih fun x hx => h x (List.mem_append_left _ hx)
      obtain ⟨hdigit, hlt⟩ :=
        hexDigit_value (h c (List.mem_append_right _ List.mem_cons_self))
      have hdiv : (16 * hexNumber s + (hexValue c).getD 0) / 16 = hexNumber s := by omega
      have hmod : (16 * hexNumber s + (hexValue c).getD 0) % 16 = (hexValue c).getD 0 := by omega
      rw [List.length_append, List.length_singleton, hexDigits, hexNumber_concat, hdiv, hmod, hs,
        hdigit, List.map_append, List.map_singleton]

theorem hexOfU32_strtoulHex (h : ∀ c ∈ s, isHexDigit c = true)
    (hlength : s.length = hexCharsPerU32) :
    hexOfU32 (UInt32.ofNat (strtoulHex s)) = s.map toLower := by
  have hlt := hexNumber_lt h
  rw [hlength, hexCharsPerU32] at hlt
  have hvalue : (UInt32.ofNat (hexNumber s)).toNat = hexNumber s := by
    rw [UInt32.toNat_ofNat']
    exact Nat.mod_eq_of_lt (by omega)
  rw [strtoulHex_of_digits h (by omega), hexOfU32, hvalue, ← hlength, hexDigits_hexNumber h]

theorem flatMap_chunks (s : CStr) (n : Nat) :
    (List.range n).flatMap (fun i => (s.drop (i * hexCharsPerU32)).take hexCharsPerU32) =
      s.take (n * hexCharsPerU32) := by
  induction n with
  | zero => rw [Nat.zero_mul, List.take_zero]; rfl
  | succ n ih =>
      rw [List.range_succ, List.flatMap_append, ih, List.flatMap_singleton, Nat.succ_mul,
        List.take_add]

theorem toHex_fromHex {fp : Minhash} (hlength : s.length = cbmMinhashHexLen)
    (h : ∀ c ∈ s, isHexDigit c = true) (hfp : cbmMinhashFromHex s = some fp) :
    cbmMinhashToHex fp = s.map toLower := by
  rw [cbmMinhashFromHex, if_pos (by rw [hlength]; rfl)] at hfp
  obtain rfl := Option.some.inj hfp
  have hchunk : ∀ i ∈ List.range cbmMinhashK,
      hexOfU32 (UInt32.ofNat (strtoulHex ((s.drop (i * hexCharsPerU32)).take hexCharsPerU32))) =
        ((s.drop (i * hexCharsPerU32)).take hexCharsPerU32).map toLower := by
    intro i hi
    rw [List.mem_range, cbmMinhashK] at hi
    refine hexOfU32_strtoulHex (fun c hc => ?_) ?_
    · exact h c (List.mem_of_mem_drop (List.mem_of_mem_take hc))
    · rw [List.length_take, List.length_drop, hlength, cbmMinhashHexLen, hexCharsPerU32]
      omega
  simp only [cbmMinhashToHex, hexChunks, List.flatMap_map]
  rw [List.flatMap_congr hchunk, ← List.map_flatMap, flatMap_chunks,
    List.take_of_length_le (by rw [hlength]; decide)]

/-- What is read is 512 hex digits, and it is printed as they were, up to letter case. -/
def ReadsOnlyHex (s : CStr) : Prop :=
  ∀ fp, cbmMinhashFromHex s = some fp →
    s.length = cbmMinhashHexLen ∧ (∀ c ∈ s, isHexDigit c = true) ∧
      cbmMinhashToHex fp = s.map toLower

/-- Fingerprints are read back; a text that is read is hex digits if and only if its length,
as an int, is not 512, or it is 512 hex digits. -/
theorem hex_codec (fp : Minhash) (s : CStr) :
    cbmMinhashFromHex (cbmMinhashToHex fp) = some fp ∧
      (ReadsOnlyHex s ↔ (s.length % 2 ^ 32 = cbmMinhashHexLen →
        s.length = cbmMinhashHexLen ∧ ∀ c ∈ s, isHexDigit c = true)) := by
  refine ⟨cbmMinhashFromHex_toHex fp, fun h hlength => ?_, fun h fp hfp => ?_⟩
  · obtain ⟨hexact, hdigits, _⟩ := h _ (if_pos hlength)
    exact ⟨hexact, hdigits⟩
  · have hlength : s.length % 2 ^ 32 = cbmMinhashHexLen := by
      by_contra hno
      rw [cbmMinhashFromHex, if_neg hno] at hfp
      exact absurd hfp (by simp)
    obtain ⟨hexact, hdigits⟩ := h hlength
    exact ⟨hexact, hdigits, toHex_fromHex hexact hdigits hfp⟩

/-- 512 times the letter z are read as zeros. -/
theorem not_readsOnlyHex : ¬ ReadsOnlyHex (List.replicate 512 122) := by
  intro h
  have hlength : (List.replicate 512 (122 : UInt8)).length % 2 ^ 32 = cbmMinhashHexLen := by
    rw [List.length_replicate]
    rfl
  obtain ⟨_, hdigits, _⟩ := h _ (if_pos hlength)
  have hz := hdigits 122 (List.mem_replicate.mpr ⟨by decide, rfl⟩)
  exact absurd hz (by decide)

end Simhash
end CodebaseMemory
