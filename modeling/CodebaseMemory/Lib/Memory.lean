import Mathlib.Data.List.Basic
import Mathlib.Data.List.GetD
import Mathlib.Tactic.Ring

/-!
# Byte memory

A region of memory is a function from byte offsets to bytes.  This module
gives the two operations a page writer performs on such a region (copying a
byte string into it, reading a byte string out of it), the big-endian codec,
and the predicate `Holds m off bs`: the bytes of `bs` stand in `m` from
offset `off` on.

Every later layout argument is a chain of `Holds` facts: a copy establishes
one (`holds_memcpy`) and preserves those it does not overlap
(`Holds.memcpy`).
-/

namespace CodebaseMemory
namespace Lib

/-- A region of memory, addressed from its first byte. -/
abbrev Memory := Nat → UInt8

namespace Memory

/-- The region that begins `off` bytes into `m`. -/
def shift (m : Memory) (off : Nat) : Memory :=
  fun i => m (off + i)

/-- A region of zero bytes. -/
def zero : Memory :=
  fun _ => 0

/-- Copy the byte string `bs` to offset `off`. -/
def memcpy (m : Memory) (off : Nat) (bs : List UInt8) : Memory :=
  fun i => if off ≤ i ∧ i < off + bs.length then bs.getD (i - off) 0 else m i

/-- The `n` bytes that stand from offset `off` on. -/
def bytes (m : Memory) (off n : Nat) : List UInt8 :=
  (List.range n).map (fun i => m (off + i))

/-- The byte string `bs` stands in `m` from offset `off` on. -/
def Holds (m : Memory) (off : Nat) (bs : List UInt8) : Prop :=
  m.bytes off bs.length = bs

@[simp] theorem shift_apply (m : Memory) (off i : Nat) :
    m.shift off i = m (off + i) := rfl

@[simp] theorem shift_zero (m : Memory) : m.shift 0 = m := by
  funext i
  simp

@[simp] theorem length_bytes (m : Memory) (off n : Nat) :
    (m.bytes off n).length = n := by
  simp [bytes]

theorem bytes_shift (m : Memory) (a off n : Nat) :
    (m.shift a).bytes off n = m.bytes (a + off) n := by
  simp [bytes, Nat.add_assoc]

theorem bytes_add (m : Memory) (off a b : Nat) :
    m.bytes off (a + b) = m.bytes off a ++ m.bytes (off + a) b := by
  simp [bytes, List.range_add, Nat.add_assoc, Function.comp_def]

theorem bytes_congr {m m' : Memory} {off off' n : Nat}
    (h : ∀ i, i < n → m' (off' + i) = m (off + i)) :
    m'.bytes off' n = m.bytes off n := by
  apply List.map_congr_left
  intro i hi
  exact h i (List.mem_range.mp hi)

@[simp] theorem holds_nil (m : Memory) (off : Nat) : m.Holds off [] := rfl

theorem holds_shift (m : Memory) (a off : Nat) (bs : List UInt8) :
    (m.shift a).Holds off bs ↔ m.Holds (a + off) bs := by
  rw [Holds, bytes_shift, Holds]

theorem holds_append (m : Memory) (off : Nat) (as bs : List UInt8) :
    m.Holds off (as ++ bs) ↔ m.Holds off as ∧ m.Holds (off + as.length) bs := by
  simp only [Holds, List.length_append, bytes_add]
  constructor
  · intro h
    exact List.append_inj h (by simp)
  · rintro ⟨ha, hb⟩
    rw [ha, hb]

theorem Holds.left {m : Memory} {off : Nat} {as bs : List UInt8}
    (h : m.Holds off (as ++ bs)) : m.Holds off as :=
  ((holds_append m off as bs).mp h).1

theorem Holds.right {m : Memory} {off : Nat} {as bs : List UInt8}
    (h : m.Holds off (as ++ bs)) : m.Holds (off + as.length) bs :=
  ((holds_append m off as bs).mp h).2

theorem Holds.congr {m m' : Memory} {off off' : Nat} {bs : List UInt8}
    (h : m.Holds off bs) (heq : ∀ i, i < bs.length → m' (off' + i) = m (off + i)) :
    m'.Holds off' bs := by
  rw [Holds, bytes_congr heq]
  exact h

theorem Holds.apply {m : Memory} {off : Nat} {bs : List UInt8} (h : m.Holds off bs)
    {i : Nat} (hi : i < bs.length) : m (off + i) = bs[i] := by
  have hget : (m.bytes off bs.length)[i]? = bs[i]? := by rw [show m.bytes off _ = _ from h]
  rw [List.getElem?_eq_getElem (by simpa using hi), List.getElem?_eq_getElem hi] at hget
  simpa [bytes] using hget

theorem memcpy_apply_inside (m : Memory) (off : Nat) (bs : List UInt8) {i : Nat}
    (hi : i < bs.length) : m.memcpy off bs (off + i) = bs[i] := by
  have hin : off ≤ off + i ∧ off + i < off + bs.length := ⟨by omega, by omega⟩
  simp only [memcpy, if_pos hin]
  rw [Nat.add_sub_cancel_left, List.getD_eq_getElem _ _ hi]

theorem memcpy_apply_outside (m : Memory) (off : Nat) (bs : List UInt8) {i : Nat}
    (h : i < off ∨ off + bs.length ≤ i) : m.memcpy off bs i = m i := by
  have hout : ¬ (off ≤ i ∧ i < off + bs.length) := by omega
  simp only [memcpy, if_neg hout]

theorem holds_memcpy (m : Memory) (off : Nat) (bs : List UInt8) :
    (m.memcpy off bs).Holds off bs := by
  apply List.ext_getElem
  · simp
  · intro i _ hi
    simpa [bytes] using memcpy_apply_inside m off bs hi

theorem Holds.memcpy {m : Memory} {o : Nat} {cs : List UInt8} (h : m.Holds o cs)
    (off : Nat) (bs : List UInt8)
    (hd : o + cs.length ≤ off ∨ off + bs.length ≤ o) :
    (m.memcpy off bs).Holds o cs := by
  apply h.congr
  intro i hi
  exact memcpy_apply_outside m off bs (by omega)

end Memory

/-- Big-endian bytes of `v`, cut to `w` bytes. -/
def bigEndian : Nat → Nat → List UInt8
  | 0, _ => []
  | w + 1, v => bigEndian w (v / 256) ++ [UInt8.ofNat v]

/-- The number a big-endian byte string spells. -/
def ofBigEndian (bs : List UInt8) : Nat :=
  bs.foldl (fun a b => 256 * a + b.toNat) 0

@[simp] theorem length_bigEndian (w v : Nat) : (bigEndian w v).length = w := by
  induction w generalizing v with
  | zero => rfl
  | succ w ih => simp [bigEndian, ih]

theorem ofBigEndian_bigEndian_mod (w v : Nat) :
    ofBigEndian (bigEndian w v) = v % 256 ^ w := by
  induction w generalizing v with
  | zero =>
      rw [Nat.pow_zero, Nat.mod_one]
      rfl
  | succ w ih =>
      have hlow : (UInt8.ofNat v).toNat = v % 256 := by simp
      have hsnoc : ofBigEndian (bigEndian (w + 1) v) =
          256 * ofBigEndian (bigEndian w (v / 256)) + (UInt8.ofNat v).toNat := by
        simp [ofBigEndian, bigEndian]
      rw [hsnoc, ih, hlow, Nat.pow_succ, Nat.mul_comm (256 ^ w) 256, Nat.mod_mul]
      omega

/-- The number spelled by the `w` bytes at offset `off`. -/
def Memory.getBe (m : Memory) (off w : Nat) : Nat :=
  ofBigEndian (m.bytes off w)

theorem Memory.Holds.getBe_eq_mod {m : Memory} {off w v : Nat}
    (h : m.Holds off (bigEndian w v)) : m.getBe off w = v % 256 ^ w := by
  have hb : m.bytes off w = bigEndian w v := by
    simpa [Memory.Holds] using h
  rw [Memory.getBe, hb, ofBigEndian_bigEndian_mod]

theorem Memory.Holds.getBe_eq {m : Memory} {off w v : Nat}
    (h : m.Holds off (bigEndian w v)) (hv : v < 256 ^ w) : m.getBe off w = v := by
  rw [h.getBe_eq_mod, Nat.mod_eq_of_lt hv]

end Lib
end CodebaseMemory
