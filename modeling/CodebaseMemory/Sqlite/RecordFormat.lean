import CodebaseMemory.Sqlite.Record

/-!
# The record format

What SQLite reads in a record: a varint with the size of the header, itself
included, then one serial type for each column up to the end of the header, then
the values one after another.

Serial types: 0 is NULL, 1 to 6 are big-endian two's-complement integers of 1, 2,
3, 4, 6 and 8 bytes, 8 and 9 are the integers 0 and 1, `2 n + 12` is a blob and
`2 n + 13` a text of `n` bytes.  Floating-point columns (7) are not written and
not read here.

Nothing below looks at the writer.
-/

namespace CodebaseMemory
namespace Sqlite

open Lib

inductive Value
  | null
  | int (i : Int)
  | text (bytes : CStr)
  | blob (bytes : List UInt8)
deriving DecidableEq

def memoryOf (bytes : List UInt8) : Memory :=
  fun i => bytes.getD i 0

/-- The varint at the front of a byte string, and what follows it. -/
def takeVarint (bytes : List UInt8) : Option (Nat × List UInt8) :=
  let r := getVarint (memoryOf bytes)
  if r.2 ≤ bytes.length then some (r.1, bytes.drop r.2) else none

/-- The first `n` bytes, and what follows them. -/
def takeBytes (n : Nat) (bytes : List UInt8) : Option (List UInt8 × List UInt8) :=
  if n ≤ bytes.length then some (bytes.take n, bytes.drop n) else none

/-- The serial types of a header. -/
def readTypes : Nat → List UInt8 → Option (List Nat)
  | _, [] => some []
  | 0, _ :: _ => none
  | fuel + 1, bytes => do
      let (t, rest) ← takeVarint bytes
      let types ← readTypes fuel rest
      return t :: types

/-- The bytes of an integer with one of the serial types 1 to 6. -/
def intWidth (t : Nat) : Option Nat :=
  match t with
  | 1 => some 1
  | 2 => some 2
  | 3 => some 3
  | 4 => some 4
  | 5 => some 6
  | 6 => some 8
  | _ => none

/-- The two's-complement number that a byte string spells. -/
def signedBigEndian (bytes : List UInt8) : Int :=
  let v := ofBigEndian bytes
  if 2 * v < 256 ^ bytes.length then v else (v : Int) - 256 ^ bytes.length

/-- The value of a column, and the bytes of the columns behind it. -/
def readValue (t : Nat) (body : List UInt8) : Option (Value × List UInt8) :=
  if t = 0 then some (.null, body)
  else if t = 8 then some (.int 0, body)
  else if t = 9 then some (.int 1, body)
  else if 12 ≤ t then do
    let (bytes, rest) ← takeBytes ((t - 12) / 2) body
    return (if t % 2 = 0 then .blob bytes else .text bytes, rest)
  else do
    let width ← intWidth t
    let (bytes, rest) ← takeBytes width body
    return (.int (signedBigEndian bytes), rest)

def readValues : List Nat → List UInt8 → Option (List Value)
  | [], _ => some []
  | t :: types, body => do
      let (v, rest) ← readValue t body
      let vs ← readValues types rest
      return v :: vs

def decodeRecord (bytes : List UInt8) : Option (List Value) := do
  let (headerSize, rest) ← takeVarint bytes
  if headerSize ≤ bytes.length then
    let header := rest.take (headerSize - (bytes.length - rest.length))
    let types ← readTypes header.length header
    readValues types (bytes.drop headerSize)
  else none

theorem holds_memoryOf (bytes rest : List UInt8) : (memoryOf (bytes ++ rest)).Holds 0 bytes := by
  refine List.ext_getElem (by simp) fun i hi hi' => ?_
  simp only [Memory.bytes, List.getElem_map, List.getElem_range, Nat.zero_add, memoryOf]
  rw [List.getD_append _ _ _ _ hi', List.getD_eq_getElem _ _ hi']

theorem takeVarint_putVarint {value : Int} (hv : toU64 value < 2 ^ 56) (rest : List UInt8) :
    takeVarint (putVarint value ++ rest) = some (toU64 value, rest) := by
  have hread := getVarint_putVarint hv (holds_memoryOf (putVarint value) rest)
  rw [Memory.shift_zero] at hread
  rw [takeVarint, hread]
  simp

theorem takeBytes_append (bytes rest : List UInt8) :
    takeBytes bytes.length (bytes ++ rest) = some (bytes, rest) := by
  simp [takeBytes]

theorem signedBigEndian_putIntBe {val : Int} {width : Nat} (hle : width ≤ 8)
    (hlow : -256 ^ width ≤ 2 * val) (hhigh : 2 * val < 256 ^ width) :
    signedBigEndian (putIntBe val width) = val := by
  have hspelled : (ofBigEndian (putIntBe val width) : Int) = val % 256 ^ width := by
    rw [putIntBe, ofBigEndian_bigEndian_mod, toU64]
    have hdvd : ((256 : Int) ^ width) ∣ 2 ^ 64 := by
      rw [show (2 : Int) ^ 64 = 256 ^ 8 by norm_num]
      exact pow_dvd_pow _ hle
    rw [Int.natCast_emod, Int.toNat_of_nonneg (Int.emod_nonneg _ (by norm_num))]
    push_cast
    exact Int.emod_emod_of_dvd val hdvd
  have hpos : (0 : Int) < 256 ^ width := Int.pow_pos (show (0 : Int) < 256 by omega)
  have hlength : (putIntBe val width).length = width := length_bigEndian _ _
  rw [signedBigEndian, hlength]
  by_cases hsign : 0 ≤ val
  · have hval : val % 256 ^ width = val := Int.emod_eq_of_lt hsign (by omega)
    rw [hval] at hspelled
    rw [if_pos, hspelled]
    have : (2 * ofBigEndian (putIntBe val width) : Int) < 256 ^ width := by omega
    exact_mod_cast this
  · have hval : val % 256 ^ width = val + 256 ^ width := by
      rw [← Int.add_emod_right]
      exact Int.emod_eq_of_lt (by omega) (by omega)
    rw [hval] at hspelled
    rw [if_neg, hspelled]
    · omega
    · intro hlt
      have : (2 * ofBigEndian (putIntBe val width) : Int) < 256 ^ width := by exact_mod_cast hlt
      omega

end Sqlite
end CodebaseMemory
