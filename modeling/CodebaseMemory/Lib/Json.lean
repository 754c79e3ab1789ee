import Mathlib.Data.List.Basic

/-!
# JSON texts (RFC 8259)

JSON values and the reader of a JSON text, over bytes.  A string keeps how it
was spelled between its quotes beside the bytes it stands for, and a number is
kept as it was spelled, so that a value can be printed the way it was read.

The reader is strict: no comments, no trailing commas, no control characters
in strings, and no surrogate without its partner.  `fuel` bounds the calls; a
text of `n` bytes needs at most `2 * n + 2`.
-/

namespace CodebaseMemory
namespace Lib

inductive Json where
  | null
  | bool (b : Bool)
  | num (spelling : List UInt8)
  | str (spelling value : List UInt8)
  | arr (items : List Json)
  | obj (members : List ((List UInt8 × List UInt8) × Json))

namespace Json

/-- The value of the first member with this name; nothing outside objects. -/
def objGet (name : List UInt8) : Json → Option Json
  | .obj members => (members.find? (fun m => m.1.2 = name)).map (·.2)
  | _ => none

def quoted (spelling : List UInt8) : List UInt8 :=
  34 :: spelling ++ [34]

mutual

/-- The text of a value, without white space. -/
def text : Json → List UInt8
  | .null => [110, 117, 108, 108]
  | .bool true => [116, 114, 117, 101]
  | .bool false => [102, 97, 108, 115, 101]
  | .num spelling => spelling
  | .str spelling _ => quoted spelling
  | .arr items => 91 :: itemsText items ++ [93]
  | .obj members => 123 :: membersText members ++ [125]

def itemsText : List Json → List UInt8
  | [] => []
  | [v] => text v
  | v :: vs => text v ++ 44 :: itemsText vs

def membersText : List ((List UInt8 × List UInt8) × Json) → List UInt8
  | [] => []
  | [(name, v)] => quoted name.1 ++ 58 :: text v
  | (name, v) :: ms => quoted name.1 ++ 58 :: text v ++ 44 :: membersText ms

end

/-- The UTF-8 encoding of a code point. -/
def utf8 (c : Nat) : List UInt8 :=
  if c < 0x80 then [UInt8.ofNat c]
  else if c < 0x800 then [UInt8.ofNat (0xC0 + c / 64), UInt8.ofNat (0x80 + c % 64)]
  else if c < 0x10000 then
    [UInt8.ofNat (0xE0 + c / 4096), UInt8.ofNat (0x80 + c / 64 % 64),
      UInt8.ofNat (0x80 + c % 64)]
  else
    [UInt8.ofNat (0xF0 + c / 262144), UInt8.ofNat (0x80 + c / 4096 % 64),
      UInt8.ofNat (0x80 + c / 64 % 64), UInt8.ofNat (0x80 + c % 64)]

def hexDigit (b : UInt8) : Option Nat :=
  if 48 ≤ b ∧ b ≤ 57 then some (b.toNat - 48)
  else if 65 ≤ b ∧ b ≤ 70 then some (b.toNat - 55)
  else if 97 ≤ b ∧ b ≤ 102 then some (b.toNat - 87)
  else none

/-- The code unit that four hexadecimal digits spell. -/
def hex4 (a b c d : UInt8) : Option Nat := do
  return 4096 * (← hexDigit a) + 256 * (← hexDigit b) + 16 * (← hexDigit c) + (← hexDigit d)

def escapedByte (c : UInt8) : Option UInt8 :=
  if c = 34 ∨ c = 92 ∨ c = 47 then some c
  else if c = 98 then some 8
  else if c = 102 then some 12
  else if c = 110 then some 10
  else if c = 114 then some 13
  else if c = 116 then some 9
  else none

/-- The bytes that a string stands for. -/
def unescape : Nat → List UInt8 → Option (List UInt8)
  | _, [] => some []
  | 0, _ :: _ => none
  | fuel + 1, 92 :: 117 :: a :: b :: c :: d :: rest => do
      let u ← hex4 a b c d
      if 0xD800 ≤ u ∧ u < 0xDC00 then
        -- the first half of a pair: the second half has to follow
        match rest with
        | 92 :: 117 :: a' :: b' :: c' :: d' :: rest' =>
            let l ← hex4 a' b' c' d'
            if 0xDC00 ≤ l ∧ l < 0xE000 then
              let tail ← unescape fuel rest'
              return utf8 (0x10000 + (u - 0xD800) * 0x400 + (l - 0xDC00)) ++ tail
            else none
        | _ => none
      else if 0xDC00 ≤ u ∧ u < 0xE000 then none
      else
        let tail ← unescape fuel rest
        return utf8 u ++ tail
  | fuel + 1, 92 :: c :: rest => do
      let b ← escapedByte c
      let tail ← unescape fuel rest
      return b :: tail
  | _ + 1, [92] => none
  | fuel + 1, c :: rest => (unescape fuel rest).map (c :: ·)

/-- The spelling of a string, up to its closing quote, and what follows. -/
def closeString : List UInt8 → Option (List UInt8 × List UInt8)
  | [] => none
  | 34 :: rest => some ([], rest)
  | 92 :: c :: rest => (closeString rest).map (fun r => (92 :: c :: r.1, r.2))
  | c :: rest => if c < 32 then none else (closeString rest).map (fun r => (c :: r.1, r.2))

/-- A string after its opening quote. -/
def readString (s : List UInt8) : Option ((List UInt8 × List UInt8) × List UInt8) := do
  let (spelling, rest) ← closeString s
  let value ← unescape spelling.length spelling
  return ((spelling, value), rest)

def isDigit (c : UInt8) : Bool :=
  48 ≤ c && c ≤ 57

/-- One digit or more, and nothing else. -/
def isDigits (s : List UInt8) : Bool :=
  s ≠ [] && s.all isDigit

/-- The digits of an exponent, with or without a sign. -/
def isExponent : List UInt8 → Bool
  | 43 :: s => isDigits s
  | 45 :: s => isDigits s
  | s => isDigits s

/-- What follows the integer part of a number. -/
def isFraction (s : List UInt8) : Bool :=
  match s with
  | [] => true
  | 46 :: r =>
      let digits := r.takeWhile isDigit
      digits ≠ [] && match r.dropWhile isDigit with
        | [] => true
        | c :: e => (c = 101 || c = 69) && isExponent e
  | c :: e => (c = 101 || c = 69) && isExponent e

/-- A number without its sign. -/
def isUnsigned : List UInt8 → Bool
  | 48 :: r => isFraction r
  | s => s.takeWhile isDigit ≠ [] && isFraction (s.dropWhile isDigit)

def isNumber : List UInt8 → Bool
  | 45 :: s => isUnsigned s
  | s => isUnsigned s

/-- The bytes a number can be spelled with. -/
def isNumberByte (c : UInt8) : Bool :=
  isDigit c || c = 43 || c = 45 || c = 46 || c = 69 || c = 101

/-- The text after white space. -/
def skipWs (s : List UInt8) : List UInt8 :=
  s.dropWhile (fun c => c = 32 || c = 9 || c = 10 || c = 13)

/-- A literal name or a number. -/
def readAtom (s : List UInt8) : Option (Json × List UInt8) :=
  if [110, 117, 108, 108] <+: s then some (.null, s.drop 4)
  else if [116, 114, 117, 101] <+: s then some (.bool true, s.drop 4)
  else if [102, 97, 108, 115, 101] <+: s then some (.bool false, s.drop 5)
  else
    let spelling := s.takeWhile isNumberByte
    if isNumber spelling then some (.num spelling, s.dropWhile isNumberByte) else none

mutual

/-- A value, and the text after it. -/
def readValue : Nat → List UInt8 → Option (Json × List UInt8)
  | 0, _ => none
  | fuel + 1, s =>
      match skipWs s with
      | 34 :: rest => do
          let (name, rest) ← readString rest
          return (.str name.1 name.2, rest)
      | 91 :: rest =>
          match skipWs rest with
          | 93 :: rest => some (.arr [], rest)
          | rest => do
              let (items, rest) ← readItems fuel rest
              return (.arr items, rest)
      | 123 :: rest =>
          match skipWs rest with
          | 125 :: rest => some (.obj [], rest)
          | rest => do
              let (members, rest) ← readMembers fuel rest
              return (.obj members, rest)
      | s => readAtom s

/-- The items of an array, one at least, up to its closing bracket. -/
def readItems : Nat → List UInt8 → Option (List Json × List UInt8)
  | 0, _ => none
  | fuel + 1, s => do
      let (v, rest) ← readValue fuel s
      match skipWs rest with
      | 44 :: rest =>
          let (items, rest) ← readItems fuel rest
          return (v :: items, rest)
      | 93 :: rest => return ([v], rest)
      | _ => none

/-- The members of an object, one at least, up to its closing brace. -/
def readMembers :
    Nat → List UInt8 → Option (List ((List UInt8 × List UInt8) × Json) × List UInt8)
  | 0, _ => none
  | fuel + 1, s => do
      match skipWs s with
      | 34 :: rest =>
          let (name, rest) ← readString rest
          match skipWs rest with
          | 58 :: rest =>
              let (v, rest) ← readValue fuel rest
              match skipWs rest with
              | 44 :: rest =>
                  let (members, rest) ← readMembers fuel rest
                  return ((name, v) :: members, rest)
              | 125 :: rest => return ([(name, v)], rest)
              | _ => none
          | _ => none
      | _ => none

end

/-- The value that a JSON text spells. -/
def read (s : List UInt8) : Option Json := do
  let (v, rest) ← readValue (2 * s.length + 2) s
  if skipWs rest = [] then return v else none

end Json
end Lib
end CodebaseMemory
