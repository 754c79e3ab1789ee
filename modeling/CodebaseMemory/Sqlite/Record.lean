import CodebaseMemory.Sqlite.Varint

/-!
# Records (`internal/cbm/sqlite_writer.c`)

`RecordBuilder` and the record builders of the dumped tables and indexes.  A C
string is the list of its bytes; where the code accepts a null pointer the
field is an `Option`.

`int_serial_type` returns the *size* constants `SERIAL_SIZE_INT48 = 6` and
`SERIAL_SIZE_INT64 = 8` where the format has the serial types 5 and 6, and
`int_storage_bytes` then looks these up as serial types; the model follows.

The float `idf` is left out: `idfScaled` is the integer the code stores,
`(int64_t)(idf * 1000)`.
-/

namespace CodebaseMemory
namespace Sqlite

open Lib

/-- A C string. -/
abbrev CStr := List UInt8

instance : LawfulBEq CStr := inferInstance

/-- The bytes of a string literal of the source (ASCII). -/
def bytesOf (s : String) : CStr :=
  s.toList.map (fun c => UInt8.ofNat c.toNat)

/-- The `int` that an overflow leaves. -/
def toI32 (v : Int) : Int :=
  (v + 2 ^ 31) % 2 ^ 32 - 2 ^ 31

/-- `text_serial_type`, computed in `int`. -/
def textSerialType (len : Nat) : Int :=
  toI32 (toI32 (len * 2) + 13)

def intSerialType (val : Int) : Int :=
  if val = 0 then 8
  else if val = 1 then 9
  else if -127 - 1 ≤ val ∧ val ≤ 127 then 1
  else if -32767 - 1 ≤ val ∧ val ≤ 32767 then 2
  else if -8388608 ≤ val ∧ val ≤ 8388607 then 3
  else if -2147483648 ≤ val ∧ val ≤ 2147483647 then 4
  else if -140737488355328 ≤ val ∧ val ≤ 140737488355327 then 6
  else 8

def intStorageBytes (serialType : Int) : Nat :=
  if serialType = 1 then 1
  else if serialType = 2 then 2
  else if serialType = 3 then 3
  else if serialType = 4 then 4
  else if serialType = 5 then 6
  else if serialType = 6 then 8
  else 0

/-- `put_int_be`: the low `nbytes` bytes of the two's complement. -/
def putIntBe (val : Int) (nbytes : Nat) : List UInt8 :=
  bigEndian nbytes (toU64 val)

structure RecordBuilder where
  header : List UInt8
  body : List UInt8

def recInit : RecordBuilder :=
  { header := [], body := [] }

def recAddNull (r : RecordBuilder) : RecordBuilder :=
  { r with header := r.header ++ [0] }

def recAddInt (r : RecordBuilder) (val : Int) : RecordBuilder :=
  let st := intSerialType val
  { header := r.header ++ putVarint st
    body := r.body ++ putIntBe val (intStorageBytes st) }

def recAddText (r : RecordBuilder) (s : Option CStr) : RecordBuilder :=
  let text := s.getD []
  { header := r.header ++ putVarint (textSerialType text.length)
    body := r.body ++ text }

def recAddBlob (r : RecordBuilder) (data : Option (List UInt8)) (len : Nat) : RecordBuilder :=
  let st : Int := if len > 0 then len * 2 + 12 else 0
  { header := r.header ++ putVarint st
    body := r.body ++ (data.getD []).take len }

/-- `rec_finalize`: header length, header, body. -/
def recFinalize (r : RecordBuilder) : List UInt8 :=
  let contentLen := r.header.length
  let guess := varintLen (contentLen + varintLen contentLen)
  let recalc := varintLen (guess + contentLen)
  let totalHeader := if recalc ≠ guess then recalc + contentLen else guess + contentLen
  putVarint totalHeader ++ r.header ++ r.body

theorem length_body_le_recFinalize (r : RecordBuilder) :
    r.body.length ≤ (recFinalize r).length := by
  simp only [recFinalize, List.length_append]
  omega

/-- `CBMDumpNode`. -/
structure DumpNode where
  id : Int
  project : Option CStr
  label : Option CStr
  name : Option CStr
  qualifiedName : Option CStr
  filePath : Option CStr
  startLine : Int
  endLine : Int
  properties : Option CStr

/-- `CBMDumpEdge`. -/
structure DumpEdge where
  id : Int
  project : Option CStr
  sourceId : Int
  targetId : Int
  type : Option CStr
  properties : Option CStr
  urlPath : Option CStr

/-- `CBMDumpVector`. -/
structure DumpVector where
  nodeId : Int
  project : Option CStr
  vector : Option (List UInt8)
  vectorLen : Nat

/-- `CBMDumpTokenVec`. -/
structure DumpTokenVec where
  id : Int
  project : Option CStr
  token : Option CStr
  vector : Option (List UInt8)
  vectorLen : Nat
  idfScaled : Int

def buildNodeRecord (n : DumpNode) : List UInt8 :=
  let r := recAddInt recInit n.id
  let r := recAddText r n.project
  let r := recAddText r n.label
  let r := recAddText r n.name
  let r := recAddText r n.qualifiedName
  let r := recAddText r (some (n.filePath.getD []))
  let r := recAddInt r n.startLine
  let r := recAddInt r n.endLine
  let r := recAddText r (some (n.properties.getD (bytesOf "\x7b\x7d")))
  recFinalize r

def buildEdgeRecord (e : DumpEdge) : List UInt8 :=
  let r := recAddInt recInit e.id
  let r := recAddText r e.project
  let r := recAddInt r e.sourceId
  let r := recAddInt r e.targetId
  let r := recAddText r e.type
  let r := recAddText r (some (e.properties.getD (bytesOf "\x7b\x7d")))
  recFinalize r

def buildVectorRecord (v : DumpVector) : List UInt8 :=
  let r := recAddInt recInit v.nodeId
  let r := recAddText r v.project
  let r := recAddBlob r v.vector v.vectorLen
  recFinalize r

def buildTokenVecRecord (tv : DumpTokenVec) : List UInt8 :=
  let r := recAddInt recInit tv.id
  let r := recAddText r tv.project
  let r := recAddText r tv.token
  let r := recAddBlob r tv.vector tv.vectorLen
  let r := recAddInt r tv.idfScaled
  recFinalize r

def buildProjectRecord (name indexedAt rootPath : Option CStr) : List UInt8 :=
  recFinalize (recAddText (recAddText (recAddText recInit name) indexedAt) rootPath)

/-- A row of `sqlite_sequence`. -/
def buildSequenceRecord (name : CStr) (seq : Int) : List UInt8 :=
  recFinalize (recAddInt (recAddText recInit (some name)) seq)

end Sqlite
end CodebaseMemory
