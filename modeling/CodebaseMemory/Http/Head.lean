import CodebaseMemory.Sqlite.Record
import Mathlib.Data.List.DropRight

/-!
# Request heads (`src/ui/httpd.c`)

`cbm_http_parse_head`: the scan for the end of the head with its rules on single bytes,
the request line, and the header fields.

The pointers of the source are lists here: a line is the list of its bytes, and a
`memchr` cuts a list in two.  After the scan the source reads no byte at or past
`head_end`, so the rest of the parser is given the head alone.  A head has no zero byte,
so that the strings the source compares and copies are whole.
-/

namespace CodebaseMemory
namespace Http

open Sqlite (bytesOf)

abbrev Bytes := List UInt8

/-- `CBM_HTTP_MAX_HEAD` -/
def maxHead : Nat := 16 * 1024

/-- `CBM_HTTP_MAX_BODY` -/
def maxBody : Nat := 1024 * 1024

def cr : UInt8 := 13
def lf : UInt8 := 10
def space : UInt8 := 32
def tab : UInt8 := 9
def colon : UInt8 := 58
def slash : UInt8 := 47
def question : UInt8 := 63

/-- `isupper` in the C locale. -/
def isUpper (c : UInt8) : Bool := 65 ≤ c && c ≤ 90

def isDigit (c : UInt8) : Bool := 48 ≤ c && c ≤ 57

def toLower (c : UInt8) : UInt8 := if isUpper c then c + 32 else c

/-- `memchr` on a line: what stands before and after the first `c`. -/
def splitByte (c : UInt8) : Bytes → Option (Bytes × Bytes)
  | [] => none
  | b :: rest => if b = c then some ([], rest) else (splitByte c rest).map fun x => (b :: x.1, x.2)

inductive Scan where
  /-- A zero byte, or a line feed without its carriage return. -/
  | bad
  /-- The scan reached its bound. -/
  | unfinished
  /-- `head_end` -/
  | head (stop : Nat)
deriving DecidableEq

/-- The loop of the scan at `data[i]`, with `n` rounds left. -/
def scanLoop (data : Bytes) : Nat → Nat → Scan
  | 0, _ => .unfinished
  | n + 1, i =>
    let ch := data.getD i 0
    if ch = 0 then .bad
    else if ch = lf ∧ (i = 0 ∨ data.getD (i - 1) 0 ≠ cr) then .bad
    else if ch = lf ∧ 3 ≤ i ∧ data.getD (i - 3) 0 = cr ∧ data.getD (i - 2) 0 = lf then .head (i + 1)
    else scanLoop data n (i + 1)

/-- `cbm_http_req_t` without the body. -/
structure Request where
  method : Bytes
  path : Bytes
  query : Bytes
  origin : Bytes
deriving DecidableEq

def methodSize : Nat := 16
def pathSize : Nat := 2048
def querySize : Nat := 2048
def originSize : Nat := 256

/-- A failed test answers with a status. -/
def require (ok : Bool) (status : Nat) : Except Nat Unit :=
  if ok then .ok () else .error status

/-- `%00` in a request target. -/
def hasEncodedNul : Bytes → Bool
  | a :: b :: c :: rest => (a == 37 && b == 48 && c == 48) || hasEncodedNul (b :: c :: rest)
  | _ => false

/-- The path of a target, and its query. -/
def splitTarget (target : Bytes) : Bytes × Bytes :=
  (splitByte question target).getD (target, [])

def parseRequestLine (line : Bytes) : Except Nat Request := do
  let (method, rest) ← ((splitByte space line).elim (.error 400) .ok : Except Nat _)
  require (method.length != 0 && method.length < methodSize) 400
  require (method.all isUpper) 400
  let (target, version) ← ((splitByte space rest).elim (.error 400) .ok : Except Nat _)
  require (version == bytesOf "HTTP/1.0" || version == bytesOf "HTTP/1.1") 400
  require (target.head? == some slash) 400
  require (!hasEncodedNul target) 400
  let (path, query) := splitTarget target
  require (path.length < pathSize) 400
  require (query.length < querySize) 400
  return { method, path, query, origin := [] }

/-- `header_name_is`; the names are in lower case. -/
def headerNameIs : Bytes → Bytes → Bool
  | [], name => name == []
  | _ :: _, [] => false
  | c :: line, n :: name => toLower c == n && headerNameIs line name

def isBlank (c : UInt8) : Bool :=
  c == space || c == tab

/-- `copy_header_value` into a buffer of `size` bytes: oversize values are ignored. -/
def copyHeaderValue (value : Bytes) (size : Nat) : Bytes :=
  let trimmed := (value.dropWhile isBlank).rdropWhile isBlank
  if size ≤ trimmed.length then [] else trimmed

/-- The digits of a content length, after a value of `cl`. -/
def contentLengthLoop : Nat → Bytes → Except Nat Nat
  | cl, [] => .ok cl
  | cl, v :: rest =>
    if isDigit v then
      if maxBody < cl * 10 + (v.toNat - 48) then .error 413
      else contentLengthLoop (cl * 10 + (v.toNat - 48)) rest
    else .error 400

/-- What the fields so far have set; `have_content_length` is that there is a length. -/
structure Fields where
  origin : Bytes
  contentLength : Option Nat
deriving DecidableEq

def headerField (fields : Fields) (line : Bytes) : Except Nat Fields := do
  let (name, value) ← ((splitByte colon line).elim (.error 400) .ok : Except Nat _)
  if headerNameIs name (bytesOf "origin") then
    return { fields with origin := copyHeaderValue value originSize }
  else if headerNameIs name (bytesOf "transfer-encoding") then
    throw 411
  else if headerNameIs name (bytesOf "content-length") then
    require (copyHeaderValue value 32 != []) 400
    let cl ← contentLengthLoop 0 (copyHeaderValue value 32)
    require (fields.contentLength.all (· == cl)) 400
    return { fields with contentLength := some cl }
  else
    return fields

/-- The lines from `p` to `head_stop`: each ends at a carriage return, and the byte after it
is passed over. -/
def headerLoop (fields : Fields) (p : Bytes) : Except Nat Fields :=
  if _h : p = [] then .ok fields
  else do
    let fields ← headerField fields (p.takeWhile (· != cr))
    headerLoop fields (p.drop ((p.takeWhile (· != cr)).length + 2))
termination_by p.length
decreasing_by
  have := List.length_pos_of_ne_nil _h
  simp only [List.length_drop]
  omega

/-- A head that was accepted. -/
structure Head where
  request : Request
  contentLength : Nat
  bodyOffset : Nat
deriving DecidableEq

/-- The part of `cbm_http_parse_head` after the scan, on the bytes up to `head_end`. -/
def parseFields (head : Bytes) : Except Nat Head := do
  let (line, rest) ← ((splitByte cr head).elim (.error 400) .ok : Except Nat _)
  let request ← parseRequestLine line
  let fields ← headerLoop { origin := [], contentLength := none }
    (rest.tail.take (rest.tail.length - 2))
  return {
    request := { request with origin := fields.origin }
    contentLength := fields.contentLength.getD 0
    bodyOffset := head.length }

/-- `cbm_http_parse_head`; `none` is `CBM_HTTP_NEED_MORE`. -/
def parseHead (data : Bytes) : Option (Except Nat Head) :=
  match scanLoop data (min data.length maxHead) 0 with
  | .bad => some (.error 400)
  | .unfinished => if maxHead ≤ data.length then some (.error 431) else none
  | .head stop => some (parseFields (data.take stop))

end Http
end CodebaseMemory
