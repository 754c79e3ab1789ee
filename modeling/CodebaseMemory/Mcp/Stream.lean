import CodebaseMemory.Lib.Decimal
import CodebaseMemory.Sqlite.Record
import Mathlib.Data.List.DropRight

/-!
# The input of the server (`src/mcp/mcp.c`)

How `cbm_mcp_server_run` takes messages from its input: line by line, or, after a line
that begins with `Content-Length:`, as a number of bytes after the header lines
(`handle_content_length_frame`).

What is read does not depend on what is answered, so the loop is modelled as the list of
the messages that it hands to `cbm_mcp_server_handle`.  Each comes with the number of
bytes that are left in the input where it begins, which says where it was read.

Reading aids:
* The waiting for input (`poll_for_input_unix`) and a failed allocation are left out.
* A C string ends at its first zero byte.
* `int` has 32 bits and `long` 64: the length is read by `strtol` and cut to an `int`.
-/

namespace CodebaseMemory
namespace Mcp

open Lib
open Sqlite (CStr bytesOf)

abbrev Bytes := List UInt8

def lf : UInt8 := 10
def cr : UInt8 := 13

/-- `cbm_getline`: the next line with its line feed, and what follows it. -/
def getline : Bytes → Option (Bytes × Bytes)
  | [] => none
  | b :: rest =>
    if b = lf then some ([b], rest)
    else
      match getline rest with
      | none => some ([b], [])
      | some (line, rest') => some (b :: line, rest')

theorem getline_length {input line rest : Bytes} (h : getline input = some (line, rest)) :
    rest.length < input.length := by
  induction input generalizing line rest with
  | nil => cases h
  | cons b input ih =>
    simp only [getline] at h
    split at h
    · cases h
      exact Nat.lt_succ_self _
    · split at h
      · cases h
        exact Nat.succ_pos _
      · next h' =>
        cases h
        exact Nat.lt_succ_of_lt (ih h')

/-- The bytes before the first zero byte. -/
def cString (bytes : Bytes) : CStr :=
  bytes.takeWhile (· != 0)

/-- A line without the line feed and the carriage returns at its end. -/
def trim (line : Bytes) : CStr :=
  (cString line).rdropWhile fun b => b == lf || b == cr

def isSpace (b : UInt8) : Bool :=
  b == 32 || (9 ≤ b && b ≤ 13)

/-- `strtol(s, NULL, 10)` -/
def strtol (s : CStr) : Int :=
  match s.dropWhile isSpace with
  | 45 :: digits => max (-2 ^ 63) (-(digitsValue 0 digits : Int))
  | 43 :: digits => min (2 ^ 63 - 1) (digitsValue 0 digits : Int)
  | digits => min (2 ^ 63 - 1) (digitsValue 0 digits : Int)

def contentPrefix : CStr :=
  bytesOf "Content-Length:"

/-- `(int)strtol(line + MCP_CONTENT_PREFIX, NULL, CBM_DECIMAL_BASE)` -/
def contentLength (line : CStr) : Int :=
  (strtol (line.drop contentPrefix.length)).bmod (2 ^ 32)

/-- `MCP_DEFAULT_LIMIT * CBM_SZ_1K * CBM_SZ_1K` -/
def maxContent : Nat :=
  10 * 1024 * 1024

/-- The size check. -/
def accepts (contentLen : Int) : Bool :=
  0 < contentLen && contentLen ≤ maxContent

/-- The first loop of `handle_content_length_frame`: the rest of the header lines, up to the
blank one. -/
def skipHeaders (input : Bytes) : Bytes :=
  match _h : getline input with
  | none => []
  | some (line, rest) => if trim line = [] then rest else skipHeaders rest
termination_by input.length
decreasing_by exact getline_length _h

theorem skipHeaders_length (input : Bytes) : (skipHeaders input).length ≤ input.length := by
  rw [skipHeaders]
  split
  · exact Nat.zero_le _
  · next line rest h =>
    have hlt := getline_length h
    split
    · omega
    · have := skipHeaders_length rest
      omega
termination_by input.length

/-- A message handed to `cbm_mcp_server_handle`; `start` bytes of the input are left where it
begins. -/
structure Handed where
  start : Nat
  message : CStr
  /-- The answer gets a header, too. -/
  framed : Bool
deriving DecidableEq

/-- The loop of `cbm_mcp_server_run`. -/
def handed (input : Bytes) : List Handed :=
  match _h : getline input with
  | none => []
  | some (line, rest) =>
    if trim line = [] then handed rest
    else if contentPrefix.isPrefixOf (trim line) then
      if accepts (contentLength (trim line)) then
        { start := (skipHeaders rest).length
          message := cString ((skipHeaders rest).take (contentLength (trim line)).toNat)
          framed := true } ::
        handed ((skipHeaders rest).drop (contentLength (trim line)).toNat)
      else handed rest
    else { start := input.length, message := trim line, framed := false } :: handed rest
termination_by input.length
decreasing_by
  all_goals have := getline_length _h
  all_goals have := skipHeaders_length rest
  all_goals try rw [List.length_drop]
  all_goals omega

end Mcp
end CodebaseMemory
