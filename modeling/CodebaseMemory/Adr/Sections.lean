import CodebaseMemory.Sqlite.Database
import Mathlib.Data.List.DropRight

/-!
# Sections of an ADR (`src/store/store.c`)

`cbm_adr_parse_sections`, `cbm_adr_render` and `cbm_store_adr_update_sections`.

Reading aids:
* A section is the pair of its entries of `keys` and `values`.
* `none` is undefined in C: a write outside of `current_content` or of the buffer that the
  document is rendered to, or a text whose length no `int` has.
* The row of the project is its summary; timestamps, allocation and I/O failures are left
  out, and the length of a line of a stored document always has room in an `int`.
-/

namespace CodebaseMemory
namespace Adr

open Sqlite (CStr bytesOf strcmp)

/-- `cbm_adr_sections_t` -/
abbrev Sections := List (CStr × CStr)

def newline : UInt8 := 10
def space : UInt8 := 32
def tab : UInt8 := 9
def cr : UInt8 := 13

/-- `CBM_ADR_MAX_LENGTH` -/
def adrMaxLength : Nat := 8000

/-- `ST_BUF_16`, the length of `keys` and `values`. -/
def maxSections : Nat := 16

/-- `ST_SQL_BUF`, the length of `current_content`. -/
def contentSize : Nat := 8192

/-- `ST_MAX_DEGREE * ST_GROWTH`, the length of the buffer of `cbm_adr_render`. -/
def renderSize : Nat := 16384

def canonicalSections : List CStr :=
  [bytesOf "PURPOSE", bytesOf "STACK", bytesOf "ARCHITECTURE", bytesOf "PATTERNS",
    bytesOf "TRADEOFFS", bytesOf "PHILOSOPHY"]

def isCanonicalSection (name : CStr) : Bool :=
  canonicalSections.any fun canonical => name == canonical

/-- The characters that `adr_save_section` trims. -/
def isBlank (c : UInt8) : Bool := c == newline || c == space

/-- The characters that end no header. -/
def isHeaderBlank (c : UInt8) : Bool := c == space || c == tab || c == cr

def adrSaveSection (result : Sections) (sectionName : Option CStr) (content : CStr) : Sections :=
  match sectionName with
  | none => result
  | some name =>
      if maxSections ≤ result.length then result
      else result ++ [(name, (content.rdropWhile isBlank).dropWhile isBlank)]

/-- `adr_try_section_header`; the header is cut to the 63 bytes of its buffer. -/
def adrTrySectionHeader (line : CStr) : Option CStr :=
  if line.length ≤ 3 ∨ line.take 3 ≠ bytesOf "## " then none
  else
    let header := ((line.drop 3).take 63).rdropWhile isHeaderBlank
    if isCanonicalSection header then some header else none

/-- `adr_append_line`: a line that does not fit leaves its newline behind. -/
def adrAppendLine (content line : CStr) : Option CStr :=
  if content ≠ [] ∧ contentSize ≤ content.length then none
  else
    let start := if content = [] then [] else content ++ [newline]
    some (if start.length + line.length < contentSize - 1 then start ++ line else start)

/-- The lines that the loop of `cbm_adr_parse_sections` cuts off at `p`. -/
def splitLines : CStr → List CStr
  | [] => []
  | c :: rest =>
      if c = newline then [] :: splitLines rest
      else
        match splitLines rest with
        | [] => [[c]]
        | line :: lines => (c :: line) :: lines

/-- The variables of `cbm_adr_parse_sections`. -/
structure Parse where
  result : Sections
  currentSection : Option CStr
  currentContent : CStr

/-- One round of the loop. -/
def parseLine (s : Parse) (line : CStr) : Option Parse :=
  match adrTrySectionHeader line with
  | some newSection =>
      some { result := adrSaveSection s.result s.currentSection s.currentContent
             currentSection := some newSection
             currentContent := [] }
  | none =>
      if s.currentSection.isSome ∧ (s.currentContent ≠ [] ∨ line ≠ []) then
        (adrAppendLine s.currentContent line).map fun content =>
          { s with currentContent := content }
      else some s

def cbmAdrParseSections (content : CStr) : Option Sections :=
  ((splitLines content).foldlM parseLine ⟨[], none, []⟩).map fun s =>
    adrSaveSection s.result s.currentSection s.currentContent

/-- The first section with the key `c` moves to the rendered ones. -/
def renderCanonical (done : Sections × Sections) (c : CStr) : Sections × Sections :=
  match done.2.find? (fun s => s.1 == c) with
  | none => done
  | some s => (done.1 ++ [s], done.2.eraseP fun s => s.1 == c)

/-- One round of the sort of `extra`: the entry moves before all greater ones at the end. -/
def insertExtra (sorted : Sections) (s : CStr × CStr) : Sections :=
  sorted.rdropWhile (fun t => strcmp s.1 t.1 == .lt) ++
    s :: sorted.rtakeWhile (fun t => strcmp s.1 t.1 == .lt)

/-- The order in which `cbm_adr_render` renders the sections. -/
def renderOrder (sections : Sections) : Sections :=
  let done := canonicalSections.foldl renderCanonical ([], sections)
  done.1 ++ done.2.foldl insertExtra []

/-- What `adr_render_section` puts behind `text`. -/
def sectionText (text : CStr) (s : CStr × CStr) : CStr :=
  (if text = [] then [] else text ++ bytesOf "\n\n") ++ bytesOf "## " ++ s.1 ++ newline :: s.2

/-- `adr_render_section`; `text` is what all calls would print into a buffer with room, and
`pos` is its length. -/
def adrRenderSection (text : CStr) (s : CStr × CStr) : Option CStr :=
  if text ≠ [] ∧ renderSize < text.length + 2 then none
  else if 2 ^ 31 ≤ (sectionText text s).length then none
  else some (sectionText text s)

def cbmAdrRender (sections : Sections) : Option CStr :=
  ((renderOrder sections).foldlM adrRenderSection []).map (·.take (renderSize - 1))

/-- One round of the merge in `cbm_store_adr_update_sections`. -/
def mergeSection (sections : Sections) (update : CStr × CStr) : Sections :=
  match sections.findIdx? (fun s => s.1 == update.1) with
  | some j => sections.set j update
  | none => if sections.length < maxSections then sections ++ [update] else sections

/-- The return code and the error. -/
inductive Status where
  | ok
  | notFound (error : String)
  | err (error : String)
deriving DecidableEq

/-- `cbm_store_adr_update_sections`; `summary` is that of the project's row, if there is one. -/
def cbmStoreAdrUpdateSections (summary : Option CStr) (updates : Sections) :
    Option (Status × Option CStr) :=
  match summary with
  | none => some (.notFound "no existing ADR to update", none)
  | some existing => do
      let sections ← cbmAdrParseSections existing
      let merged ← cbmAdrRender (updates.foldl mergeSection sections)
      if adrMaxLength < merged.length then
        some (.err ("merged ADR exceeds " ++ toString adrMaxLength ++ " chars (" ++
          toString merged.length ++ " chars)"), summary)
      else some (.ok, some merged)

theorem summary_of_failed {summary after : Option CStr} {updates : Sections} {status : Status}
    (h : cbmStoreAdrUpdateSections summary updates = some (status, after))
    (hfail : status ≠ .ok) : after = summary := by
  cases summary with
  | none =>
      simp only [cbmStoreAdrUpdateSections, Option.some.injEq, Prod.mk.injEq] at h
      exact h.2.symm
  | some existing =>
      simp only [cbmStoreAdrUpdateSections, Option.bind_eq_bind, Option.bind_eq_some_iff] at h
      obtain ⟨sections, -, merged, -, h⟩ := h
      split at h
      · simp only [Option.some.injEq, Prod.mk.injEq] at h
        exact h.2.symm
      · simp only [Option.some.injEq, Prod.mk.injEq] at h
        exact absurd h.1.symm hfail

end Adr
end CodebaseMemory
