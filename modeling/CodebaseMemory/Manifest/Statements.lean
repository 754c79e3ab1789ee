import CodebaseMemory.Lib.Transition
import CodebaseMemory.Sqlite.Record

/-!
# The memory manifest (`src/mcp/mcp.c`)

`memory_candidate`, `memory_validate` and `memory_commit` work on two tables of one SQLite
file that all server processes share.  None of them opens a transaction, so the
statements of different processes interleave; a statement itself is atomic.

A process runs one request at a time.  Its first statement is the action `request`, and each
further one is the action `next`; a process that is stopped takes no more actions.

Reading aids:
* The columns that are written once and only copied are `details`: `scope`, `kind`,
  `source`, `source_ref`, `source_hash`, `confidence` and `importance`.
* The ids are primary keys: an `INSERT` with an id that is there fails, and an
  `INSERT OR IGNORE` skips the row.
* A request without text is refused before any statement; the counts that a request only
  reports are not modelled.
-/

namespace CodebaseMemory
namespace Manifest

open Lib
open Sqlite (CStr bytesOf)

universe u

inductive Status where
  | pending | validated | committed
deriving DecidableEq

/-- A row of `memory_candidates`. -/
structure Candidate (δ : Type u) where
  id : CStr
  projectKey : CStr
  text : CStr
  details : δ
  status : Status
  createdAt : Int
  validatedAt : Option Int
  committedAt : Option Int

/-- A row of `memories`. -/
structure MemoryRow (δ : Type u) where
  id : CStr
  candidateId : CStr
  projectKey : CStr
  text : CStr
  details : δ
  createdAt : Int
  validatedAt : Option Int
  committedAt : Int

section Statements

variable {δ : Type u}

/-- `INSERT INTO memory_candidates`. -/
def insertCandidate (rows : List (Candidate δ)) (c : Candidate δ) : List (Candidate δ) :=
  if c.id ∈ rows.map Candidate.id then rows else rows ++ [c]

/-- `memory_count_by_status`. -/
def countByStatus (rows : List (Candidate δ)) (projectKey : CStr) (status : Status) : Nat :=
  rows.countP fun c => c.projectKey = projectKey ∧ c.status = status

/-- The row after `memory_validate`. -/
def Candidate.validate (projectKey : CStr) (now : Int) (c : Candidate δ) : Candidate δ :=
  if c.projectKey = projectKey ∧ c.status = .pending then
    { c with status := .validated, validatedAt := some now }
  else c

/-- `WHERE project_key=?2 AND status='validated' AND (?3 IS NULL OR id=?3)`. -/
def Candidate.Selected (projectKey : CStr) (id : Option CStr) (c : Candidate δ) : Prop :=
  c.projectKey = projectKey ∧ c.status = .validated ∧ (id = none ∨ id = some c.id)

instance (projectKey : CStr) (id : Option CStr) (c : Candidate δ) :
    Decidable (c.Selected projectKey id) :=
  inferInstanceAs (Decidable (_ ∧ _ ∧ _))

def Candidate.toMemory (now : Int) (c : Candidate δ) : MemoryRow δ :=
  { id := c.id
    candidateId := c.id
    projectKey := c.projectKey
    text := c.text
    details := c.details
    createdAt := c.createdAt
    validatedAt := c.validatedAt
    committedAt := now }

/-- `INSERT OR IGNORE` of one row. -/
def insertOrIgnore (rows : List (MemoryRow δ)) (m : MemoryRow δ) : List (MemoryRow δ) :=
  if m.id ∈ rows.map MemoryRow.id then rows else rows ++ [m]

/-- The `INSERT OR IGNORE INTO memories … SELECT` of `memory_commit`. -/
def commitInsert (projectKey : CStr) (id : Option CStr) (now : Int)
    (candidates : List (Candidate δ)) (memories : List (MemoryRow δ)) : List (MemoryRow δ) :=
  ((candidates.filter fun c => c.Selected projectKey id).map (Candidate.toMemory now)).foldl
    insertOrIgnore memories

/-- The row after the `UPDATE` of `memory_commit`. -/
def Candidate.commit (projectKey : CStr) (id : Option CStr) (now : Int) (c : Candidate δ) :
    Candidate δ :=
  if c.Selected projectKey id then { c with status := .committed, committedAt := some now } else c

end Statements

inductive Request (δ : Type u) where
  | candidate (id projectKey text : CStr) (details : δ)
  | validate (projectKey : CStr) (dryRun : Bool)
  | commit (projectKey : CStr) (id : Option CStr) (dryRun : Bool)

/-- Where a process stands: the statement it runs next. -/
inductive Phase where
  | idle
  /-- `memory_validate` has counted. -/
  | validating (projectKey : CStr)
  /-- `memory_commit` has counted. -/
  | counted (projectKey : CStr) (id : Option CStr)
  /-- `memory_commit` has inserted rows. -/
  | inserted (projectKey : CStr) (id : Option CStr)
deriving DecidableEq

/-- The manifest and the processes `ι`. -/
structure State (ι : Type) (δ : Type u) where
  candidates : List (Candidate δ)
  memories : List (MemoryRow δ)
  phase : ι → Phase

inductive Action (ι : Type) (δ : Type u) where
  | request (p : ι) (r : Request δ) (now : Int)
  | next (p : ι) (now : Int)

section Step

variable {ι : Type} [DecidableEq ι] {δ : Type u}

def State.setPhase (s : State ι δ) (p : ι) (phase : Phase) : State ι δ :=
  { s with phase := Function.update s.phase p phase }

def State.begin (s : State ι δ) (p : ι) (now : Int) : Request δ → State ι δ
  | .candidate id projectKey text details =>
    { s with
      candidates := insertCandidate s.candidates
        { id, projectKey, text, details, status := .pending, createdAt := now,
          validatedAt := none, committedAt := none } }
  | .validate projectKey dryRun =>
    if dryRun = false ∧ 0 < countByStatus s.candidates projectKey .pending then
      s.setPhase p (.validating projectKey)
    else s
  | .commit projectKey id dryRun =>
    if dryRun = false ∧ 0 < countByStatus s.candidates projectKey .validated then
      s.setPhase p (.counted projectKey id)
    else s

/-- The next statement of a process that is not idle. -/
def State.resume (s : State ι δ) (p : ι) (now : Int) : Option (State ι δ) :=
  match s.phase p with
  | .idle => none
  | .validating projectKey =>
    some { s.setPhase p .idle with
      candidates := s.candidates.map (Candidate.validate projectKey now) }
  | .counted projectKey id =>
    let memories := commitInsert projectKey id now s.candidates s.memories
    -- `sqlite3_changes`: the update is skipped when no row was inserted
    if s.memories.length < memories.length then
      some { s.setPhase p (.inserted projectKey id) with memories := memories }
    else
      some { s.setPhase p .idle with memories := memories }
  | .inserted projectKey id =>
    some { s.setPhase p .idle with
      candidates := s.candidates.map (Candidate.commit projectKey id now) }

def step (s : State ι δ) : Action ι δ → Option (State ι δ)
  | .request p r now => if s.phase p = .idle then some (s.begin p now r) else none
  | .next p now => s.resume p now

/-- A manifest that has just been made. -/
def start : State ι δ :=
  { candidates := [], memories := [], phase := fun _ => .idle }

/-- A process runs on alone until its request is done; no request has more than `n` more
statements. -/
def finish (p : ι) (now : Int) : Nat → State ι δ → State ι δ
  | 0, s => s
  | n + 1, s =>
    match s.resume p now with
    | some s' => finish p now n s'
    | none => s

/-- `memory_commit` alone, from its count to its end. -/
def commitAlone (p : ι) (projectKey : CStr) (id : Option CStr) (now : Int) (s : State ι δ) :
    State ι δ :=
  finish p now 2 (s.begin p now (.commit projectKey id false))

end Step

end Manifest
end CodebaseMemory
