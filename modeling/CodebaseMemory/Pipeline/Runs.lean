import CodebaseMemory.GraphBuffer.Content
import CodebaseMemory.Lib.Transition
import CodebaseMemory.Pipeline.Incremental

/-!
# Incremental runs and the file system (`src/pipeline/pipeline_incremental.c`)

`cbm_pipeline_run_incremental` as a machine whose steps are interleaved with
those of a user.  Each round of the loops of `classify_files`,
`find_deleted_files` and `persist_hashes` makes at most one `stat`, and is one
step; so is each read of a file by a pass.

Reading aids:
* A path is a relative path; discovery and `find_deleted_files` make the
  absolute path from it.
* `Db.extracted` is not stored: it says what the passes have read of a file in
  the last run that extracted it.  `none` stands for a read that failed.
* The passes read the changed files, each at least once, in an order that
  depends on the number of workers; a pass that finds the run cancelled reads
  no more.  `cbm_pipeline_run_incremental` does not look at the results of the
  passes: it goes on to the dump also if the run was cancelled.
* `Action.next` is given whether the store succeeds: in reading the graph
  (`load_rc`) or in writing a hash row.  That the database can be opened and
  written is assumed.
-/

namespace CodebaseMemory
namespace Pipeline

open Lib
open GraphBuffer
open Sqlite (CStr bytesOf DumpNode DumpEdge)

/-- What is compared of a `stat`: `stat_mtime_ns` and `st_size`. -/
structure Stamp where
  mtimeNs : Int
  size : Int
deriving DecidableEq

/-- A path as `stat` and a read find it. -/
inductive Entry (α : Type) where
  | file (content : α) (stamp : Stamp)
  /-- `stat` fails with `ENOENT` or `ENOTDIR` -/
  | missing
  /-- `stat` fails with another error -/
  | unknown

def Entry.stat {α : Type} : Entry α → Option Stamp
  | .file _ stamp => some stamp
  | .missing => none
  | .unknown => none

/-- `read_file`. -/
def Entry.read {α : Type} : Entry α → Option α
  | .file content _ => some content
  | .missing => none
  | .unknown => none

/-- `cbm_file_hash_t`; the project is always the same. -/
structure FileHash where
  relPath : CStr
  sha256 : CStr
  stamp : Stamp
deriving DecidableEq

/-- `cbm_store_upsert_file_hash`. -/
def upsertFileHash (rows : List FileHash) (h : FileHash) : List FileHash :=
  if h.relPath ∈ rows.map FileHash.relPath then
    rows.map fun r => if r.relPath = h.relPath then h else r
  else rows ++ [h]

/-- The row of a path; `(project, rel_path)` is the primary key. -/
def hashOf (rows : List FileHash) (relPath : CStr) : Option FileHash :=
  rows.find? fun h => h.relPath = relPath

/-- One round of `classify_files`: whether the file is changed. -/
def classifyFile {α : Type} (stored : List FileHash) (entry : Entry α) (relPath : CStr) : Bool :=
  match hashOf stored relPath with
  | none => true
  | some h =>
      match entry.stat with
      | none => true
      | some st => st.mtimeNs ≠ h.stamp.mtimeNs || st.size ≠ h.stamp.size

/-- The size of `abs_path` in `find_deleted_files`, `CBM_SZ_4K`. -/
def absPathSize : Nat :=
  4096

/-- The decision of `find_deleted_files` for a stored file that was not
discovered: preserve its nodes and its row, unless it is known to be gone. -/
def preserve {α : Type} (repoPath : CStr) (entry : Entry α) (relPath : CStr) : Bool :=
  if repoPath.length + 1 + relPath.length ≥ absPathSize then true
  else
    match entry with
    | .missing => false
    | .file _ _ => true
    | .unknown => true

/-- What a run is given besides the files. -/
structure Repo where
  project : CStr
  repoPath : CStr
  /-- `cbm_pipeline_fqn_compute(project, path, "__file__")` -/
  fileQn : CStr → Option CStr
  extractUrlPath : CStr → Option CStr

/-- The database of the project. -/
structure Db (α : Type) where
  nodes : List DumpNode
  edges : List DumpEdge
  hashes : List FileHash
  extracted : CStr → List (Option α)
  names : (nodes.map DumpNode.qualifiedName).Nodup
  paths : (hashes.map FileHash.relPath).Nodup

/-- What a run has found out so far. -/
structure Job (α : Type) where
  /-- the discovered files -/
  files : List CStr
  changed : List CStr
  unchanged : List CStr
  deleted : List CStr
  modeSkipped : List FileHash
  /-- the reads of the passes, in their order -/
  reads : List (CStr × Option α)

/-- Where a run is, with what is left of the loop it is in. -/
inductive Phase (α : Type) where
  | idle
  | classify (job : Job α) (todo : List CStr)
  | findDeleted (job : Job α) (todo : List FileHash)
  | extract (job : Job α)
  /-- the first loop of `persist_hashes` -/
  | persist (job : Job α) (todo : List CStr)
  /-- the second loop, over the mode-skipped files -/
  | carry (todo : List FileHash)

/-- No run is going on. -/
def Phase.isIdle {α : Type} : Phase α → Bool
  | .idle => true
  | _ => false

theorem isIdle_iff {α : Type} {phase : Phase α} : phase.isIdle = true ↔ phase = .idle := by
  cases phase <;> simp [Phase.isIdle]

/-- Disk, database and run. -/
structure State (α : Type) where
  disk : CStr → Entry α
  db : Db α
  phase : Phase α
  cancelled : Bool

/-- A step of the user or of the run. -/
inductive Action (α : Type) where
  /-- the user creates, edits or removes a file -/
  | touch (relPath : CStr) (entry : Entry α)
  | cancel
  | start (files : List CStr)
  | next (ok : Bool)
  | read (relPath : CStr)
  /-- the passes have made these calls, and the graph is dumped -/
  | dump (calls : List PassCall)

section Machine

variable {α : Type}

/-- The job of a run that starts. -/
def Job.new (files : List CStr) : Job α :=
  { files := files, changed := [], unchanged := [], deleted := [], modeSkipped := [], reads := [] }

/-- The job after a round of `classify_files`. -/
def Job.classified (job : Job α) (stored : List FileHash) (entry : Entry α) (relPath : CStr) :
    Job α :=
  if classifyFile stored entry relPath then { job with changed := job.changed ++ [relPath] }
  else { job with unchanged := job.unchanged ++ [relPath] }

/-- The job after a round of `find_deleted_files`. -/
def Job.found (job : Job α) (repoPath : CStr) (entry : Entry α) (h : FileHash) : Job α :=
  if h.relPath ∈ job.files then job
  else if preserve repoPath entry h.relPath then { job with modeSkipped := job.modeSkipped ++ [h] }
  else { job with deleted := job.deleted ++ [h.relPath] }

/-- What has been read of a file. -/
def Job.readsOf (job : Job α) (relPath : CStr) : List (Option α) :=
  (job.reads.filter fun r => r.1 = relPath).map Prod.snd

/-- Steps 1 to 7 on the graph. -/
def Job.reindex (job : Job α) (repo : Repo) (db : Db α) (calls : List PassCall) : Reindex :=
  { project := repo.project
    nodes := db.nodes
    edges := db.edges
    changed := job.changed
    deleted := job.deleted
    fileQn := repo.fileQn
    calls := calls }

end Machine

theorem owned_upsertFile {g : Gbuf} (h : Owned g) (fileQn : CStr → Option CStr) (relPath : CStr) :
    Owned (upsertFile fileQn g relPath) := by
  unfold upsertFile
  cases fileQn relPath with
  | none => exact h
  | some qn => exact h.upsert _ _ _ _ _ _ _

theorem owned_run {g : Gbuf} (h : Owned g) (call : PassCall) : Owned (call.run g) := by
  cases call with
  | upsert label name qn filePath startLine endLine properties =>
      exact h.upsert label name qn filePath startLine endLine properties
  | insertEdge src tgt type properties =>
      exact h.congr (nodePart_cbmGbufInsertEdge g src tgt type properties)
  | merge worker => exact h.merge worker
  | setNextId id => exact h.congr rfl

theorem owned_foldl {β : Type} {f : Gbuf → β → Gbuf} (hf : ∀ g x, Owned g → Owned (f g x))
    (xs : List β) : ∀ g, Owned g → Owned (xs.foldl f g) := by
  induction xs with
  | nil => exact fun g h => h
  | cons x xs ih => exact fun g h => ih (f g x) (hf g x h)

theorem Reindex.owned_loaded (r : Reindex) (hnames : (r.nodes.map DumpNode.qualifiedName).Nodup) :
    Owned r.loaded :=
  (content_load r.project r.edges hnames).1

theorem Reindex.owned_purged (r : Reindex) (hnames : (r.nodes.map DumpNode.qualifiedName).Nodup) :
    Owned r.purged :=
  owned_foldl (fun _ file h => h.deleteByFile file) _ _ (r.owned_loaded hnames)

theorem Reindex.owned_prepared (r : Reindex)
    (hnames : (r.nodes.map DumpNode.qualifiedName).Nodup) : Owned r.prepared :=
  owned_foldl (fun _ file h => owned_upsertFile h r.fileQn file) _ _ (r.owned_purged hnames)

theorem Reindex.owned_result (r : Reindex) (hnames : (r.nodes.map DumpNode.qualifiedName).Nodup) :
    Owned r.result :=
  owned_foldl (fun _ call h => owned_run h call) _ _ (r.owned_prepared hnames)

variable {rows : List FileHash}
variable {h : FileHash}

theorem hashOf_eq_some {relPath : CStr} (hsome : hashOf rows relPath = some h) :
    h ∈ rows ∧ h.relPath = relPath :=
  ⟨List.mem_of_find?_eq_some hsome, by simpa using List.find?_some hsome⟩

theorem paths_upsertFileHash (hpaths : (rows.map FileHash.relPath).Nodup) (h : FileHash) :
    ((upsertFileHash rows h).map FileHash.relPath).Nodup := by
  unfold upsertFileHash
  split
  · have hsame : (rows.map fun r => if r.relPath = h.relPath then h else r).map FileHash.relPath =
        rows.map FileHash.relPath := by
      rw [List.map_map]
      refine List.map_congr_left fun r _ => ?_
      by_cases hr : r.relPath = h.relPath
      · simp [hr]
      · simp [hr]
    rw [hsame]
    exact hpaths
  · next hnew =>
      rw [List.map_append, List.map_singleton, ← List.concat_eq_append]
      exact List.Nodup.concat hnew hpaths

theorem hashOf_of_mem (hpaths : (rows.map FileHash.relPath).Nodup) (hmem : h ∈ rows) :
    hashOf rows h.relPath = some h := by
  cases hrow : hashOf rows h.relPath with
  | none =>
      exact absurd (List.find?_eq_none.mp hrow h hmem) (by simp)
  | some r =>
      obtain ⟨hr, hpath⟩ := hashOf_eq_some hrow
      rw [List.inj_on_of_nodup_map hpaths hr hmem hpath]

theorem mem_upsertFileHash {r : FileHash} :
    r ∈ upsertFileHash rows h ↔ r = h ∨ (r ∈ rows ∧ r.relPath ≠ h.relPath) := by
  unfold upsertFileHash
  split
  · next hold =>
      obtain ⟨old, hmem, hpath⟩ := List.mem_map.mp hold
      rw [List.mem_map]
      constructor
      · rintro ⟨s, hs, rfl⟩
        by_cases hsp : s.relPath = h.relPath
        · rw [if_pos hsp]
          exact Or.inl rfl
        · rw [if_neg hsp]
          exact Or.inr ⟨hs, hsp⟩
      · rintro (rfl | ⟨hr, hne⟩)
        · exact ⟨old, hmem, if_pos hpath⟩
        · exact ⟨r, hr, if_neg hne⟩
  · next hnew =>
      rw [List.mem_append, List.mem_singleton]
      constructor
      · rintro (hr | rfl)
        · refine Or.inr ⟨hr, ?_⟩
          intro hpath
          rw [← hpath] at hnew
          exact hnew (List.mem_map_of_mem hr)
        · exact Or.inl rfl
      · rintro (rfl | ⟨hr, -⟩)
        · exact Or.inr rfl
        · exact Or.inl hr

section Step

variable {α : Type}

/-- The database with one more hash row. -/
def Db.upsert (db : Db α) (h : FileHash) : Db α :=
  { db with
    hashes := upsertFileHash db.hashes h
    paths := paths_upsertFileHash db.paths h }

/-- The database that is dumped: it has no hash rows yet. -/
def Job.dumped (job : Job α) (repo : Repo) (db : Db α) (calls : List PassCall) : Db α :=
  { nodes := (job.reindex repo db calls).dumpedNodes
    edges := (job.reindex repo db calls).dumpedEdges repo.extractUrlPath
    hashes := []
    extracted := fun f => if f ∈ job.changed then job.readsOf f else db.extracted f
    names := nodup_dump ((job.reindex repo db calls).owned_result db.names) _
    paths := List.nodup_nil }

/-- The next round of the loop the run is in. -/
def State.next (repo : Repo) (s : State α) (ok : Bool) : Option (State α) :=
  match s.phase with
  | .idle => none
  | .classify job (f :: todo) =>
      some { s with phase := .classify (job.classified s.db.hashes (s.disk f) f) todo }
  | .classify job [] => some { s with phase := .findDeleted job s.db.hashes }
  | .findDeleted job (h :: todo) =>
      some { s with phase := .findDeleted (job.found repo.repoPath (s.disk h.relPath) h) todo }
  | .findDeleted job [] =>
      -- nothing changed, or the graph cannot be read
      if (job.changed = [] ∧ job.deleted = []) ∨ ok = false then some { s with phase := .idle }
      else some { s with phase := .extract job }
  | .extract _ => none
  | .persist job (f :: todo) =>
      match (s.disk f).stat with
      | none => some { s with phase := .persist job todo }
      | some st =>
          if ok then
            some
              { s with
                db := s.db.upsert { relPath := f, sha256 := [], stamp := st }
                phase := .persist job todo }
          else some { s with phase := .persist job todo }
  | .persist job [] => some { s with phase := .carry job.modeSkipped }
  | .carry (h :: todo) =>
      if ok then some { s with db := s.db.upsert h, phase := .carry todo }
      else some { s with phase := .carry todo }
  | .carry [] => some { s with phase := .idle }

/-- A pass reads a changed file. -/
def State.read (s : State α) (f : CStr) : Option (State α) :=
  match s.phase with
  | .extract job =>
      if f ∈ job.changed ∧ s.cancelled = false then
        some
          { s with phase := .extract { job with reads := job.reads ++ [(f, (s.disk f).read)] } }
      else none
  | _ => none

def State.dump (repo : Repo) (s : State α) (calls : List PassCall) : Option (State α) :=
  match s.phase with
  | .extract job =>
      if s.cancelled = true ∨ ∀ f, f ∈ job.changed → f ∈ job.reads.map Prod.fst then
        some { s with db := job.dumped repo s.db calls, phase := .persist job job.files }
      else none
  | _ => none

/-- Discovery has found these files, and a run starts. -/
def State.start (s : State α) (files : List CStr) : Option (State α) :=
  match s.phase with
  | .idle =>
      if ∀ f, f ∈ files → (s.disk f).stat.isSome = true then
        some { s with phase := .classify (Job.new files) files, cancelled := false }
      else none
  | _ => none

def State.step (repo : Repo) (s : State α) : Action α → Option (State α)
  | .touch f entry => some { s with disk := Function.update s.disk f entry }
  | .cancel => some { s with cancelled := true }
  | .start files => s.start files
  | .next ok => s.next repo ok
  | .read f => s.read f
  | .dump calls => s.dump repo calls

/-- What an action can do, one case for each branch of the step function. -/
inductive Moves (repo : Repo) : State α → Action α → State α → Prop
  | touch (disk : CStr → Entry α) (db : Db α) (phase : Phase α) (c : Bool) (f : CStr)
      (entry : Entry α) :
      Moves repo ⟨disk, db, phase, c⟩ (.touch f entry) ⟨Function.update disk f entry, db, phase, c⟩
  | cancel (disk : CStr → Entry α) (db : Db α) (phase : Phase α) (c : Bool) :
      Moves repo ⟨disk, db, phase, c⟩ .cancel ⟨disk, db, phase, true⟩
  | start (disk : CStr → Entry α) (db : Db α) (c : Bool) {files : List CStr}
      (hfiles : ∀ f, f ∈ files → (disk f).stat.isSome = true) :
      Moves repo ⟨disk, db, .idle, c⟩ (.start files)
        ⟨disk, db, .classify (Job.new files) files, false⟩
  | classify (disk : CStr → Entry α) (db : Db α) (c : Bool) (job : Job α) (f : CStr)
      (todo : List CStr) (ok : Bool) :
      Moves repo ⟨disk, db, .classify job (f :: todo), c⟩ (.next ok)
        ⟨disk, db, .classify (job.classified db.hashes (disk f) f) todo, c⟩
  | classified (disk : CStr → Entry α) (db : Db α) (c : Bool) (job : Job α) (ok : Bool) :
      Moves repo ⟨disk, db, .classify job [], c⟩ (.next ok)
        ⟨disk, db, .findDeleted job db.hashes, c⟩
  | findDeleted (disk : CStr → Entry α) (db : Db α) (c : Bool) (job : Job α) (h : FileHash)
      (todo : List FileHash) (ok : Bool) :
      Moves repo ⟨disk, db, .findDeleted job (h :: todo), c⟩ (.next ok)
        ⟨disk, db, .findDeleted (job.found repo.repoPath (disk h.relPath) h) todo, c⟩
  | giveUp (disk : CStr → Entry α) (db : Db α) (c : Bool) {job : Job α} {ok : Bool}
      (hstop : (job.changed = [] ∧ job.deleted = []) ∨ ok = false) :
      Moves repo ⟨disk, db, .findDeleted job [], c⟩ (.next ok) ⟨disk, db, .idle, c⟩
  | load (disk : CStr → Entry α) (db : Db α) (c : Bool) (job : Job α) (ok : Bool) :
      Moves repo ⟨disk, db, .findDeleted job [], c⟩ (.next ok) ⟨disk, db, .extract job, c⟩
  | read (disk : CStr → Entry α) (db : Db α) {job : Job α} {f : CStr} (hf : f ∈ job.changed) :
      Moves repo ⟨disk, db, .extract job, false⟩ (.read f)
        ⟨disk, db, .extract { job with reads := job.reads ++ [(f, (disk f).read)] }, false⟩
  | dump (disk : CStr → Entry α) (db : Db α) {c : Bool} {job : Job α} (calls : List PassCall)
      (hdone : c = true ∨ ∀ f, f ∈ job.changed → f ∈ job.reads.map Prod.fst) :
      Moves repo ⟨disk, db, .extract job, c⟩ (.dump calls)
        ⟨disk, job.dumped repo db calls, .persist job job.files, c⟩
  | persist (disk : CStr → Entry α) (db : Db α) (c : Bool) (job : Job α) {f : CStr}
      (todo : List CStr) {st : Stamp} (hstat : (disk f).stat = some st) :
      Moves repo ⟨disk, db, .persist job (f :: todo), c⟩ (.next true)
        ⟨disk, db.upsert { relPath := f, sha256 := [], stamp := st }, .persist job todo, c⟩
  /-- the file is gone, or the row is not taken -/
  | skip (disk : CStr → Entry α) (db : Db α) (c : Bool) (job : Job α) {f : CStr}
      (todo : List CStr) {ok : Bool} (hskip : (disk f).stat = none ∨ ok = false) :
      Moves repo ⟨disk, db, .persist job (f :: todo), c⟩ (.next ok)
        ⟨disk, db, .persist job todo, c⟩
  | persisted (disk : CStr → Entry α) (db : Db α) (c : Bool) (job : Job α) (ok : Bool) :
      Moves repo ⟨disk, db, .persist job [], c⟩ (.next ok) ⟨disk, db, .carry job.modeSkipped, c⟩
  | carry (disk : CStr → Entry α) (db : Db α) (c : Bool) (h : FileHash) (todo : List FileHash) :
      Moves repo ⟨disk, db, .carry (h :: todo), c⟩ (.next true)
        ⟨disk, db.upsert h, .carry todo, c⟩
  | drop (disk : CStr → Entry α) (db : Db α) (c : Bool) (h : FileHash) (todo : List FileHash) :
      Moves repo ⟨disk, db, .carry (h :: todo), c⟩ (.next false) ⟨disk, db, .carry todo, c⟩
  | done (disk : CStr → Entry α) (db : Db α) (c : Bool) (ok : Bool) :
      Moves repo ⟨disk, db, .carry [], c⟩ (.next ok) ⟨disk, db, .idle, c⟩

variable {s s' : State α}
variable {repo : Repo}

theorem moves_of_next {ok : Bool} (h : s.next repo ok = some s') : Moves repo s (.next ok) s' := by
  obtain ⟨disk, db, phase, c⟩ := s
  unfold State.next at h
  cases phase with
  | idle => exact absurd h (by simp)
  | classify job todo =>
      cases todo with
      | nil =>
          obtain rfl := Option.some.inj h
          exact Moves.classified disk db c job ok
      | cons f todo =>
          obtain rfl := Option.some.inj h
          exact Moves.classify disk db c job f todo ok
  | findDeleted job todo =>
      cases todo with
      | nil =>
          dsimp only at h
          split at h
          · next hstop =>
              obtain rfl := Option.some.inj h
              exact Moves.giveUp disk db c hstop
          · obtain rfl := Option.some.inj h
            exact Moves.load disk db c job ok
      | cons row todo =>
          obtain rfl := Option.some.inj h
          exact Moves.findDeleted disk db c job row todo ok
  | extract job => exact absurd h (by simp)
  | persist job todo =>
      cases todo with
      | nil =>
          obtain rfl := Option.some.inj h
          exact Moves.persisted disk db c job ok
      | cons f todo =>
          dsimp only at h
          cases hstat : (disk f).stat with
          | none =>
              rw [hstat] at h
              obtain rfl := Option.some.inj h
              exact Moves.skip disk db c job todo (Or.inl hstat)
          | some st =>
              rw [hstat] at h
              cases ok with
              | true =>
                  obtain rfl := Option.some.inj h
                  exact Moves.persist disk db c job todo hstat
              | false =>
                  obtain rfl := Option.some.inj h
                  exact Moves.skip disk db c job todo (Or.inr rfl)
  | carry todo =>
      cases todo with
      | nil =>
          obtain rfl := Option.some.inj h
          exact Moves.done disk db c ok
      | cons row todo =>
          cases ok with
          | true =>
              obtain rfl := Option.some.inj h
              exact Moves.carry disk db c row todo
          | false =>
              obtain rfl := Option.some.inj h
              exact Moves.drop disk db c row todo

theorem moves_of_step {a : Action α} (h : s.step repo a = some s') : Moves repo s a s' := by
  cases a with
  | touch f entry =>
      obtain rfl := Option.some.inj h
      exact Moves.touch s.disk s.db s.phase s.cancelled f entry
  | cancel =>
      obtain rfl := Option.some.inj h
      exact Moves.cancel s.disk s.db s.phase s.cancelled
  | next ok => exact moves_of_next h
  | start files =>
      obtain ⟨disk, db, phase, c⟩ := s
      change State.start _ files = some s' at h
      unfold State.start at h
      cases phase with
      | idle =>
          dsimp only at h
          split at h
          · next hfiles =>
              obtain rfl := Option.some.inj h
              exact Moves.start disk db c hfiles
          · exact absurd h (by simp)
      | _ => exact absurd h (by simp)
  | read f =>
      obtain ⟨disk, db, phase, c⟩ := s
      change State.read _ f = some s' at h
      unfold State.read at h
      cases phase with
      | extract job =>
          dsimp only at h
          split at h
          · next hf =>
              obtain rfl : c = false := hf.2
              obtain rfl := Option.some.inj h
              exact Moves.read disk db hf.1
          · exact absurd h (by simp)
      | _ => exact absurd h (by simp)
  | dump calls =>
      obtain ⟨disk, db, phase, c⟩ := s
      change State.dump repo _ calls = some s' at h
      unfold State.dump at h
      cases phase with
      | extract job =>
          dsimp only at h
          split at h
          · next hdone =>
              obtain rfl := Option.some.inj h
              exact Moves.dump disk db calls hdone
          · exact absurd h (by simp)
      | _ => exact absurd h (by simp)

/-- Rows of the old database that are still to be written. -/
def Phase.rowsAhead : Phase α → List FileHash
  | .persist job _ => job.modeSkipped
  | .carry todo => todo
  | _ => []

/-- How a run has sorted the files before the dump; `todo` are the stored rows
that `find_deleted_files` has not looked at yet. -/
structure Sorted (db : Db α) (job : Job α) (todo : List FileHash) : Prop where
  changed : ∀ f, f ∈ job.changed → f ∈ job.files
  deleted : ∀ f, f ∈ job.deleted → f ∉ job.files
  skipped : ∀ h, h ∈ job.modeSkipped → h ∈ db.hashes ∧ h.relPath ∉ job.files
  stored : ∀ h, h ∈ db.hashes →
    h.relPath ∈ job.files ∨ h.relPath ∈ job.deleted ∨ h ∈ job.modeSkipped ∨ h ∈ todo
  todo : ∀ h, h ∈ todo → h ∈ db.hashes

/-- Before the dump every stored row is accounted for. -/
def PhaseShape (db : Db α) : Phase α → Prop
  | .idle => True
  | .classify job todo => Sorted db job db.hashes ∧ ∀ f, f ∈ todo → f ∈ job.files
  | .findDeleted job todo => Sorted db job todo
  | .extract job => Sorted db job []
  | .persist _ _ => True
  | .carry _ => True

theorem sorted_new (db : Db α) (files : List CStr) : Sorted db (Job.new files) db.hashes where
  changed := fun _ hf => absurd hf List.not_mem_nil
  deleted := fun _ hf => absurd hf List.not_mem_nil
  skipped := fun _ hh => absurd hh List.not_mem_nil
  stored := fun _ hh => Or.inr (Or.inr (Or.inr hh))
  todo := fun _ hh => hh

theorem Sorted.classified {db : Db α} {job : Job α} {todo : List FileHash} {f : CStr}
    (h : Sorted db job todo) (hf : f ∈ job.files) (entry : Entry α) :
    Sorted db (job.classified db.hashes entry f) todo := by
  unfold Job.classified
  split
  · refine ⟨?_, h.deleted, h.skipped, h.stored, h.todo⟩
    intro g hg
    rcases List.mem_append.mp hg with hg | hg
    · exact h.changed g hg
    · rw [List.mem_singleton.mp hg]
      exact hf
  · exact ⟨h.changed, h.deleted, h.skipped, h.stored, h.todo⟩

theorem files_classified (job : Job α) (stored : List FileHash) (entry : Entry α) (f : CStr) :
    (job.classified stored entry f).files = job.files := by
  unfold Job.classified
  split <;> rfl

theorem files_found (job : Job α) (repoPath : CStr) (entry : Entry α) (h : FileHash) :
    (job.found repoPath entry h).files = job.files := by
  unfold Job.found
  split
  · rfl
  · split <;> rfl

theorem Sorted.found {db : Db α} {job : Job α} {row : FileHash} {todo : List FileHash}
    (h : Sorted db job (row :: todo)) (repoPath : CStr) (entry : Entry α) :
    Sorted db (job.found repoPath entry row) todo := by
  have htodo : ∀ r, r ∈ todo → r ∈ db.hashes := fun r hr => h.todo r (List.mem_cons_of_mem row hr)
  have hrow := h.todo row List.mem_cons_self
  unfold Job.found
  split
  · next hfile =>
      refine ⟨h.changed, h.deleted, h.skipped, ?_, htodo⟩
      intro r hr
      rcases h.stored r hr with hf | hd | hs | ht
      · exact Or.inl hf
      · exact Or.inr (Or.inl hd)
      · exact Or.inr (Or.inr (Or.inl hs))
      · rcases List.mem_cons.mp ht with rfl | ht
        · exact Or.inl hfile
        · exact Or.inr (Or.inr (Or.inr ht))
  · next hnew =>
      split
      · refine ⟨h.changed, h.deleted, ?_, ?_, htodo⟩
        · intro r hr
          rcases List.mem_append.mp hr with hr | hr
          · exact h.skipped r hr
          · rw [List.mem_singleton.mp hr]
            exact ⟨hrow, hnew⟩
        · intro r hr
          rcases h.stored r hr with hf | hd | hs | ht
          · exact Or.inl hf
          · exact Or.inr (Or.inl hd)
          · exact Or.inr (Or.inr (Or.inl (List.mem_append_left _ hs)))
          · rcases List.mem_cons.mp ht with rfl | ht
            · exact Or.inr (Or.inr (Or.inl (List.mem_append_right _ (List.mem_singleton_self r))))
            · exact Or.inr (Or.inr (Or.inr ht))
      · refine ⟨h.changed, ?_, h.skipped, ?_, htodo⟩
        · intro f hf
          rcases List.mem_append.mp hf with hf | hf
          · exact h.deleted f hf
          · rw [List.mem_singleton.mp hf]
            exact hnew
        · intro r hr
          rcases h.stored r hr with hf | hd | hs | ht
          · exact Or.inl hf
          · exact Or.inr (Or.inl (List.mem_append_left _ hd))
          · exact Or.inr (Or.inr (Or.inl hs))
          · rcases List.mem_cons.mp ht with rfl | ht
            · refine Or.inr (Or.inl (List.mem_append_right _ ?_))
              exact List.mem_singleton_self r.relPath
            · exact Or.inr (Or.inr (Or.inr ht))

theorem PhaseShape.step {a : Action α} (h : PhaseShape s.db s.phase)
    (hstep : s.step repo a = some s') : PhaseShape s'.db s'.phase := by
  cases moves_of_step hstep with
  | touch disk db phase c f entry => exact h
  | cancel disk db phase c => exact h
  | start disk db c hfiles => exact ⟨sorted_new db _, fun f hf => hf⟩
  | classify disk db c job f todo ok =>
      obtain ⟨hsorted, htodo⟩ := h
      refine ⟨hsorted.classified (htodo f List.mem_cons_self) _, ?_⟩
      rw [files_classified]
      exact fun g hg => htodo g (List.mem_cons_of_mem f hg)
  | classified disk db c job ok => exact h.1
  | findDeleted disk db c job row todo ok => exact Sorted.found h _ _
  | giveUp disk db c hstop => trivial
  | load disk db c job ok => exact h
  | read disk db hf => exact ⟨h.changed, h.deleted, h.skipped, h.stored, h.todo⟩
  | dump disk db calls hdone => trivial
  | persist disk db c job todo hstat => trivial
  | skip disk db c job todo hskip => trivial
  | persisted disk db c job ok => trivial
  | carry disk db c row todo => trivial
  | drop disk db c row todo => trivial
  | done disk db c ok => trivial

end Step

/-- A database without a graph. -/
def Db.empty {α : Type} (hashes : List FileHash) (extracted : CStr → List (Option α))
    (paths : (hashes.map FileHash.relPath).Nodup) : Db α :=
  { nodes := []
    edges := []
    hashes := hashes
    extracted := extracted
    names := List.nodup_nil
    paths := paths }

/-- A project with its files in `/r`. -/
def smallRepo : Repo :=
  { project := bytesOf "p"
    repoPath := bytesOf "/r"
    fileQn := fun f => some (bytesOf "p." ++ f)
    extractUrlPath := fun _ => none }

end Pipeline
end CodebaseMemory
