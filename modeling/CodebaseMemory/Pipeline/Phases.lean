import CodebaseMemory.Lib.Cancel
import CodebaseMemory.Pipeline.Runs

/-!
# One index run and its database file (`src/pipeline/pipeline.c`)

`cbm_pipeline_run` as the sequence of its passes, its reads of the cancellation flag and
what it does to the database file at `db_path`, on every path through
`try_incremental_or_delete_db`, `cbm_pipeline_run_incremental` and the full pipeline.

What a pass computes is not modelled here: a pass is a stage that reads the flag a number
of times and returns a code, and the graph that is dumped at the end is given by `Env`.

Reading aids:
* `Pass.registry` is `cbm_build_registry_from_cache`.  Only `cbm_parallel_extract`,
  `cbm_parallel_resolve` and `cbm_pipeline_pass_similarity` return a code for another
  reason than the flag (an allocation that fails).
* `Progress.failed` is not a variable of the program.  It is set by a pass that returns a
  code, by a dump that fails and by a read that sees the flag.
* The writer opens its file with `"wb"`: when this fails the file is as before, and
  when a later write fails the file holds part of a database.
* A store opened on a path without a file makes an empty one.  It has no row in
  `projects`, which the rows of `file_hashes` refer to, so no hash row can be stored.
-/

namespace CodebaseMemory
namespace Pipeline

open Lib
open Sqlite (CStr bytesOf DumpNode DumpEdge)

/-- What a project's database holds. -/
structure StoredDb where
  /-- There is a row of the project in `projects`. -/
  project : Bool
  nodes : List DumpNode
  edges : List DumpEdge
  hashes : List FileHash
  /-- The row of the project in `project_summaries`. -/
  summary : Option CStr

/-- The file at `db_path`. -/
inductive DbFile where
  | absent
  | damaged
  | valid (db : StoredDb)

def DbFile.hashes : DbFile → List FileHash
  | .absent => []
  | .damaged => []
  | .valid db => db.hashes

/-- The tables as `init_schema` makes them. -/
def emptyStore : StoredDb :=
  { project := false, nodes := [], edges := [], hashes := [], summary := none }

/-- `cbm_store_open_path`, when it succeeds. -/
def openStore : DbFile → DbFile
  | .absent => .valid emptyStore
  | file => file

/-- `cbm_store_upsert_file_hash` for all rows. -/
def putHashes (rows : List FileHash) : DbFile → DbFile
  | .valid db => .valid (if db.project then { db with hashes := rows } else db)
  | file => file

inductive Pass where
  | passStructure | definitions | k8s | lspCross | calls | usages | semantic
  | parallelExtract | registry | parallelResolve
  | tests | githistory
  | decoratorTags | configlink | routeMatch | similarity | semanticEdges | complexity
deriving DecidableEq

/-- `cbm_index_mode_t`. -/
inductive IndexMode where
  | full | moderate | fast | advanced
deriving DecidableEq

inductive DumpOutcome where
  | openFails | writeFails | written
deriving DecidableEq

/-- What a run depends on besides the database file. -/
structure Env where
  /-- `p->cancelled` -/
  flag : CancelFlag
  /-- The reads of the flag in a pass that is not asked to stop. -/
  reads : Pass → Nat
  extractRc : Int
  resolveRc : Int
  similarityRc : Int
  mode : IndexMode
  /-- `cbm_default_worker_count(true)` -/
  workers : Nat
  discoverRc : Int
  fileCount : Nat
  /-- `check_store && cbm_store_check_integrity(check_store)` -/
  checkStore : Bool
  /-- The store is opened again by `cbm_pipeline_run_incremental`. -/
  reopens : Bool
  /-- `n_changed` and `deleted_count` -/
  changed : Nat
  deleted : Nat
  /-- `load_rc == 0` -/
  loads : Bool
  dump : DumpOutcome
  /-- The rows of the graph that the passes have built. -/
  nodes : List DumpNode
  edges : List DumpEdge
  /-- The store can be opened for the hash rows, which are `hashes`. -/
  hashStore : Bool
  hashes : List FileHash

namespace Env

variable (env : Env)

/-- The code of a pass that has not been asked to stop. -/
def ownRc : Pass → Int
  | .parallelExtract => env.extractRc
  | .parallelResolve => env.resolveRc
  | .similarity => env.similarityRc
  | _ => 0

def pass (p : Pass) : Stage DbFile Int :=
  env.flag.step (env.reads p) (env.ownRc p)

/-- The table of `run_sequential_pipeline`, with `ignore_err`. -/
def seqPasses : List (Pass × Bool) :=
  [(.definitions, false), (.k8s, true), (.lspCross, true), (.calls, false), (.usages, false),
    (.semantic, false)]

/-- The loop of `run_sequential_pipeline`. -/
def seqLoop : List (Pass × Bool) → Stage DbFile Int
  | [] => pure 0
  | (p, ignoreErr) :: rest =>
    (env.flag.heed (if ignoreErr then (env.pass p).ignored else env.pass p)).andThen
      (seqLoop rest)

def runSequentialPipeline : Stage DbFile Int :=
  env.seqLoop seqPasses

def runParallelPipeline : Stage DbFile Int :=
  (env.pass .parallelExtract).andThen <|
  env.flag.cancelCode.andThen <|
  (env.pass .registry).andThen <|
  env.flag.cancelCode.andThen <|
  (env.pass .parallelResolve).andThen <|
  env.flag.heed (env.pass .k8s).ignored

/-- `worker_count > SKIP_ONE && file_count > MIN_FILES_FOR_PARALLEL` -/
def parallel (files : Nat) : Bool :=
  1 < env.workers && 50 < files

/-- The void `pass_structure` is a pass whose code is not looked at. -/
def runExtractionPhase : Stage DbFile Int :=
  (env.flag.heed (env.pass .passStructure).ignored).andThen <|
  env.flag.heed
    (if env.parallel env.fileCount then env.runParallelPipeline else env.runSequentialPipeline)

/-- `rc = tests; if (rc == 0 && !check_cancel(p)) rc = run_githistory(p, ctx);` and a
last read.  `run_githistory` always returns zero. -/
def runTestsAndHistory : Stage DbFile Int :=
  env.flag.heed <|
  (env.pass .tests).andThen do
    if ← env.flag.check then pure 0 else (env.pass .githistory).ignored

/-- The table of `run_predump_passes`, with `moderate_only`. -/
def predumpPasses : List (Pass × Bool) :=
  [(.decoratorTags, false), (.configlink, false), (.routeMatch, false), (.similarity, true),
    (.semanticEdges, true), (.complexity, false)]

/-- `passes[i].moderate_only && p->mode == CBM_MODE_FAST` -/
def skipsPredump (moderateOnly : Bool) : Bool :=
  moderateOnly && env.mode == .fast

/-- The loop of `run_predump_passes`; it returns nothing. -/
def predumpLoop : List (Pass × Bool) → Stage DbFile Int
  | [] => pure 0
  | (p, moderateOnly) :: rest => do
    if ← env.flag.check then pure 0
    else if env.skipsPredump moderateOnly then predumpLoop rest
    else do
      let _ ← env.pass p
      predumpLoop rest

def runPredumpPasses : Stage DbFile Int :=
  env.predumpLoop predumpPasses

/-- The writer's codes for a failure after the file is open are all negative. -/
def errWriteFailed : Int := -3

/-- `cbm_gbuf_dump_to_sqlite`. -/
def dumpToSqlite : Stage DbFile Int := fun s =>
  match env.dump with
  | .openFails => (notFound, { s with failed := true })
  | .writeFails => (errWriteFailed, { s with failed := true, file := .damaged })
  | .written =>
    ((0 : Int), { s with
      file := .valid
        { project := true, nodes := env.nodes, edges := env.edges, hashes := [],
          summary := none } })

/-- The hash rows, when the store can be opened. -/
def persistHashes : Stage DbFile Int := fun s =>
  ((0 : Int),
    if env.hashStore then { s with file := putHashes env.hashes (openStore s.file) } else s)

def dumpAndPersistHashes : Stage DbFile Int :=
  env.dumpToSqlite.andThen env.persistHashes

def runPostExtraction : Stage DbFile Int :=
  env.runTestsAndHistory.andThen do
    let _ ← env.runPredumpPasses
    if ← env.flag.check then pure 0 else env.dumpAndPersistHashes

/-- The passes of `run_extract_resolve`. -/
def extractResolvePasses : List Pass :=
  if env.parallel env.changed then [.parallelExtract, .registry, .parallelResolve]
  else [.definitions, .calls, .usages, .semantic]

/-- The passes of `run_postpasses`; `ctx->mode <= CBM_MODE_MODERATE`. -/
def postpasses : List Pass :=
  [.tests, .decoratorTags, .configlink] ++
    if env.mode = .full ∨ env.mode = .moderate then [.similarity, .semanticEdges] else []

def incrementalPasses : List Pass :=
  env.extractResolvePasses ++ [.k8s] ++ env.postpasses

/-- Passes in a row whose codes are not looked at. -/
def runIgnored : List Pass → Stage DbFile Int
  | [] => pure 0
  | p :: rest => do
    let _ ← env.pass p
    runIgnored rest

/-- `cbm_unlink(db_path)`. -/
def unlinkDb : Stage DbFile Int := fun s =>
  ((0 : Int), { s with file := .absent })

def dumpAndPersist : Stage DbFile Int := do
  let _ ← unlinkDb
  let _ ← env.dumpToSqlite
  env.persistHashes

/-- `cbm_pipeline_run_incremental`. -/
def runIncremental : Stage DbFile Int :=
  if env.reopens = false then pure notFound
  else if env.changed = 0 ∧ env.deleted = 0 then pure 0
  else if env.loads = false then pure notFound
  else do
    let _ ← env.runIgnored env.incrementalPasses
    let _ ← env.dumpAndPersist
    pure 0

/-- `hash_count > 0 && file_count <= hash_count + (hash_count / PAIR_LEN)` in a store that
was opened. -/
def incremental (file : DbFile) : Bool :=
  env.checkStore && 0 < file.hashes.length &&
    env.fileCount ≤ file.hashes.length + file.hashes.length / 2

def tryIncrementalOrDeleteDb : Stage DbFile Int := fun s =>
  match s.file with
  | .absent => (notFound, s)
  | file =>
    if env.incremental file then env.runIncremental s
    else (notFound, { s with file := .absent })

/-- `cbm_discover_ex`. -/
def discover : Stage DbFile Int :=
  env.flag.step 0 env.discoverRc

def cbmPipelineRun : Stage DbFile Int := do
  let rc ← env.discover.andThen env.flag.cancelCode
  if rc ≠ 0 then pure notFound
  else do
    let rc ← env.tryIncrementalOrDeleteDb
    if 0 ≤ rc then pure rc
    else env.runExtractionPhase.andThen env.runPostExtraction

def run (file : DbFile) : Int × Progress DbFile :=
  env.cbmPipelineRun { reads := 0, failed := false, file := file }

end Env

end Pipeline
end CodebaseMemory
