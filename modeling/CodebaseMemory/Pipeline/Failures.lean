import CodebaseMemory.Pipeline.Phases

/-!
# Runs that fail or are cancelled

A run on a project with a valid database should either report a failure and leave the
database as it was, or return zero and have written the new graph (`FailsSafely`).

The code does not keep to this:

* the old file is deleted before extraction when a full run is chosen, and before the
  dump in an incremental run;
* `dump_and_persist` only logs the code of the dump, and an incremental run does not
  look at the codes of its passes;
* a run that is cancelled during the passes before the dump skips the dump and returns
  zero.

`failsSafely_iff` gives the runs that do keep to it, in terms of the reads that see the
flag, the codes of the passes and the outcome of the dump.
-/

namespace CodebaseMemory
namespace Pipeline

open Lib
open Sqlite (CStr bytesOf DumpNode DumpEdge)

namespace Env

variable (env : Env)

inductive Route where
  /-- An incremental run that finds nothing changed. -/
  | upToDate
  /-- An incremental run that writes the file anew. -/
  | rewrite
  /-- A full run while the old file is still in place. -/
  | overOld
  /-- A full run after the old file was deleted. -/
  | afterDelete
deriving DecidableEq

def route (file : DbFile) : Route :=
  if env.incremental file = false then .afterDelete
  else if env.reopens = false then .overOld
  else if env.changed = 0 ∧ env.deleted = 0 then .upToDate
  else if env.loads = false then .overOld
  else .rewrite

/-- The graph that a run without failures leaves in the database. -/
def newGraph (old : StoredDb) : List DumpNode × List DumpEdge :=
  if env.route (.valid old) = .upToDate then (old.nodes, old.edges) else (env.nodes, env.edges)

/-- The database holds the nodes, edges and hash rows of `old`. -/
def Holds (file : DbFile) (old : StoredDb) : Prop :=
  ∃ db, file = .valid db ∧
    db.nodes = old.nodes ∧ db.edges = old.edges ∧ db.hashes = old.hashes

/-- The database holds the graph `g`. -/
def HoldsGraph (file : DbFile) (g : List DumpNode × List DumpEdge) : Prop :=
  ∃ db, file = .valid db ∧ (db.nodes, db.edges) = g

/-- A failure is reported and keeps the old database; zero means the new graph is there. -/
structure FailsSafely (old : StoredDb) : Prop where
  failed : (env.run (.valid old)).2.failed = true →
    (env.run (.valid old)).1 ≠ 0 ∧ Holds (env.run (.valid old)).2.file old
  written : (env.run (.valid old)).1 = 0 →
    HoldsGraph (env.run (.valid old)).2.file (env.newGraph old)

def seqReads (passes : List (Pass × Bool)) : Nat :=
  (passes.map fun x => env.reads x.1 + 1).sum

def parallelReads : Nat :=
  env.reads .parallelExtract + (1 + (env.reads .registry + (1 + (env.reads .parallelResolve +
    (env.reads .k8s + 1)))))

def extractionReads : Nat :=
  env.reads .passStructure + 1 +
    ((if env.parallel env.fileCount then env.parallelReads else env.seqReads seqPasses) + 1)

def extractionFails : Bool :=
  env.parallel env.fileCount && (env.extractRc != 0 || env.resolveRc != 0)

def historyReads : Nat :=
  env.reads .tests + (1 + env.reads .githistory) + 1

def predumpReads (passes : List (Pass × Bool)) : Nat :=
  (passes.map fun x => 1 + if env.skipsPredump x.2 then 0 else env.reads x.1).sum

def predumpFails (passes : List (Pass × Bool)) : Bool :=
  passes.any fun x => !env.skipsPredump x.2 && env.ownRc x.1 != 0

def ignoredReads (passes : List Pass) : Nat :=
  (passes.map env.reads).sum

def ignoredFails (passes : List Pass) : Bool :=
  passes.any fun p => env.ownRc p != 0

/-- The run ends before it looks at the database. -/
def stopsFirst : Bool :=
  env.discoverRc != 0 || env.flag.raised 0

/-- A full run stops before the predump passes. -/
def stopsReported : Bool :=
  env.flag.sees 1 (env.extractionReads + env.historyReads) || env.extractionFails

/-- A full run sees the flag later. -/
def stopsUnreported : Bool :=
  env.flag.sees (1 + (env.extractionReads + env.historyReads)) (env.predumpReads predumpPasses + 1)

/-- A pass of an incremental run stops or fails. -/
def incrementalFails : Bool :=
  env.flag.sees 1 (env.ignoredReads env.incrementalPasses) ||
    env.ignoredFails env.incrementalPasses

/-- When a run fails safely. -/
def Safe (old : StoredDb) : Prop :=
  env.stopsFirst = true ∨
  match env.route (.valid old) with
  | .upToDate => True
  | .rewrite => env.incrementalFails = false ∧ env.dump = .written
  | .overOld =>
    env.stopsReported = true ∨
    env.stopsUnreported = false ∧
      (env.dump = .openFails ∨ env.dump = .written ∧ env.predumpFails predumpPasses = false)
  | .afterDelete =>
    env.stopsReported = false ∧ env.stopsUnreported = false ∧ env.dump = .written ∧
      env.predumpFails predumpPasses = false

section Phases

variable {env}

theorem reports_pass (env : Env) (p : Pass) :
    Reports env.flag (env.reads p) (env.ownRc p != 0) (env.pass p) :=
  Reports.step (env.reads p) (env.ownRc p)

theorem reports_heed_ignored (env : Env) {p : Pass} (h : env.ownRc p = 0) :
    Reports env.flag (env.reads p + 1) false (env.flag.heed (env.pass p).ignored) := by
  unfold Env.pass
  rw [h]
  exact Reports.heed_ignored (env.reads p)

theorem reports_seqLoop : ∀ passes : List (Pass × Bool), (∀ x ∈ passes, env.ownRc x.1 = 0) →
    Reports env.flag (env.seqReads passes) false (env.seqLoop passes)
  | [], _ => by
    refine ⟨fun s => rfl, fun s _ => rfl, fun s h => ?_⟩
    simp [seqReads, CancelFlag.sees] at h
  | (p, ignoreErr) :: rest, h => by
    have hp : env.ownRc p = 0 := h (p, ignoreErr) List.mem_cons_self
    have hrest := reports_seqLoop rest fun x hx => h x (List.mem_cons_of_mem _ hx)
    have hhead : Reports env.flag (env.reads p + 1) false
        (env.flag.heed (if ignoreErr then (env.pass p).ignored else env.pass p)) := by
      cases ignoreErr with
      | true => exact reports_heed_ignored env hp
      | false => simpa [hp] using (reports_pass env p).heed
    simpa [seqReads, seqLoop] using hhead.andThen hrest

theorem reports_runParallelPipeline :
    Reports env.flag env.parallelReads (env.extractRc != 0 || env.resolveRc != 0)
      env.runParallelPipeline := by
  have h := (reports_pass env .parallelExtract).andThen <|
    Reports.cancelCode.andThen <| (reports_pass env .registry).andThen <|
    Reports.cancelCode.andThen <| (reports_pass env .parallelResolve).andThen <|
    reports_heed_ignored env (p := .k8s) rfl
  simpa [parallelReads, runParallelPipeline, ownRc] using h

theorem reports_runExtractionPhase :
    Reports env.flag env.extractionReads env.extractionFails env.runExtractionPhase := by
  have hseq : Reports env.flag (env.seqReads seqPasses) false env.runSequentialPipeline :=
    reports_seqLoop seqPasses (by simp [seqPasses, ownRc])
  have hstruct := reports_heed_ignored env (p := .passStructure) rfl
  unfold runExtractionPhase extractionReads extractionFails
  cases env.parallel env.fileCount with
  | true => simpa using hstruct.andThen reports_runParallelPipeline.heed
  | false => simpa using hstruct.andThen hseq.heed

theorem unlessRaised_apply (m : Stage DbFile Int) (s : Progress DbFile) :
    (do if ← env.flag.check then pure 0 else m : Stage DbFile Int) s =
      if env.flag.raised s.reads then
        ((0 : Int), { s with reads := s.reads + 1, failed := true })
      else m { s with reads := s.reads + 1 } := by
  rw [Stage.bind_apply]
  by_cases h : (env.flag.check s).1 = true
  · have hr : env.flag.raised s.reads = true := h
    rw [if_pos h, if_pos hr]
    simp [Stage.pure_apply, CancelFlag.check, hr]
  · have hr : env.flag.raised s.reads = false := Bool.eq_false_of_not_eq_true h
    rw [if_neg h, if_neg (by simp [hr])]
    simp [CancelFlag.check, hr]

theorem reports_runTestsAndHistory (env : Env) :
    Reports env.flag env.historyReads false env.runTestsAndHistory where
  file := fun s => by
    rw [runTestsAndHistory, CancelFlag.heed_apply, Stage.andThen_apply]
    split
    · rfl
    · rw [unlessRaised_apply]
      split <;> rfl
  done := fun s h => by
    simp only [historyReads, CancelFlag.sees_add, Bool.or_false, Bool.or_eq_false_iff] at h
    obtain ⟨⟨ht, hr, hg⟩, hl⟩ := h
    have htests := (reports_pass env .tests).done s (by simp [ht, ownRc])
    rw [runTestsAndHistory, CancelFlag.heed_apply, Stage.andThen_apply, htests]
    simp only [CancelFlag.sees_one, Nat.add_assoc] at hr hg hl
    simp [unlessRaised_apply, hr, Stage.ignored_apply, Env.pass, CancelFlag.step, hg, hl, ownRc,
      historyReads, Nat.add_assoc]
  stopped := fun s h => by
    rw [Bool.or_false] at h
    -- on every way through the flag is up at the last read
    refine CancelFlag.heed_raised ?_
    rw [Stage.andThen_apply]
    split
    · next hne =>
      refine CancelFlag.raised_of_sees (c := s.reads) (n := env.reads .tests) ?_ le_rfl
      by_contra hs
      exact hne (by simp [Env.pass, CancelFlag.step, hs, ownRc])
    · rw [unlessRaised_apply]
      split
      · next hr => exact env.flag.mono _ _ (Nat.le_succ _) hr
      · simpa [historyReads, CancelFlag.sees, Stage.ignored_apply, Env.pass, CancelFlag.step,
          Nat.add_assoc] using h

theorem pass_state (p : Pass) (s : Progress DbFile) :
    (env.pass p s).2 =
      { s with
        reads := s.reads + env.reads p
        failed := s.failed || (env.flag.sees s.reads (env.reads p) || env.ownRc p != 0) } := by
  unfold Env.pass CancelFlag.step
  cases env.flag.sees s.reads (env.reads p) <;> simp [notFound]

theorem predumpReads_cons (p : Pass) (moderateOnly : Bool) (rest : List (Pass × Bool)) :
    env.predumpReads ((p, moderateOnly) :: rest) =
      1 + (if env.skipsPredump moderateOnly then 0 else env.reads p) + env.predumpReads rest := by
  simp [predumpReads]

theorem predumpLoop_cons (p : Pass) (moderateOnly : Bool) (rest : List (Pass × Bool))
    (s : Progress DbFile) :
    env.predumpLoop ((p, moderateOnly) :: rest) s =
      if env.flag.raised s.reads then
        ((0 : Int), { s with reads := s.reads + 1, failed := true })
      else if env.skipsPredump moderateOnly then
        env.predumpLoop rest { s with reads := s.reads + 1 }
      else env.predumpLoop rest (env.pass p { s with reads := s.reads + 1 }).2 := by
  rw [predumpLoop, unlessRaised_apply]
  cases env.skipsPredump moderateOnly <;> rfl

theorem predumpLoop_file : ∀ (passes : List (Pass × Bool)) (s : Progress DbFile),
    (env.predumpLoop passes s).2.file = s.file
  | [], _ => rfl
  | (p, moderateOnly) :: rest, s => by
    rw [predumpLoop_cons]
    split
    · rfl
    · split
      · exact predumpLoop_file rest _
      · rw [predumpLoop_file rest, pass_state]

theorem predumpLoop_clear : ∀ (passes : List (Pass × Bool)) (s : Progress DbFile),
    env.flag.sees s.reads (env.predumpReads passes) = false →
      (env.predumpLoop passes s).2 =
        { s with
          reads := s.reads + env.predumpReads passes
          failed := s.failed || env.predumpFails passes }
  | [], s, _ => by simp [predumpLoop, Stage.pure_apply, predumpReads, predumpFails]
  | (p, moderateOnly) :: rest, s, h => by
    rw [predumpReads_cons] at h ⊢
    simp only [CancelFlag.sees_add, Bool.or_eq_false_iff] at h
    obtain ⟨⟨hr, hp⟩, hrest⟩ := h
    rw [CancelFlag.sees_one] at hr
    rw [predumpLoop_cons, if_neg (by simp [hr])]
    cases hskip : env.skipsPredump moderateOnly with
    | true =>
      simp only [hskip, if_true, Nat.add_zero] at hrest
      rw [if_pos rfl, predumpLoop_clear rest _ hrest]
      simp [predumpFails, hskip, Nat.add_assoc]
    | false =>
      simp only [hskip, Bool.false_eq_true, if_false, ← Nat.add_assoc] at hp hrest
      rw [if_neg (by simp), pass_state, predumpLoop_clear rest _ hrest]
      simp [predumpFails, hskip, hp, Nat.add_assoc, Bool.or_assoc]

theorem predumpLoop_stays : ∀ (passes : List (Pass × Bool)) (s : Progress DbFile),
    s.failed = true → env.flag.raised s.reads = true →
      (env.predumpLoop passes s).2.failed = true ∧
        env.flag.raised (env.predumpLoop passes s).2.reads = true
  | [], _, hf, hr => ⟨hf, hr⟩
  | (p, moderateOnly) :: rest, s, hf, hr => by
    rw [predumpLoop_cons, if_pos hr]
    exact ⟨rfl, env.flag.mono _ _ (Nat.le_succ _) hr⟩

theorem predumpLoop_raised : ∀ (passes : List (Pass × Bool)) (s : Progress DbFile),
    env.flag.sees s.reads (env.predumpReads passes) = true →
      (env.predumpLoop passes s).2.failed = true ∧
        env.flag.raised (env.predumpLoop passes s).2.reads = true
  | [], _, h => by simp [predumpReads, CancelFlag.sees] at h
  | (p, moderateOnly) :: rest, s, h => by
    rw [predumpLoop_cons]
    by_cases hr : env.flag.raised s.reads = true
    · rw [if_pos hr]
      exact ⟨rfl, env.flag.mono _ _ (Nat.le_succ _) hr⟩
    · rw [if_neg hr]
      rw [predumpReads_cons, CancelFlag.sees_add, CancelFlag.sees_add, CancelFlag.sees_one,
        Bool.eq_false_of_not_eq_true hr, Bool.false_or, Bool.or_eq_true, ← Nat.add_assoc] at h
      cases hskip : env.skipsPredump moderateOnly with
      | true =>
        rw [if_pos rfl]
        refine predumpLoop_raised rest _ ?_
        simpa [hskip, CancelFlag.sees_zero] using h
      | false =>
        rw [if_neg (by simp), pass_state]
        simp only [hskip, Bool.false_eq_true, if_false] at h
        rcases h with hp | hrest
        · exact predumpLoop_stays rest _ (by simp [hp])
            (CancelFlag.raised_of_sees hp le_rfl)
        · exact predumpLoop_raised rest _ hrest

theorem runIgnored_state : ∀ (passes : List Pass) (s : Progress DbFile),
    (env.runIgnored passes s).2 =
      { s with
        reads := s.reads + env.ignoredReads passes
        failed := s.failed || (env.flag.sees s.reads (env.ignoredReads passes) ||
          env.ignoredFails passes) }
  | [], s => by simp [runIgnored, Stage.pure_apply, ignoredReads, ignoredFails, CancelFlag.sees]
  | p :: rest, s => by
    rw [runIgnored, Stage.bind_apply, runIgnored_state rest, pass_state]
    simp only [ignoredReads, ignoredFails, List.map_cons, List.sum_cons, List.any_cons,
      CancelFlag.sees_add, Nat.add_assoc]
    congr 1
    cases s.failed <;> cases env.flag.sees s.reads (env.reads p) <;> cases env.ownRc p != 0 <;>
      simp

/-- The state of a run that has passed its first read of the flag. -/
def begun (file : DbFile) : Progress DbFile :=
  { reads := 1, failed := false, file := file }

variable (env) in
/-- The part of the run after the route is chosen. -/
def fullRun : Stage DbFile Int :=
  env.runExtractionPhase.andThen env.runPostExtraction

theorem reports_beforePredump :
    Reports env.flag (env.extractionReads + env.historyReads) env.extractionFails
      (env.runExtractionPhase.andThen env.runTestsAndHistory) := by
  simpa using reports_runExtractionPhase.andThen (reports_runTestsAndHistory env)

theorem fullRun_eq (s : Progress DbFile) :
    env.fullRun s = ((env.runExtractionPhase.andThen env.runTestsAndHistory).andThen do
      let _ ← env.runPredumpPasses
      if ← env.flag.check then pure 0 else env.dumpAndPersistHashes) s := by
  rw [Stage.andThen_assoc]
  rfl

theorem fullRun_reported (h : env.stopsReported = true) (file : DbFile) :
    (env.fullRun (begun file)).1 ≠ 0 ∧ (env.fullRun (begun file)).2.failed = true ∧
      (env.fullRun (begun file)).2.file = file := by
  have hs := reports_beforePredump.stopped (begun file) h
  rw [fullRun_eq, Stage.andThen_apply, if_pos hs.1]
  exact ⟨hs.1, hs.2, reports_beforePredump.file (begun file)⟩

theorem fullRun_predump (h : env.stopsReported = false) (file : DbFile) :
    env.fullRun (begun file) =
      (do
        let _ ← env.runPredumpPasses
        if ← env.flag.check then pure 0 else env.dumpAndPersistHashes : Stage DbFile Int)
      { reads := 1 + (env.extractionReads + env.historyReads), failed := false, file := file } := by
  have hd := reports_beforePredump.done (begun file) h
  rw [fullRun_eq, Stage.andThen_apply, hd]
  rfl

theorem fullRun_unreported (h : env.stopsReported = false) (hu : env.stopsUnreported = true)
    (file : DbFile) :
    (env.fullRun (begun file)).1 = 0 ∧ (env.fullRun (begun file)).2.failed = true ∧
      (env.fullRun (begun file)).2.file = file := by
  rw [fullRun_predump h, Stage.bind_apply, unlessRaised_apply]
  rw [stopsUnreported, CancelFlag.sees_add, CancelFlag.sees_one, Bool.or_eq_true] at hu
  cases hs : env.flag.sees (1 + (env.extractionReads + env.historyReads))
      (env.predumpReads predumpPasses) with
  | true =>
    have hr := (predumpLoop_raised predumpPasses
      { reads := 1 + (env.extractionReads + env.historyReads), failed := false, file := file }
      hs).2
    rw [runPredumpPasses, if_pos hr]
    exact ⟨rfl, rfl, predumpLoop_file _ _⟩
  | false =>
    have hc := predumpLoop_clear predumpPasses
      { reads := 1 + (env.extractionReads + env.historyReads), failed := false, file := file } hs
    have hr := hu.resolve_left (by simp [hs])
    rw [runPredumpPasses, hc, if_pos hr]
    exact ⟨rfl, rfl, rfl⟩

theorem fullRun_dumps (h : env.stopsReported = false) (hu : env.stopsUnreported = false)
    (file : DbFile) :
    ∃ reads, env.fullRun (begun file) =
      env.dumpAndPersistHashes
        { reads := reads, failed := env.predumpFails predumpPasses, file := file } := by
  rw [stopsUnreported, CancelFlag.sees_add, CancelFlag.sees_one, Bool.or_eq_false_iff] at hu
  have hc := predumpLoop_clear predumpPasses
    { reads := 1 + (env.extractionReads + env.historyReads), failed := false, file := file } hu.1
  rw [fullRun_predump h, Stage.bind_apply, unlessRaised_apply, runPredumpPasses, hc,
    if_neg (by simp [hu.2])]
  exact ⟨_, rfl⟩

theorem run_stopsFirst (h : env.stopsFirst = true) (file : DbFile) :
    (env.run file).1 ≠ 0 ∧ (env.run file).2.file = file := by
  have hrep : Reports env.flag (0 + 1) (env.discoverRc != 0 || false)
      (env.discover.andThen env.flag.cancelCode) :=
    (Reports.step 0 env.discoverRc).andThen Reports.cancelCode
  have hs := hrep.stopped { reads := 0, failed := false, file := file }
    (by simpa [stopsFirst, CancelFlag.sees, Bool.or_comm] using h)
  rw [run, cbmPipelineRun, Stage.bind_apply, if_pos hs.1]
  exact ⟨by simp [Stage.pure_apply, notFound], hrep.file _⟩

theorem run_begun (h : env.stopsFirst = false) (file : DbFile) :
    env.run file =
      if 0 ≤ (env.tryIncrementalOrDeleteDb (begun file)).1 then
        env.tryIncrementalOrDeleteDb (begun file)
      else env.fullRun (env.tryIncrementalOrDeleteDb (begun file)).2 := by
  have hrep : Reports env.flag (0 + 1) (env.discoverRc != 0 || false)
      (env.discover.andThen env.flag.cancelCode) :=
    (Reports.step 0 env.discoverRc).andThen Reports.cancelCode
  have hd := hrep.done { reads := 0, failed := false, file := file }
    (by simpa [stopsFirst, CancelFlag.sees, Bool.or_comm, and_comm] using h)
  rw [run, cbmPipelineRun, Stage.bind_apply, hd, if_neg (by simp), Stage.bind_apply]
  change (if 0 ≤ (env.tryIncrementalOrDeleteDb (begun file)).1 then
      (pure (env.tryIncrementalOrDeleteDb (begun file)).1 : Stage DbFile Int) else env.fullRun)
    (env.tryIncrementalOrDeleteDb (begun file)).2 = _
  by_cases hle : 0 ≤ (env.tryIncrementalOrDeleteDb (begun file)).1
  · rw [if_pos hle, if_pos hle]; rfl
  · rw [if_neg hle, if_neg hle]

theorem tryIncremental_valid (old : StoredDb) :
    env.tryIncrementalOrDeleteDb (begun (.valid old)) =
      match env.route (.valid old) with
      | .upToDate => ((0 : Int), begun (.valid old))
      | .rewrite => (do
          let _ ← env.runIgnored env.incrementalPasses
          let _ ← env.dumpAndPersist
          pure 0 : Stage DbFile Int) (begun (.valid old))
      | .overOld => (notFound, begun (.valid old))
      | .afterDelete => (notFound, begun .absent) := by
  unfold route tryIncrementalOrDeleteDb runIncremental
  by_cases hi : env.incremental (.valid old) = true
  · by_cases ho : env.reopens = false
    · simp [begun, hi, ho, Stage.pure_apply]
    · by_cases hc : env.changed = 0 ∧ env.deleted = 0
      · simp [begun, hi, ho, hc, Stage.pure_apply]
      · by_cases hl : env.loads = false
        · simp [begun, hi, ho, hc, hl, Stage.pure_apply]
        · simp [begun, hi, ho, hc, hl]
  · simp [begun, hi]

variable {file : DbFile}
variable {old : StoredDb}

theorem run_upToDate (h : env.stopsFirst = false) (hr : env.route (.valid old) = .upToDate) :
    env.run (.valid old) = ((0 : Int), begun (.valid old)) := by
  rw [run_begun h, tryIncremental_valid, hr]
  rfl

theorem run_overOld (h : env.stopsFirst = false) (hr : env.route (.valid old) = .overOld) :
    env.run (.valid old) = env.fullRun (begun (.valid old)) := by
  rw [run_begun h, tryIncremental_valid, hr]
  rfl

theorem run_afterDelete (h : env.stopsFirst = false) (hr : env.route (.valid old) = .afterDelete) :
    env.run (.valid old) = env.fullRun (begun .absent) := by
  rw [run_begun h, tryIncremental_valid, hr]
  rfl

theorem run_rewrite (h : env.stopsFirst = false) (hr : env.route (.valid old) = .rewrite) :
    env.run (.valid old) =
      ((0 : Int), (env.persistHashes (env.dumpToSqlite
        { reads := 1 + env.ignoredReads env.incrementalPasses
          failed := env.incrementalFails
          file := .absent }).2).2) := by
  have hs : (env.runIgnored env.incrementalPasses (begun (.valid old))).2 =
      { reads := 1 + env.ignoredReads env.incrementalPasses
        failed := env.incrementalFails
        file := .valid old } := by
    rw [runIgnored_state]
    rfl
  have hd : ∀ s, (env.dumpAndPersist s).2 =
      (env.persistHashes (env.dumpToSqlite { s with file := .absent }).2).2 := fun s => rfl
  rw [run_begun h, tryIncremental_valid, hr]
  simp only [Stage.bind_apply, hs, hd]
  rfl

theorem rewrite_failed (reads : Nat) (failed : Bool) :
    (env.persistHashes (env.dumpToSqlite
      { reads := reads, failed := failed, file := .absent }).2).2.failed =
      (failed || env.dump != .written) := by
  unfold persistHashes dumpToSqlite
  cases env.dump <;> cases env.hashStore <;> simp

theorem holdsGraph_putHashes {g : List DumpNode × List DumpEdge} (h : HoldsGraph file g)
    (rows : List FileHash) : HoldsGraph (putHashes rows (openStore file)) g := by
  obtain ⟨db, rfl, rfl⟩ := h
  refine ⟨_, rfl, ?_⟩
  split <;> rfl

theorem holdsGraph_persistHashes {s : Progress DbFile} {g : List DumpNode × List DumpEdge}
    (h : HoldsGraph s.file g) : HoldsGraph (env.persistHashes s).2.file g := by
  unfold persistHashes
  cases env.hashStore with
  | true => exact holdsGraph_putHashes h env.hashes
  | false => exact h

theorem holdsGraph_dumpToSqlite (h : env.dump = .written) (s : Progress DbFile) :
    HoldsGraph (env.dumpToSqlite s).2.file (env.nodes, env.edges) := by
  rw [dumpToSqlite, h]
  exact ⟨_, rfl, rfl⟩

theorem dumpAndPersistHashes_openFails (h : env.dump = .openFails) (s : Progress DbFile) :
    env.dumpAndPersistHashes s = (notFound, { s with failed := true }) := by
  simp [dumpAndPersistHashes, Stage.andThen_apply, dumpToSqlite, h, notFound]

theorem dumpAndPersistHashes_writeFails (h : env.dump = .writeFails) (s : Progress DbFile) :
    env.dumpAndPersistHashes s = (errWriteFailed, { s with failed := true, file := .damaged }) := by
  simp [dumpAndPersistHashes, Stage.andThen_apply, dumpToSqlite, h, errWriteFailed]

theorem dumpAndPersistHashes_written (h : env.dump = .written) (s : Progress DbFile) :
    (env.dumpAndPersistHashes s).1 = 0 ∧ (env.dumpAndPersistHashes s).2.failed = s.failed ∧
      HoldsGraph (env.dumpAndPersistHashes s).2.file (env.nodes, env.edges) := by
  have hz : (env.dumpToSqlite s).1 = 0 := by simp [dumpToSqlite, h]
  have hf : (env.dumpToSqlite s).2.failed = s.failed := by simp [dumpToSqlite, h]
  rw [dumpAndPersistHashes, Stage.andThen_apply, if_neg (by simp [hz])]
  refine ⟨rfl, ?_, holdsGraph_persistHashes (holdsGraph_dumpToSqlite h s)⟩
  rw [← hf]
  unfold persistHashes
  cases env.hashStore <;> rfl

theorem not_holds_absent (old : StoredDb) : ¬ Holds .absent old := by
  rintro ⟨db, h, -⟩
  cases h

theorem not_holds_damaged (old : StoredDb) : ¬ Holds .damaged old := by
  rintro ⟨db, h, -⟩
  cases h

theorem holds_self (old : StoredDb) : Holds (.valid old) old :=
  ⟨old, rfl, rfl, rfl, rfl⟩

theorem failsSafely_of_kept (hrc : (env.run (.valid old)).1 ≠ 0)
    (hfile : (env.run (.valid old)).2.file = .valid old) : env.FailsSafely old where
  failed := fun _ => ⟨hrc, by rw [hfile]; exact holds_self old⟩
  written := fun h => absurd h hrc

theorem newGraph_eq (h : env.route (.valid old) ≠ .upToDate) :
    env.newGraph old = (env.nodes, env.edges) :=
  if_neg h

theorem failsSafely_upToDate (h : env.stopsFirst = false) {old : StoredDb}
    (hr : env.route (.valid old) = .upToDate) : env.FailsSafely old := by
  have hrun := run_upToDate h hr
  have hg : env.newGraph old = (old.nodes, old.edges) := if_pos hr
  constructor
  · intro hf
    rw [hrun] at hf
    cases hf
  · intro _
    rw [hrun, hg]
    exact ⟨old, rfl, rfl⟩

theorem failsSafely_rewrite (h : env.stopsFirst = false) (hr : env.route (.valid old) = .rewrite) :
    env.FailsSafely old ↔ env.incrementalFails = false ∧ env.dump = .written := by
  have hrun := run_rewrite h hr
  have hfailed : (env.run (.valid old)).2.failed =
      (env.incrementalFails || env.dump != .written) := by
    rw [hrun]
    exact rewrite_failed _ _
  constructor
  · intro hs
    have hzero : (env.run (.valid old)).1 = 0 := by rw [hrun]
    have hf : (env.run (.valid old)).2.failed = false := by
      by_contra hne
      exact (hs.failed (by simpa using hne)).1 hzero
    simpa [hfailed] using hf
  · rintro ⟨hi, hd⟩
    constructor
    · intro hf
      simp [hfailed, hi, hd] at hf
    · intro _
      rw [hrun, newGraph_eq (by simp [hr])]
      exact holdsGraph_persistHashes (holdsGraph_dumpToSqlite hd _)

theorem not_failsSafely_unreported (hrun : env.run (.valid old) = env.fullRun (begun file))
    (h : env.stopsReported = false) (hu : env.stopsUnreported = true) : ¬ env.FailsSafely old := by
  intro hs
  obtain ⟨hz, hf, -⟩ := fullRun_unreported h hu file
  rw [← hrun] at hz hf
  exact (hs.failed hf).1 hz

theorem failsSafely_dumps (hrun : env.run (.valid old) = env.fullRun (begun file))
    (hroute : env.route (.valid old) ≠ .upToDate) (h : env.stopsReported = false)
    (hu : env.stopsUnreported = false) :
    env.FailsSafely old ↔
      (env.dump = .openFails ∧ Holds file old) ∨
        (env.dump = .written ∧ env.predumpFails predumpPasses = false) := by
  obtain ⟨reads, he⟩ := fullRun_dumps h hu file
  rw [he] at hrun
  cases hd : env.dump with
  | openFails =>
    rw [dumpAndPersistHashes_openFails hd] at hrun
    constructor
    · intro hs
      refine .inl ⟨rfl, ?_⟩
      simpa [hrun] using (hs.failed (by rw [hrun])).2
    · rintro (⟨-, hold⟩ | ⟨hw, -⟩)
      · refine ⟨fun _ => ⟨by simp [hrun, notFound], by simpa [hrun] using hold⟩, fun hz => ?_⟩
        simp [hrun, notFound] at hz
      · cases hw
  | writeFails =>
    rw [dumpAndPersistHashes_writeFails hd] at hrun
    constructor
    · intro hs
      refine absurd (hs.failed (by rw [hrun])).2 ?_
      rw [hrun]
      exact not_holds_damaged old
    · rintro (⟨hw, -⟩ | ⟨hw, -⟩) <;> cases hw
  | written =>
    obtain ⟨hz, hf, hg⟩ := dumpAndPersistHashes_written hd
      { reads := reads, failed := env.predumpFails predumpPasses, file := file }
    rw [← hrun] at hz hf hg
    constructor
    · intro hs
      refine .inr ⟨rfl, ?_⟩
      by_contra hne
      exact (hs.failed (hf.trans (by simpa using hne))).1 hz
    · rintro (⟨hw, -⟩ | ⟨-, hp⟩)
      · cases hw
      · refine ⟨fun hfail => ?_, fun _ => ?_⟩
        · rw [hf, hp] at hfail
          cases hfail
        · rw [newGraph_eq hroute]
          exact hg

theorem failsSafely_overOld (h : env.stopsFirst = false) (hr : env.route (.valid old) = .overOld) :
    env.FailsSafely old ↔
      env.stopsReported = true ∨
      env.stopsUnreported = false ∧
        (env.dump = .openFails ∨
          env.dump = .written ∧ env.predumpFails predumpPasses = false) := by
  have hrun := run_overOld h hr
  cases hrep : env.stopsReported with
  | true =>
    obtain ⟨hne, -, hfile⟩ := fullRun_reported hrep (.valid old)
    rw [← hrun] at hne hfile
    simpa using failsSafely_of_kept hne hfile
  | false =>
    cases hu : env.stopsUnreported with
    | true => simpa using not_failsSafely_unreported hrun hrep hu
    | false =>
      rw [failsSafely_dumps hrun (by simp [hr]) hrep hu]
      simp [holds_self]

theorem failsSafely_afterDelete (h : env.stopsFirst = false)
    (hr : env.route (.valid old) = .afterDelete) :
    env.FailsSafely old ↔
      env.stopsReported = false ∧ env.stopsUnreported = false ∧ env.dump = .written ∧
        env.predumpFails predumpPasses = false := by
  have hrun := run_afterDelete h hr
  cases hrep : env.stopsReported with
  | true =>
    obtain ⟨-, hf, hfile⟩ := fullRun_reported hrep .absent
    rw [← hrun] at hf hfile
    simp only [Bool.true_eq_false, false_and, iff_false]
    intro hs
    exact not_holds_absent old (hfile ▸ (hs.failed hf).2)
  | false =>
    cases hu : env.stopsUnreported with
    | true => simpa using not_failsSafely_unreported hrun hrep hu
    | false =>
      rw [failsSafely_dumps hrun (by simp [hr]) hrep hu]
      simp [not_holds_absent]

end Phases

/-- For every run on a valid database: it fails safely exactly on `Safe`. -/
theorem failsSafely_iff (old : StoredDb) : env.FailsSafely old ↔ env.Safe old := by
  unfold Safe
  cases h : env.stopsFirst with
  | true =>
    obtain ⟨hne, hfile⟩ := run_stopsFirst h (.valid old)
    simpa using failsSafely_of_kept hne hfile
  | false =>
    simp only [Bool.false_eq_true, false_or]
    cases hr : env.route (.valid old) with
    | upToDate => simpa using failsSafely_upToDate h hr
    | rewrite => exact failsSafely_rewrite h hr
    | overOld => exact failsSafely_overOld h hr
    | afterDelete => exact failsSafely_afterDelete h hr

/-- The flag is raised after eleven reads: one before the run looks at the database, one
after the structure pass and each of the six sequential passes, one at the end of
extraction and two around the history. -/
def lateFlag : CancelFlag where
  raised := fun i => decide (11 ≤ i)
  mono := fun i j hij h => by simp only [decide_eq_true_eq] at h ⊢; omega

/-- A small repository that has grown: one stored hash row and two files, so that the
database is deleted and indexed again.  Nothing else goes wrong. -/
def lateCancel : Env where
  flag := lateFlag
  reads := fun _ => 0
  extractRc := 0
  resolveRc := 0
  similarityRc := 0
  mode := .full
  workers := 1
  discoverRc := 0
  fileCount := 2
  checkStore := true
  reopens := true
  changed := 0
  deleted := 0
  loads := true
  dump := .written
  nodes := []
  edges := []
  hashStore := true
  hashes := []

/-- A database with one hash row. -/
def oneHash : StoredDb :=
  { project := true
    nodes := []
    edges := []
    hashes := [{ relPath := bytesOf "a.c", sha256 := [], stamp := { mtimeNs := 1, size := 1 } }]
    summary := none }

/-- The run returns zero, and the database is gone. -/
theorem lateCancel_loses :
    ¬ lateCancel.FailsSafely oneHash ∧ (lateCancel.run (.valid oneHash)).1 = 0 ∧
      (lateCancel.run (.valid oneHash)).2.file = .absent := by
  have hrun : lateCancel.run (.valid oneHash) = lateCancel.fullRun (begun .absent) :=
    run_afterDelete rfl rfl
  have hrep : lateCancel.stopsReported = false := rfl
  have hu : lateCancel.stopsUnreported = true := rfl
  obtain ⟨hz, -, hfile⟩ := fullRun_unreported hrep hu .absent
  rw [← hrun] at hz hfile
  exact ⟨not_failsSafely_unreported hrun hrep hu, hz, hfile⟩

end Env

end Pipeline
end CodebaseMemory
