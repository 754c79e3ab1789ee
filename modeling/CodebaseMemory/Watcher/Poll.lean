import CodebaseMemory.Lib.Transition
import CodebaseMemory.Sqlite.Record
import Mathlib.Data.List.DropRight

/-!
# Polling a git project (`src/watcher/watcher.c`)

One watched project as a machine: the repository moves by itself, the watcher
polls it and runs the indexer, and the repository may move while the indexer
runs.

Reading aids:
* What git answers is part of the repository: `Repo.revParse` is the output of
  `git rev-parse HEAD`, and `status` says whether `git status --porcelain`, here
  or in a submodule, prints a line that is not empty.
* `poll_project` calls `index_fn` and waits for it.  The machine stops there
  (`Phase.indexing`), so that the repository can move; `Action.indexDone` is
  what `poll_project` does after `index_fn` has returned.
* `events`, `indexed`, `started` and `failed` are not stored by the program.
  They count the events that altered HEAD or the working tree: all so far, those
  before the last successful index started, and those before the running index
  started; `failed` says that the last index that ended has failed.
* The sums and products of `int` and `int64_t` are taken not to overflow.
-/

namespace CodebaseMemory
namespace Watcher

open Lib
open Sqlite (CStr bytesOf)

/-- `CBM_SZ_64`, the size of the buffer for a HEAD hash. -/
def headSize : Nat := 64

/-- `'\n'`. -/
def newline : UInt8 := 10

/-- `'\r'`. -/
def carriageReturn : UInt8 := 13

/-- The line that `fgets` reads, with its newline if it fits. -/
def fgets (size : Nat) (out : CStr) : Option CStr :=
  if out = [] then none
  else
    let line := out.takeWhile (· ≠ newline) ++ (out.dropWhile (· ≠ newline)).take 1
    some (line.take (size - 1))

def cutLineEnd (line : CStr) : CStr :=
  line.rdropWhile fun c => c = newline ∨ c = carriageReturn

/-- `git_head`: `none` where it returns `CBM_NOT_FOUND`; the exit status of git is not read. -/
def gitHead (revParse : CStr) : Option CStr :=
  (fgets headSize revParse).map cutLineEnd

variable {τ : Type}

/-- A repository as git shows it; `τ` stands for the content of a working tree. -/
structure Repo (τ : Type) where
  revParse : CStr
  tree : τ
deriving DecidableEq

inductive RepoEvent (τ : Type) where
  | commit (revParse : CStr)
  | checkout (revParse : CStr) (tree : τ)
  | edit (tree : τ)
  | revert (tree : τ)
deriving DecidableEq

def Repo.after (r : Repo τ) : RepoEvent τ → Repo τ
  | .commit revParse => { r with revParse := revParse }
  | .checkout revParse tree => { revParse := revParse, tree := tree }
  | .edit tree => { r with tree := tree }
  | .revert tree => { r with tree := tree }

def pollBaseMs : Int := 5000

def pollMaxMs : Int := 60000

/-- `US_PER_MS`; despite its name, the nanoseconds of a millisecond. -/
def usPerMs : Int := 1000000

/-- `cbm_watcher_poll_interval_ms`. -/
def pollIntervalMs (fileCount : Nat) : Int :=
  let ms := pollBaseMs + (fileCount / 500 : Nat) * 1000
  if ms > pollMaxMs then pollMaxMs else ms

/-- `project_state_t`, without its name and root path. -/
structure ProjectState where
  lastHead : CStr
  isGit : Bool
  baselineDone : Bool
  fileCount : Nat
  intervalMs : Int
  nextPollNs : Int
deriving DecidableEq

def stateNew : ProjectState :=
  { lastHead := [], isGit := false, baselineDone := false, fileCount := 0,
    intervalMs := pollBaseMs, nextPollNs := 0 }

/-- What the calls of `init_baseline` and of the end of `poll_project` find besides HEAD:
`stat` of the root, `is_git_repo`, `git_file_count` and `now_ns`. -/
structure Probe where
  rootExists : Bool
  isGitRepo : Bool
  fileCount : Nat
  nowNs : Int
deriving DecidableEq

/-- `git_head` with `last_head` as its buffer, which it leaves as it is if it fails. -/
def ProjectState.readHead (p : ProjectState) (r : Repo τ) : ProjectState :=
  { p with lastHead := (gitHead r.revParse).getD p.lastHead }

def initBaseline (p : ProjectState) (r : Repo τ) (probe : Probe) : ProjectState :=
  if !probe.rootExists then { p with baselineDone := true, isGit := false }
  else
    let p := { p with isGit := probe.isGitRepo, baselineDone := true }
    let p :=
      if probe.isGitRepo then
        { p.readHead r with
          fileCount := probe.fileCount
          intervalMs := pollIntervalMs probe.fileCount }
      else p
    { p with nextPollNs := probe.nowNs + p.intervalMs * usPerMs }

/-- `check_changes`: whether a reindex is needed, and the state with the HEAD just read. -/
def checkChanges (status : Repo τ → Bool) (p : ProjectState) (r : Repo τ) : Bool × ProjectState :=
  if !p.isGit then (false, p)
  else
    match gitHead r.revParse with
    | none => (status r, p)
    | some head =>
        if p.lastHead ≠ [] ∧ head ≠ p.lastHead then (true, { p with lastHead := head })
        else (status r, { p with lastHead := head })

/-- Whether `poll_project` waits for `index_fn`, and the time of that poll. -/
inductive Phase where
  | idle
  | indexing (pollNs : Int)
deriving DecidableEq

/-- A watched project, its repository and the history of its index. -/
structure State (τ : Type) where
  project : ProjectState
  repo : Repo τ
  phase : Phase
  events : Nat
  indexed : Nat
  started : Nat
  failed : Bool
deriving DecidableEq

inductive Action (τ : Type) where
  | event (e : RepoEvent τ)
  /-- `poll_project` at the time `now` -/
  | poll (now : Int) (probe : Probe)
  /-- `index_fn` returns, with 0 if `ok` -/
  | indexDone (ok : Bool) (fileCount : Nat)
  /-- `cbm_watcher_touch` -/
  | touch
deriving DecidableEq

section Machine

variable [DecidableEq τ] (status : Repo τ → Bool) (indexFn : Bool)

/-- A repository event; one that alters neither HEAD nor the working tree does not count. -/
def applyEvent (s : State τ) (e : RepoEvent τ) : State τ :=
  { s with
    repo := s.repo.after e
    events := if s.repo.after e = s.repo then s.events else s.events + 1 }

/-- `next_poll_ns` after a poll at the time `now`. -/
def ProjectState.schedule (p : ProjectState) (now : Int) : ProjectState :=
  { p with nextPollNs := now + p.intervalMs * usPerMs }

/-- `poll_project`, up to the call of `index_fn`; `indexFn` says that there is one. -/
def pollProject (s : State τ) (now : Int) (probe : Probe) : State τ :=
  if !s.project.baselineDone then { s with project := initBaseline s.project s.repo probe }
  else if !s.project.isGit then s
  else if now < s.project.nextPollNs then s
  else
    match checkChanges status s.project s.repo with
    | (false, p) => { s with project := p.schedule now }
    | (true, p) =>
        if indexFn then { s with project := p, phase := .indexing now, started := s.events }
        else { s with project := p.schedule now }

/-- `poll_project` after `index_fn` has returned. -/
def indexReturned (s : State τ) (now : Int) (ok : Bool) (fileCount : Nat) : State τ :=
  if ok then
    let p := { s.project.readHead s.repo with
      fileCount := fileCount
      intervalMs := pollIntervalMs fileCount }
    { s with project := p.schedule now, phase := .idle, indexed := s.started, failed := false }
  else { s with project := s.project.schedule now, phase := .idle, failed := true }

/-- A step.  The thread that polls is the one that waits for `index_fn`. -/
def step (s : State τ) : Action τ → Option (State τ)
  | .event e => some (applyEvent s e)
  | .poll now probe =>
      match s.phase with
      | .idle => some (pollProject status indexFn s now probe)
      | .indexing _ => none
  | .indexDone ok fileCount =>
      match s.phase with
      | .idle => none
      | .indexing now => some (indexReturned s now ok fileCount)
  | .touch => some { s with project := { s.project with nextPollNs := 0 } }

end Machine

end Watcher
end CodebaseMemory
