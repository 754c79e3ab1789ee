import CodebaseMemory.GraphBuffer.NodeTables
import CodebaseMemory.Lib.Text

/-!
# Qualified names (`src/pipeline/fqn.c`)

`cbm_pipeline_fqn_compute`, `cbm_pipeline_fqn_module` and
`cbm_pipeline_fqn_folder` on byte strings, with the functions they call.  The
answers to a NULL project and to a failed allocation are left out.

A name is the project and the segments of the path, joined with dots.  So the
dots inside the segments and those between them are not told apart: what a name
determines are the *words* of the path, its segments split at their dots.
-/

namespace CodebaseMemory
namespace Pipeline

open Lib
open GraphBuffer
open Sqlite (CStr bytesOf)

/-- `'.'` -/
def dot : UInt8 := 46

/-- `'/'` -/
def slash : UInt8 := 47

/-- `'\\'` -/
def backslash : UInt8 := 92

/-- `cbm_canonicalize_drive`: the drive letter of `x:/` or `x:` is capitalised. -/
def cbmCanonicalizeDrive : CStr → CStr
  | x :: y :: rest =>
      if 97 ≤ x ∧ x ≤ 122 ∧ y = 58 ∧ (rest.head? = some slash ∨ rest = []) then
        (x - 97 + 65) :: y :: rest
      else x :: y :: rest
  | path => path

def cbmNormalizePathSep (path : CStr) : CStr :=
  cbmCanonicalizeDrive (path.map fun c => if c = backslash then slash else c)

/-- A file name without what follows its last dot. -/
def stem (name : CStr) : CStr :=
  match splitLast dot name with
  | some (a, _) => a
  | none => name

/-- `strip_file_extension`: only the last path component is cut. -/
def stripFileExtension (path : CStr) : CStr :=
  match splitLast slash path with
  | some (dir, name) => dir ++ slash :: stem name
  | none => stem path

/-- `tokenize_path`: the first `maxSegs` segments that are not empty. -/
def tokenizePath (path : CStr) (maxSegs : Nat) : List CStr :=
  ((path.splitOn slash).filter fun seg => seg ≠ []).take maxSegs

/-- `strip_init_or_index`; the segments begin with the project. -/
def stripInitOrIndex (segments : List CStr) (name : Option CStr) : List CStr :=
  if segments.length ≤ 1 then segments
  else if segments.getLast? ≠ some (bytesOf "__init__") ∧
      segments.getLast? ≠ some (bytesOf "index") then segments
  else if name.getD [] ≠ [] then segments.dropLast
  else segments

def joinSegments (segments : List CStr) : CStr :=
  join dot segments

def fqnMaxPathSegs : Nat := 254

/-- `FQN_MAX_DIR_SEGS`, which counts the project. -/
def fqnMaxDirSegs : Nat := 255

def cbmPipelineFqnCompute (project relPath : CStr) (name : Option CStr) : CStr :=
  let path := stripFileExtension (cbmNormalizePathSep relPath)
  let segments := stripInitOrIndex (project :: tokenizePath path fqnMaxPathSegs) name
  joinSegments (if name.getD [] ≠ [] then segments ++ [name.getD []] else segments)

def cbmPipelineFqnModule (project relPath : CStr) : CStr :=
  cbmPipelineFqnCompute project relPath none

def cbmPipelineFqnFolder (project relDir : CStr) : CStr :=
  joinSegments (project :: tokenizePath (cbmNormalizePathSep relDir) (fqnMaxDirSegs - 1))

/-- The name under which a file has its File node. -/
def fileQn (project relPath : CStr) : CStr :=
  cbmPipelineFqnCompute project relPath (some (bytesOf "__file__"))

/-- What a node with a name of this kind stands for. -/
inductive Entity where
  | file (relPath : CStr)
  | module (relPath : CStr)
  | folder (relDir : CStr)
deriving DecidableEq

/-- The name under which the node of an entity is upserted. -/
def Entity.qn (project : CStr) : Entity → CStr
  | .file relPath => fileQn project relPath
  | .module relPath => cbmPipelineFqnModule project relPath
  | .folder relDir => cbmPipelineFqnFolder project relDir

/-- The segments of a file path without its extension. -/
def stemSegments (relPath : CStr) : List CStr :=
  tokenizePath (stripFileExtension (cbmNormalizePathSep relPath)) fqnMaxPathSegs

/-- The segments without a last `__init__` or `index`. -/
def dropIndex (segments : List CStr) : List CStr :=
  if segments.getLast? = some (bytesOf "__init__") ∨ segments.getLast? = some (bytesOf "index") then
    segments.dropLast
  else segments

/-- The words of an entity: segments of its path, cut at their dots.  Neither
the extension nor the difference of `/` and `.` is left. -/
def Entity.words : Entity → List CStr
  | .file relPath => Lib.words dot (dropIndex (stemSegments relPath)) ++ [bytesOf "__file__"]
  | .module relPath => Lib.words dot (stemSegments relPath)
  | .folder relDir =>
      Lib.words dot (tokenizePath (cbmNormalizePathSep relDir) (fqnMaxDirSegs - 1))

theorem words_append (a b : List CStr) :
    Lib.words dot (a ++ b) = Lib.words dot a ++ Lib.words dot b :=
  List.flatMap_append

theorem words_file : Lib.words dot [bytesOf "__file__"] = [bytesOf "__file__"] := by
  decide +kernel

theorem stripInitOrIndex_named (project : CStr) (segments : List CStr) {name : Option CStr}
    (hname : name.getD [] ≠ []) :
    stripInitOrIndex (project :: segments) name = project :: dropIndex segments := by
  unfold stripInitOrIndex dropIndex
  cases segments with
  | nil => rfl
  | cons seg segments =>
      have hlong : ¬ (project :: seg :: segments).length ≤ 1 := by simp
      rw [if_neg hlong, if_pos hname, List.getLast?_cons_cons, List.dropLast_cons_cons]
      by_cases hlast : (seg :: segments).getLast? = some (bytesOf "__init__") ∨
          (seg :: segments).getLast? = some (bytesOf "index")
      · rw [if_pos hlast, if_neg]
        exact fun hne => hlast.elim hne.1 hne.2
      · rw [if_neg hlast, if_pos (not_or.mp hlast)]

theorem stripInitOrIndex_unnamed (segments : List CStr) : stripInitOrIndex segments none = segments := by
  unfold stripInitOrIndex
  simp

theorem splitOn_qn (project : CStr) (e : Entity) :
    (e.qn project).splitOn dot = project.splitOn dot ++ e.words := by
  have hcons : ∀ segments : List CStr,
      (joinSegments (project :: segments)).splitOn dot =
        project.splitOn dot ++ Lib.words dot segments := fun segments => by
    rw [joinSegments, splitOn_join (List.cons_ne_nil project segments), Lib.words,
      List.flatMap_cons, Lib.words]
  cases e with
  | file relPath =>
      have hname : (some (bytesOf "__file__")).getD [] ≠ [] := by decide +kernel
      rw [Entity.qn, fileQn, cbmPipelineFqnCompute, if_pos hname,
        stripInitOrIndex_named project _ hname, List.cons_append, hcons, words_append,
        Option.getD_some, words_file]
      rfl
  | module relPath =>
      rw [Entity.qn, cbmPipelineFqnModule, cbmPipelineFqnCompute, if_neg (by simp),
        stripInitOrIndex_unnamed, hcons]
      rfl
  | folder relDir =>
      rw [Entity.qn, cbmPipelineFqnFolder, hcons]
      rfl

theorem qn_eq_iff (project : CStr) (e e' : Entity) :
    e.qn project = e'.qn project ↔ e.words = e'.words := by
  rw [← splitOn_inj, splitOn_qn, splitOn_qn, List.append_cancel_left_eq]

def entities (files dirs : List CStr) : List Entity :=
  files.map Entity.file ++ files.map Entity.module ++ dirs.map Entity.folder

def upsertEntity (project : CStr) (fields : Entity → NodeFields) (g : Gbuf) (e : Entity) : Gbuf :=
  let x := fields e
  (cbmGbufUpsertNode g (some x.label) (some x.name) (e.qn project) (some x.filePath) x.startLine
    x.endLine x.properties).1

/-- Different entities have different names, and upserting any of them, in any
order, makes a node for each. -/
def NamesIdentify (project : CStr) (files dirs : List CStr) : Prop :=
  (∀ e ∈ entities files dirs, ∀ e' ∈ entities files dirs, e ≠ e' →
      e.qn project ≠ e'.qn project) ∧
    ∀ (fields : Entity → NodeFields) (es : List Entity), es.Nodup →
      (∀ e ∈ es, e ∈ entities files dirs) →
      (es.foldl (upsertEntity project fields) (cbmGbufNew project none)).nodeCount = es.length

section Upsert

variable {project : CStr} {fields : Entity → NodeFields}

theorem lookup_upsertEntity {g : Gbuf} {e : Entity} {qn : CStr} (hqn : e.qn project ≠ qn)
    (hnew : g.nodeByQn.lookup qn = none) :
    (upsertEntity project fields g e).nodeByQn.lookup qn = none := by
  unfold upsertEntity cbmGbufUpsertNode
  dsimp only
  cases g.nodeByQn.lookup (e.qn project) with
  | some p => exact hnew
  | none =>
      dsimp only
      rw [lookup_pushNode, if_neg (Ne.symm hqn), nodeByQn_of_nodePart (nodePart_allocNextId g)]
      exact hnew

theorem nodeCount_upsertEntity {g : Gbuf} {e : Entity}
    (hnew : g.nodeByQn.lookup (e.qn project) = none) :
    (upsertEntity project fields g e).nodeCount = g.nodeCount + 1 := by
  unfold upsertEntity cbmGbufUpsertNode
  dsimp only
  rw [hnew]
  exact congrArg (· + 1) (nodeCount_of_nodePart (nodePart_allocNextId g))

theorem nodeCount_upsertEntities (es : List Entity) :
    ∀ g : Gbuf, es.Pairwise (fun e e' => e.qn project ≠ e'.qn project) →
      (∀ e ∈ es, g.nodeByQn.lookup (e.qn project) = none) →
      (es.foldl (upsertEntity project fields) g).nodeCount = g.nodeCount + es.length := by
  induction es with
  | nil => exact fun g _ _ => rfl
  | cons e es ih =>
      intro g hpair hnew
      rw [List.pairwise_cons] at hpair
      rw [List.foldl_cons, ih _ hpair.2, nodeCount_upsertEntity (hnew e List.mem_cons_self),
        List.length_cons]
      · omega
      · intro e' he'
        exact lookup_upsertEntity (hpair.1 e' he') (hnew e' (List.mem_cons_of_mem e he'))

end Upsert

theorem namesIdentify_of_words (project : CStr) {files dirs : List CStr}
    (hwords : ∀ e ∈ entities files dirs, ∀ e' ∈ entities files dirs, e ≠ e' →
      e.words ≠ e'.words) : NamesIdentify project files dirs := by
  have hnames : ∀ e ∈ entities files dirs, ∀ e' ∈ entities files dirs, e ≠ e' →
      e.qn project ≠ e'.qn project := fun e he e' he' hne hqn =>
    hwords e he e' he' hne ((qn_eq_iff project e e').mp hqn)
  refine ⟨hnames, fun fields es hnodup hes => ?_⟩
  have hpair : es.Pairwise (fun e e' => e.qn project ≠ e'.qn project) :=
    hnodup.imp_of_mem fun he he' hne => hnames _ (hes _ he) _ (hes _ he') hne
  rw [nodeCount_upsertEntities es _ hpair (fun _ _ => rfl)]
  exact Nat.zero_add _

/-- Paths have one File name, or one Module name, if and only if they have the
same words, and the nodes of entities with different words are kept apart. -/
theorem names_follow_words (project : CStr) :
    (∀ p q : CStr, fileQn project p = fileQn project q ↔
      (Entity.file p).words = (Entity.file q).words) ∧
    (∀ p q : CStr, cbmPipelineFqnModule project p = cbmPipelineFqnModule project q ↔
      (Entity.module p).words = (Entity.module q).words) ∧
    ∀ files dirs : List CStr, (∀ e ∈ entities files dirs, ∀ e' ∈ entities files dirs, e ≠ e' →
      e.words ≠ e'.words) → NamesIdentify project files dirs := by
  refine ⟨fun p q => ?_, fun p q => ?_, fun files dirs hwords => ?_⟩
  · exact qn_eq_iff project (.file p) (.file q)
  · exact qn_eq_iff project (.module p) (.module q)
  · exact namesIdentify_of_words project hwords

theorem names_follow_words_tree :
    NamesIdentify (bytesOf "p") [bytesOf "src/a.c", bytesOf "src/index.js", bytesOf "lib/a.c"]
      [bytesOf "src", bytesOf "lib"] :=
  (names_follow_words (bytesOf "p")).2.2 _ _ (by decide +kernel)

/-- Two files that differ in the extension, a file and the index of a directory
of its name, a dot in a name and a directory, a module next to its package. -/
theorem not_names_identify :
    ¬ NamesIdentify (bytesOf "p") [bytesOf "a.c", bytesOf "a.h"] [] ∧
    ¬ NamesIdentify (bytesOf "p") [bytesOf "a.js", bytesOf "a/index.js"] [] ∧
    ¬ NamesIdentify (bytesOf "p") [bytesOf "a.b/c.py", bytesOf "a/b/c.py"] [] ∧
    ¬ NamesIdentify (bytesOf "p") [bytesOf "pkg.py"] [bytesOf "pkg"] := by
  refine ⟨fun h => ?_, fun h => ?_, fun h => ?_, fun h => ?_⟩
  · exact h.1 (.file (bytesOf "a.c")) (by decide +kernel) (.file (bytesOf "a.h"))
      (by decide +kernel) (by decide +kernel) (by decide +kernel)
  · exact h.1 (.file (bytesOf "a.js")) (by decide +kernel) (.file (bytesOf "a/index.js"))
      (by decide +kernel) (by decide +kernel) (by decide +kernel)
  · exact h.1 (.module (bytesOf "a.b/c.py")) (by decide +kernel) (.module (bytesOf "a/b/c.py"))
      (by decide +kernel) (by decide +kernel) (by decide +kernel)
  · exact h.1 (.module (bytesOf "pkg.py")) (by decide +kernel) (.folder (bytesOf "pkg"))
      (by decide +kernel) (by decide +kernel) (by decide +kernel)

end Pipeline
end CodebaseMemory
