import CodebaseMemory.GraphBuffer.Dump
import CodebaseMemory.GraphBuffer.Load
import CodebaseMemory.GraphBuffer.MergeNodes

/-!
# Incremental reindexing (`src/pipeline/pipeline_incremental.c`)

The graph part of `cbm_pipeline_run_incremental`: load the stored graph, delete
the nodes of changed and deleted files, create the File nodes, let the passes
run over the changed files, and dump.

What the passes read from the files is not modelled.  A pass reaches the buffer
by the calls of `PassCall` only, and no pass deletes; `Reindex.calls` are the
calls that `run_extract_resolve`, `cbm_pipeline_pass_k8s` and `run_postpasses`
make in a run, in their order.  The vectors are left out.

An edge into a changed file is deleted with the nodes of that file.  If its
source is in an unchanged file, it comes back only if some pass inserts it
again.
-/

namespace CodebaseMemory
namespace Pipeline

open Lib
open GraphBuffer
open Sqlite (CStr bytesOf DumpNode DumpEdge)

inductive PassCall where
  | upsert (label name : Option CStr) (qn : CStr) (filePath : Option CStr)
      (startLine endLine : Int) (properties : Option CStr)
  | insertEdge (src tgt : Int) (type : CStr) (properties : Option CStr)
  /-- a worker's buffer is merged -/
  | merge (worker : Gbuf)
  /-- `cbm_gbuf_set_next_id` -/
  | setNextId (id : Int)

/-- The buffer after a call. -/
def PassCall.run (g : Gbuf) : PassCall → Gbuf
  | .upsert label name qn filePath startLine endLine properties =>
      (cbmGbufUpsertNode g label name qn filePath startLine endLine properties).1
  | .insertEdge src tgt type properties => (cbmGbufInsertEdge g src tgt type properties).1
  | .merge worker => cbmGbufMerge g worker
  | .setNextId id => { g with nextId := id }

/-- What a run of steps 1 to 7 works on. -/
structure Reindex where
  project : CStr
  /-- the stored node rows of the project, by id -/
  nodes : List DumpNode
  /-- the stored edge rows of the project -/
  edges : List DumpEdge
  /-- the relative paths of `changed_files` -/
  changed : List CStr
  deleted : List CStr
  /-- `cbm_pipeline_fqn_compute(project, path, "__file__")` -/
  fileQn : CStr → Option CStr
  calls : List PassCall

/-- Step 1. -/
def Reindex.loaded (r : Reindex) : Gbuf :=
  cbmGbufLoadFromDb (cbmGbufNew r.project none) r.nodes r.edges

/-- Step 2: purge stale nodes. -/
def Reindex.purged (r : Reindex) : Gbuf :=
  (r.changed ++ r.deleted).foldl cbmGbufDeleteByFile r.loaded

def upsertFile (fileQn : CStr → Option CStr) (g : Gbuf) (relPath : CStr) : Gbuf :=
  match fileQn relPath with
  | none => g
  | some qn =>
      (cbmGbufUpsertNode g (some (bytesOf "File")) (some relPath) qn (some relPath) 0 0
        (some emptyObject)).1

/-- The buffer that the passes start with. -/
def Reindex.prepared (r : Reindex) : Gbuf :=
  r.changed.foldl (upsertFile r.fileQn) r.purged

/-- The buffer that is dumped. -/
def Reindex.result (r : Reindex) : Gbuf :=
  r.calls.foldl PassCall.run r.prepared

/-- The node rows of the new database. -/
def Reindex.dumpedNodes (r : Reindex) : List DumpNode :=
  (buildDumpNodes r.result r.result.nextId).rows

/-- The edge rows of the new database. -/
def Reindex.dumpedEdges (r : Reindex) (extractUrlPath : CStr → Option CStr) : List DumpEdge :=
  buildDumpEdges extractUrlPath r.result
    (buildDumpNodes r.result r.result.nextId).tempToFinal r.result.nextId

/-- A stored edge from an unchanged file to a node of a changed file that the
passes create again. -/
structure Reindex.InboundEdge (r : Reindex) (a b type : CStr) : Prop where
  stored : RowEdge r.nodes r.edges a b type
  unchanged : ∃ row, row ∈ r.nodes ∧ row.qualifiedName = some a ∧
    heapStrdup row.filePath ∉ r.changed ++ r.deleted
  changed : ∃ row, row ∈ r.nodes ∧ row.qualifiedName = some b ∧
    heapStrdup row.filePath ∈ r.changed ∧
    ∃ p, cbmGbufFindByQn r.result b = some p ∧
      (r.result.nodeAt p).filePath = heapStrdup row.filePath

/-- The edges that a call inserts: source, target and type. -/
def PassCall.inserts (g : Gbuf) : PassCall → List (Int × Int × CStr)
  | .insertEdge src tgt type _ => [(src, tgt, type)]
  | .merge worker => worker.edges.map fun p =>
      (remapEndpoint (mergeNodes g worker).2 (worker.edgeAt p).sourceId,
        remapEndpoint (mergeNodes g worker).2 (worker.edgeAt p).targetId,
        (worker.edgeAt p).type)
  | .upsert _ _ _ _ _ _ _ => []
  | .setNextId _ => []

def inserts : Gbuf → List PassCall → List (Int × Int × CStr)
  | _, [] => []
  | g, call :: calls => call.inserts g ++ inserts (call.run g) calls

/-- Some pass inserts an edge of this type from the node of `a` to that of
`b`. -/
def Reindex.Reinserted (r : Reindex) (a b type : CStr) : Prop :=
  ∃ src tgt, (src, tgt, type) ∈ inserts r.prepared r.calls ∧
    NodeName r.result src a ∧ NodeName r.result tgt b

/-- The arguments of a call are in range, and so is an id that is handed out. -/
def TypedCall (g : Gbuf) : PassCall → Prop
  | .upsert _ _ _ _ _ _ _ => InI64 g.idMark
  | .insertEdge src tgt type _ => InI64 src ∧ InI64 tgt ∧ type.length ≤ 80
  | .merge worker => TypedBuf worker
  | .setNextId _ => True

/-- Every call is in range where it is made. -/
def TypedCalls : Gbuf → List PassCall → Prop
  | _, [] => True
  | g, call :: calls => TypedCall g call ∧ TypedCalls (call.run g) calls

/-- Rows and calls are in range. -/
structure Reindex.InRange (r : Reindex) : Prop where
  stored : StoredRows r.nodes r.edges
  room : r.nodes.length + r.edges.length + r.changed.length < 2 ^ 62
  typed : TypedCalls r.prepared r.calls

/-- What the run relies on: rows and calls are in range, and the id source has
given every node of the buffer an id of its own. -/
structure Reindex.Sound (r : Reindex) : Prop extends r.InRange where
  inj : ∀ p q, Found r.result p → Found r.result q →
    (r.result.nodeAt p).id = (r.result.nodeAt q).id → p = q
  below : ∀ p, Found r.result p → (r.result.nodeAt p).id < r.result.nextId

theorem lookup_purge (files : List CStr) :
    ∀ g : Gbuf, Named g → ∀ qn p,
      (files.foldl cbmGbufDeleteByFile g).nodeByQn.lookup qn = some p →
        g.nodeByQn.lookup qn = some p ∧ (g.nodeAt p).filePath ∉ files := by
  induction files with
  | nil => exact fun g _ qn p hp => ⟨hp, List.not_mem_nil⟩
  | cons file files ih =>
      intro g hnamed qn p hp
      have hnamed' : Named (cbmGbufDeleteByFile g file) := hnamed.step (.deleteByFile file)
      obtain ⟨hlookup, hfiles⟩ := ih _ hnamed' qn p hp
      obtain ⟨hlookup', hnode⟩ := lookup_deleteByFile hnamed hlookup
      refine ⟨hlookup', ?_⟩
      rw [hnode] at hfiles
      rw [List.mem_cons, not_or]
      exact ⟨filePath_ne_of_deleteByFile hnamed hlookup, hfiles⟩

theorem idMark_deleteByFile (g : Gbuf) (file : CStr) :
    (cbmGbufDeleteByFile g file).idMark = g.idMark := by
  have hloop : ∀ (ps : List Nat) (st : Gbuf × Table CStr Unit),
      (ps.foldl (deleteFileStep file) st).1.idMark = st.1.idMark := by
    intro ps
    induction ps with
    | nil => exact fun st => rfl
    | cons p ps ih =>
        intro st
        rw [List.foldl_cons, ih]
        rcases deleteFileStep_cases file st p with ⟨hskip, -⟩ | ⟨-, hdelete⟩
        · rw [hskip]
        · rw [hdelete]
          exact idMark_of_ids rfl rfl
  unfold cbmGbufDeleteByFile
  dsimp only
  split
  · exact hloop _ _
  · exact (idMark_cascadeDeleteEdges _ _).trans (hloop _ _)

variable {k : Nat}
variable {g : Gbuf}

theorem loadInv_deleteByFile (h : LoadInv k g) (file : CStr) :
    LoadInv k (cbmGbufDeleteByFile g file) := by
  have hok : BuiltOp g (.deleteByFile file) := ⟨trivial, by simp⟩
  exact ⟨h.owned.deleteByFile file, h.built.step hok, h.closed.deleteByFile h.owned file,
    h.ids.mono le_rfl (idMark_deleteByFile g file)⟩

theorem loadInv_purge (files : List CStr) :
    ∀ g : Gbuf, LoadInv k g → LoadInv k (files.foldl cbmGbufDeleteByFile g) := by
  induction files with
  | nil => exact fun g h => h
  | cons file files ih => exact fun g h => ih _ (loadInv_deleteByFile h file)

theorem loadInv_upsertFiles (fileQn : CStr → Option CStr) (files : List CStr) :
    ∀ (k : Nat) (g : Gbuf), LoadInv k g → k + files.length < 2 ^ 62 →
      LoadInv (k + files.length) (files.foldl (upsertFile fileQn) g) ∧
        KeepsNodes g (files.foldl (upsertFile fileQn) g) ∧
        (files.foldl (upsertFile fileQn) g).edgePart = g.edgePart := by
  induction files with
  | nil => exact fun k g h _ => ⟨h, KeepsNodes.refl g, rfl⟩
  | cons file files ih =>
      intro k g h hk
      have hlen : k + (file :: files).length = k + 1 + files.length := by
        rw [List.length_cons]
        omega
      rw [hlen] at hk ⊢
      rw [List.foldl_cons]
      cases hqn : fileQn file with
      | none =>
          have hskip : upsertFile fileQn g file = g := by simp only [upsertFile, hqn]
          rw [hskip]
          exact ih (k + 1) g ⟨h.owned, h.built, h.closed, h.ids.mono (Nat.le_succ k) rfl⟩ hk
      | some qn =>
          have hstep : upsertFile fileQn g file =
              (cbmGbufUpsertNode g (some (bytesOf "File")) (some file) qn (some file) 0 0
                (some emptyObject)).1 := by
            simp only [upsertFile, hqn]
          have hinv := h.upsert (by omega) (some (bytesOf "File")) (some file) qn (some file) 0 0
            (some emptyObject)
          have hkeeps := keepsNodes_upsert h.owned.named (some (bytesOf "File")) (some file) qn
            (some file) 0 0 (some emptyObject)
          have hpart := edgePart_upsert g (some (bytesOf "File")) (some file) qn (some file) 0 0
            (some emptyObject)
          rw [← hstep] at hinv hkeeps hpart
          obtain ⟨hload, hkeeps', hpart'⟩ := ih (k + 1) _ hinv hk
          exact ⟨hload, hkeeps.trans hkeeps', hpart'.trans hpart⟩

/-- What the calls of the passes keep. -/
structure PassInv (g : Gbuf) : Prop where
  owned : Owned g
  key : KeyInv g
  ids : ∀ p, p < g.nodeCount → InI64 (g.nodeAt p).id

theorem passInv_of_loadInv (h : LoadInv k g) : PassInv g :=
  ⟨h.owned, h.built.keyInv, h.built.typed.nodes⟩

theorem PassInv.typedBuf (h : PassInv g) : TypedBuf g :=
  ⟨h.key.typed, h.ids⟩

theorem PassInv.remap_range {worker : Gbuf} (h : PassInv g) (hworker : TypedBuf worker) :
    TypedBuf (mergeNodes g worker).1 ∧
      ∀ key id, (mergeNodes g worker).2.lookup key = some id → InI64 id :=
  TypedBuf.mergeLoop hworker (List.range worker.nodeCount) (g, ∅) h.typedBuf h.owned.named
    (fun _ hs => List.mem_range.mp hs) (fun _ _ hid => absurd hid (by simp))

theorem PassInv.keyInv_mergeNodes (h : PassInv g) (worker : Gbuf) :
    KeyInv (mergeNodes g worker).1 :=
  h.key.congr (edgePart_mergeLoop worker (List.range worker.nodeCount) (g, ∅))

theorem PassInv.run {call : PassCall} (h : PassInv g) (hok : TypedCall g call) :
    PassInv (call.run g) := by
  cases call with
  | upsert label name qn filePath startLine endLine properties =>
      refine ⟨h.owned.upsert label name qn filePath startLine endLine properties, ?_, ?_⟩
      · exact h.key.congr (edgePart_upsert g label name qn filePath startLine endLine properties)
      · exact (h.typedBuf.upsert label name qn filePath startLine endLine properties hok).nodes
  | insertEdge src tgt type properties =>
      have hpart := nodePart_cbmGbufInsertEdge g src tgt type properties
      refine ⟨h.owned.congr hpart, h.key.insertEdge properties hok.1 hok.2.1 hok.2.2, ?_⟩
      exact (h.typedBuf.insertEdge h.key.bound properties hok.1 hok.2.1 hok.2.2).nodes
  | merge worker =>
      obtain ⟨hnodes, hremap⟩ := h.remap_range hok
      have hpart := nodePart_mergeRemapEdges (mergeNodes g worker).1 worker (mergeNodes g worker).2
      refine ⟨h.owned.merge worker, ?_, ?_⟩
      · exact KeyInv.mergeRemapEdges hok.edges hremap worker.edges _ (h.keyInv_mergeNodes worker)
          (fun _ hp => hp)
      · rw [PassCall.run, cbmGbufMerge, nodeCount_of_nodePart hpart, nodeAt_of_nodePart hpart]
        exact hnodes.nodes
  | setNextId id => exact ⟨h.owned.congr rfl, h.key.congr rfl, h.ids⟩

theorem PassInv.keepsNodes (h : PassInv g) (call : PassCall) : KeepsNodes g (call.run g) := by
  cases call with
  | upsert label name qn filePath startLine endLine properties =>
      exact keepsNodes_upsert h.owned.named label name qn filePath startLine endLine properties
  | insertEdge src tgt type properties =>
      exact keepsNodes_of_nodePart (nodePart_cbmGbufInsertEdge g src tgt type properties)
  | merge worker => exact keepsNodes_merge h.owned.named worker
  | setNextId id => exact keepsNodes_of_nodePart rfl

theorem edgeProps_run {call : PassCall} (h : PassInv g) (hok : TypedCall g call) {src tgt : Int}
    {type : CStr} (hsrc : InI64 src) (htgt : InI64 tgt) (htype : type.length ≤ 80) :
    (edgeProps (call.run g) src tgt type).isSome = true ↔
      (edgeProps g src tgt type).isSome = true ∨ (src, tgt, type) ∈ call.inserts g := by
  cases call with
  | upsert label name qn filePath startLine endLine properties =>
      have hpart := edgePart_upsert g label name qn filePath startLine endLine properties
      rw [PassCall.run, edgeProps_of_edgePart hpart]
      simp [PassCall.inserts]
  | insertEdge s t ty properties =>
      rw [PassCall.run, edgeProps_insertEdge h.key properties hok.1 hok.2.1 hok.2.2 hsrc htgt htype,
        PassCall.inserts, List.mem_singleton, Prod.mk.injEq, Prod.mk.injEq]
      by_cases hsame : s = src ∧ t = tgt ∧ ty = type
      · rw [if_pos hsame]
        exact iff_of_true rfl (Or.inr ⟨hsame.1.symm, hsame.2.1.symm, hsame.2.2.symm⟩)
      · rw [if_neg hsame]
        refine (or_iff_left fun hin => hsame ?_).symm
        exact ⟨hin.1.symm, hin.2.1.symm, hin.2.2.symm⟩
  | merge worker =>
      obtain ⟨-, hremap⟩ := h.remap_range hok
      have hpart := edgePart_mergeLoop worker (List.range worker.nodeCount) (g, ∅)
      have hloop := edgeProps_mergeRemapEdges hok.edges hremap hsrc htgt htype worker.edges _
        (h.keyInv_mergeNodes worker) (fun _ hp => hp)
      have hrun : edgeProps (PassCall.run g (.merge worker)) src tgt type = _ := hloop
      rw [hrun, isSome_mergedProps, mergeNodes, edgeProps_of_edgePart hpart]
      refine or_congr_right ?_
      rw [PassCall.inserts, List.mem_map]
      refine exists_congr fun p => and_congr_right fun _ => ?_
      rw [Prod.mk.injEq, Prod.mk.injEq]
      exact Iff.rfl
  | setNextId id =>
      have hsame : edgeProps (PassCall.run g (.setNextId id)) src tgt type =
        edgeProps g src tgt type := rfl
      rw [hsame]
      simp [PassCall.inserts]

theorem passes_spec (calls : List PassCall) :
    ∀ g : Gbuf, PassInv g → TypedCalls g calls →
      PassInv (calls.foldl PassCall.run g) ∧ KeepsNodes g (calls.foldl PassCall.run g) ∧
        ∀ src tgt type, InI64 src → InI64 tgt → type.length ≤ 80 →
          ((edgeProps (calls.foldl PassCall.run g) src tgt type).isSome = true ↔
            (edgeProps g src tgt type).isSome = true ∨ (src, tgt, type) ∈ inserts g calls) := by
  induction calls with
  | nil =>
      intro g h _
      exact ⟨h, KeepsNodes.refl g, fun _ _ _ _ _ _ => by simp [inserts]⟩
  | cons call calls ih =>
      intro g h hok
      obtain ⟨hinv, hkeeps, hedges⟩ := ih _ (h.run hok.1) hok.2
      refine ⟨hinv, (h.keepsNodes call).trans hkeeps, ?_⟩
      intro src tgt type hsrc htgt htype
      rw [List.foldl_cons, hedges src tgt type hsrc htgt htype,
        edgeProps_run h hok.1 hsrc htgt htype, inserts, List.mem_append, or_assoc]

theorem inserts_type (calls : List PassCall) :
    ∀ g : Gbuf, TypedCalls g calls → ∀ src tgt type, (src, tgt, type) ∈ inserts g calls →
      type.length ≤ 80 := by
  induction calls with
  | nil => exact fun g _ src tgt type hin => absurd hin List.not_mem_nil
  | cons call calls ih =>
      intro g hok src tgt type hin
      rw [inserts, List.mem_append] at hin
      rcases hin with hin | hin
      · cases call with
        | upsert label name qn filePath startLine endLine properties =>
            exact absurd hin List.not_mem_nil
        | insertEdge s t ty properties =>
            rw [PassCall.inserts, List.mem_singleton, Prod.mk.injEq, Prod.mk.injEq] at hin
            rw [hin.2.2]
            exact hok.1.2.2
        | merge worker =>
            obtain ⟨p, hp, hpair⟩ := List.mem_map.mp hin
            rw [Prod.mk.injEq, Prod.mk.injEq] at hpair
            rw [← hpair.2.2]
            exact (hok.1.edges p hp).type
        | setNextId id => exact absurd hin List.not_mem_nil
      · exact ih _ hok.2 src tgt type hin

section Kept

variable {r : Reindex}

theorem Reindex.InRange.purged (h : r.InRange) :
    LoadInv (r.nodes.length + r.edges.length) r.purged :=
  loadInv_purge (r.changed ++ r.deleted) r.loaded (load_spec h.stored r.project).1

theorem Reindex.InRange.not_found_purged (h : r.InRange) {b : CStr} {row : DumpNode}
    (hrow : row ∈ r.nodes) (hqn : row.qualifiedName = some b)
    (hfile : heapStrdup row.filePath ∈ r.changed) (p : Nat) :
    r.purged.nodeByQn.lookup b ≠ some p := by
  intro hp
  obtain ⟨hload, hfound⟩ := load_spec h.stored r.project
  obtain ⟨hlookup, hfiles⟩ := lookup_purge (r.changed ++ r.deleted) r.loaded hload.owned.named b p hp
  obtain ⟨q, hq, hqfile⟩ := hfound row hrow b hqn
  obtain rfl : q = p := Option.some.inj (hq.symm.trans hlookup)
  refine hfiles (List.mem_append_left _ ?_)
  have hnode : (r.loaded.nodeAt q).filePath = heapStrdup row.filePath := hqfile
  rw [hnode]
  exact hfile

theorem Reindex.InRange.passes (h : r.InRange) :
    PassInv r.result ∧ KeepsNodes r.purged r.result ∧
      ∀ src tgt type, InI64 src → InI64 tgt → type.length ≤ 80 →
        ((edgeProps r.result src tgt type).isSome = true ↔
          (edgeProps r.purged src tgt type).isSome = true ∨
            (src, tgt, type) ∈ inserts r.prepared r.calls) := by
  have hroom := h.room
  obtain ⟨hload, hkeeps, hpart⟩ := loadInv_upsertFiles r.fileQn r.changed _ r.purged h.purged
    hroom
  obtain ⟨hinv, hkeeps', hedges⟩ := passes_spec r.calls r.prepared (passInv_of_loadInv hload) h.typed
  refine ⟨hinv, hkeeps.trans hkeeps', ?_⟩
  intro src tgt type hsrc htgt htype
  have hprepared : edgeProps r.prepared src tgt type = edgeProps r.purged src tgt type :=
    edgeProps_of_edgePart hpart
  rw [← hprepared]
  exact hedges src tgt type hsrc htgt htype

theorem Reindex.Sound.dumpable (h : r.Sound) : Dumpable r.result :=
  ⟨h.passes.1.owned.named, fun _ => h.passes.1.owned.found, h.inj, h.below⟩

theorem Reindex.Sound.name_eq (h : r.Sound) {id : Int} {qn qn' : CStr}
    (hname : NodeName r.result id qn) (hname' : NodeName r.result id qn') : qn = qn' := by
  obtain ⟨p, hp, rfl⟩ := hname
  obtain ⟨p', hp', hid⟩ := hname'
  obtain rfl := h.inj p' p ⟨qn', hp'⟩ ⟨qn, hp⟩ hid
  have hnamed := h.passes.1.owned.named
  have hqn := (hnamed qn p' hp).2
  rw [(hnamed qn' p' hp').2] at hqn
  exact (Option.some.inj hqn).symm

end Kept

def functionRow (id : Int) (qn filePath : String) : DumpNode :=
  { id := id
    project := some (bytesOf "p")
    label := some (bytesOf "Function")
    name := some (bytesOf qn)
    qualifiedName := some (bytesOf qn)
    filePath := some (bytesOf filePath)
    startLine := 1
    endLine := 2
    properties := some emptyObject }

def edgeRow (type : String) : DumpEdge :=
  { id := 1
    project := some (bytesOf "p")
    sourceId := 1
    targetId := 2
    type := some (bytesOf type)
    properties := some emptyObject
    urlPath := some [] }

/-- The function `v` of the file `b.py` is extracted again: the node of `v`,
which gets the id 5, and the edge to it from the File node 4. -/
def extractV : List PassCall :=
  [.upsert (some (bytesOf "Function")) (some (bytesOf "v")) (bytesOf "v")
      (some (bytesOf "b.py")) 1 2 (some emptyObject),
    .insertEdge 4 5 (bytesOf "DEFINES") (some emptyObject)]

/-- A function `u` of `a.py` is joined to `v` of `b.py` by an edge of the given
type; `b.py` is touched, and `calls` are made. -/
def touched (type : String) (calls : List PassCall) : Reindex :=
  { project := bytesOf "p"
    nodes := [functionRow 1 "u" "a.py", functionRow 2 "v" "b.py"]
    edges := [edgeRow type]
    changed := [bytesOf "b.py"]
    deleted := []
    fileQn := fun _ => some (bytesOf "p.b.__file__")
    calls := calls }

/-- The similarity pass, which looks at all functions, joins `u` and `v` again. -/
def similar : Reindex :=
  touched "SIMILAR_TO" (extractV ++ [.insertEdge 1 5 (bytesOf "SIMILAR_TO") (some emptyObject)])

/-- `u` calls `v`; the resolver looks at the calls of `b.py` only. -/
def caller : Reindex :=
  touched "CALLS" extractV

theorem inboundEdge_touched (type : String) {calls : List PassCall}
    (hfound : ∃ p, cbmGbufFindByQn (touched type calls).result (bytesOf "v") = some p ∧
      ((touched type calls).result.nodeAt p).filePath = bytesOf "b.py") :
    (touched type calls).InboundEdge (bytesOf "u") (bytesOf "v") (bytesOf type) where
  stored := ⟨edgeRow type, List.mem_singleton_self _, rfl,
    ⟨functionRow 1 "u" "a.py", List.mem_cons_self, rfl, rfl⟩,
    functionRow 2 "v" "b.py", List.mem_cons_of_mem _ List.mem_cons_self, rfl, rfl⟩
  unchanged := ⟨functionRow 1 "u" "a.py", List.mem_cons_self, rfl, by
    change bytesOf "a.py" ∉ [bytesOf "b.py"]
    decide⟩
  changed := ⟨functionRow 2 "v" "b.py", List.mem_cons_of_mem _ List.mem_cons_self, rfl,
    List.mem_cons_self, hfound⟩

theorem inRange_similar : similar.InRange where
  stored :=
    { names := by decide
      types := by
        intro row hrow ty hty
        rw [List.mem_singleton.mp hrow] at hty
        rw [← Option.some.inj hty]
        decide
      size := by decide }
  room := by decide
  typed := by
    refine ⟨?_, ⟨by decide, by decide, by decide⟩, ⟨by decide, by decide, by decide⟩, trivial⟩
    change InI64 similar.prepared.idMark
    decide +kernel

theorem sound_similar : similar.Sound where
  toInRange := inRange_similar
  inj := by
    have hlt : ∀ p, Found similar.result p → p < 4 :=
      fun p hp => inRange_similar.passes.1.owned.named.lt hp
    have hids : ∀ p, p < 4 → ∀ q, q < 4 →
        (similar.result.nodeAt p).id = (similar.result.nodeAt q).id → p = q := by decide +kernel
    exact fun p q hp hq => hids p (hlt p hp) q (hlt q hq)
  below := by
    have hids : ∀ p, p < 4 → (similar.result.nodeAt p).id < similar.result.nextId := by
      decide +kernel
    exact fun p hp => hids p (inRange_similar.passes.1.owned.named.lt hp)

end Pipeline
end CodebaseMemory
