import CodebaseMemory.Lib.Decimal
import CodebaseMemory.Lib.Index
import CodebaseMemory.Sqlite.Record

/-!
# The graph buffer (`src/graph_buffer/graph_buffer.c`)

Nodes and edges with the hash tables over them, the operations that change
them, and the queries.

Reading aids:
* A pointer to a node is its place in the node array, which only grows.  A
  pointer to an edge is the number of edges allocated before it; the edge array
  is a list of such pointers.  `nodeAt` and `edgeAt` are the heap.
* A NULL label, name, file path or properties string is stored as `"{}"`, by
  `heap_strdup` and by `gb_intern`, so the fields are plain strings.  Only
  `qualified_name` becomes NULL, in `cbm_gbuf_delete_by_file`.
* The intern pool, the guards against NULL arguments and failed allocations,
  and the vectors are left out.
* `sharedIds` is the value of the atomic id source, if the buffer has one, at
  the time of its next use; `Op.draw` is what other buffers take from it.
-/

namespace CodebaseMemory
namespace GraphBuffer

open Lib
open Sqlite (CStr bytesOf)

/-- `cbm_gbuf_node_t`. -/
structure Node where
  id : Int
  label : CStr
  name : CStr
  qualifiedName : Option CStr
  filePath : CStr
  startLine : Int
  endLine : Int
  propertiesJson : CStr

/-- `cbm_gbuf_edge_t`. -/
structure Edge where
  id : Int
  sourceId : Int
  targetId : Int
  type : CStr
  propertiesJson : CStr

/-- `struct cbm_gbuf`. -/
structure Gbuf where
  project : CStr
  nextId : Int
  sharedIds : Option Int
  /-- `nodes.count`; the pointers in `nodes.items` are `0, 1, ...` -/
  nodeCount : Nat
  nodeAt : Nat → Node
  nodeByQn : Table CStr Nat
  nodeById : Table CStr Nat
  nodesByLabel : Table CStr (List Nat)
  nodesByName : Table CStr (List Nat)
  /-- the number of edges allocated so far -/
  edgeCount : Nat
  edgeAt : Nat → Edge
  /-- the pointers in `edges.items` -/
  edges : List Nat
  edgeByKey : Table CStr Nat
  edgesBySourceType : Table CStr (List Nat)
  edgesByTargetType : Table CStr (List Nat)
  edgesByType : Table CStr (List Nat)

/-- The text of a missing properties string. -/
def emptyObject : CStr :=
  bytesOf "\x7b\x7d"

/-- `heap_strdup` and `gb_intern`: NULL becomes `"{}"`. -/
def heapStrdup (s : Option CStr) : CStr :=
  s.getD emptyObject

/-- What the heap holds where nothing has been allocated. -/
def noNode : Node :=
  { id := 0, label := [], name := [], qualifiedName := none, filePath := [],
    startLine := 0, endLine := 0, propertiesJson := [] }

/-- What the heap holds where nothing has been allocated. -/
def noEdge : Edge :=
  { id := 0, sourceId := 0, targetId := 0, type := [], propertiesJson := [] }

/-- `cbm_gbuf_new`, and `cbm_gbuf_new_shared_ids` if `shared` is given. -/
def cbmGbufNew (project : CStr) (shared : Option Int) : Gbuf :=
  { project := project
    nextId := 1
    sharedIds := shared
    nodeCount := 0
    nodeAt := fun _ => noNode
    nodeByQn := ∅
    nodeById := ∅
    nodesByLabel := ∅
    nodesByName := ∅
    edgeCount := 0
    edgeAt := fun _ => noEdge
    edges := []
    edgeByKey := ∅
    edgesBySourceType := ∅
    edgesByTargetType := ∅
    edgesByType := ∅ }

/-- `make_id_key`; 32 bytes hold every 64-bit number. -/
def makeIdKey (id : Int) : CStr :=
  decimal id

/-- `make_edge_key`, cut to the 127 bytes `EDGE_KEY_BUF` has room for. -/
def makeEdgeKey (src tgt : Int) (type : CStr) : CStr :=
  (decimal src ++ 58 :: (decimal tgt ++ 58 :: type)).take 127

/-- `make_src_type_key`, cut likewise. -/
def makeSrcTypeKey (src : Int) (type : CStr) : CStr :=
  (decimal src ++ 58 :: type).take 127

/-- The key of an edge in `edge_by_key`. -/
def Edge.key (e : Edge) : CStr :=
  makeEdgeKey e.sourceId e.targetId e.type

/-- The key of an edge in `edges_by_source_type`. -/
def Edge.sourceKey (e : Edge) : CStr :=
  makeSrcTypeKey e.sourceId e.type

/-- The key of an edge in `edges_by_target_type`. -/
def Edge.targetKey (e : Edge) : CStr :=
  makeSrcTypeKey e.targetId e.type

def allocNextId (g : Gbuf) : Int × Gbuf :=
  match g.sharedIds with
  | some id => (id, { g with sharedIds := some (id + 1) })
  | none => (g.nextId, { g with nextId := g.nextId + 1 })

def registerNodeInIndexes (g : Gbuf) (p : Nat) (qn : CStr) : Gbuf :=
  let n := g.nodeAt p
  { g with
    nodeByQn := g.nodeByQn.insert qn p
    nodeById := g.nodeById.insert (makeIdKey n.id) p
    nodesByLabel := pushBucket g.nodesByLabel n.label p
    nodesByName := pushBucket g.nodesByName n.name p }

/-- Allocate a node with the qualified name `qn`, push it and register it. -/
def pushNode (g : Gbuf) (n : Node) (qn : CStr) : Gbuf :=
  let p := g.nodeCount
  registerNodeInIndexes
    { g with
      nodeCount := p + 1
      nodeAt := Function.update g.nodeAt p { n with qualifiedName := some qn } } p qn

/-- The fields an update in place replaces. -/
structure NodeFields where
  label : CStr
  name : CStr
  filePath : CStr
  startLine : Int
  endLine : Int
  /-- NULL leaves the properties -/
  properties : Option CStr

/-- The update in place of `cbm_gbuf_upsert_node` and `merge_update_existing`. -/
def Node.update (n : Node) (x : NodeFields) : Node :=
  { n with
    label := x.label
    name := x.name
    filePath := x.filePath
    startLine := x.startLine
    endLine := x.endLine
    propertiesJson := x.properties.getD n.propertiesJson }

def NodeFields.node (x : NodeFields) (id : Int) : Node :=
  { id := id
    label := x.label
    name := x.name
    qualifiedName := none
    filePath := x.filePath
    startLine := x.startLine
    endLine := x.endLine
    propertiesJson := heapStrdup x.properties }

/-- Update a node of the heap. -/
def setNode (g : Gbuf) (p : Nat) (n : Node) : Gbuf :=
  { g with nodeAt := Function.update g.nodeAt p n }

/-- `cbm_gbuf_upsert_node`: the buffer and the id that is returned. -/
def cbmGbufUpsertNode (g : Gbuf) (label name : Option CStr) (qn : CStr)
    (filePath : Option CStr) (startLine endLine : Int) (properties : Option CStr) :
    Gbuf × Int :=
  let fields : NodeFields :=
    { label := heapStrdup label
      name := heapStrdup name
      filePath := heapStrdup filePath
      startLine := startLine
      endLine := endLine
      properties := properties }
  match g.nodeByQn.lookup qn with
  | some p => (setNode g p ((g.nodeAt p).update fields), (g.nodeAt p).id)
  | none =>
      let alloc := allocNextId g
      (pushNode alloc.2 (fields.node alloc.1) qn, alloc.1)

def cbmGbufFindByQn (g : Gbuf) (qn : CStr) : Option Nat :=
  g.nodeByQn.lookup qn

def cbmGbufFindById (g : Gbuf) (id : Int) : Option Nat :=
  g.nodeById.lookup (makeIdKey id)

def cbmGbufFindByLabel (g : Gbuf) (label : CStr) : List Nat :=
  bucket g.nodesByLabel label

def cbmGbufFindByName (g : Gbuf) (name : CStr) : List Nat :=
  bucket g.nodesByName name

def cbmGbufNodeCount (g : Gbuf) : Nat :=
  g.nodeByQn.keys.length

/-- The liveness test: the qualified name is not NULL and in `node_by_qn`. -/
def isLive (g : Gbuf) (p : Nat) : Bool :=
  match (g.nodeAt p).qualifiedName with
  | none => false
  | some qn => (g.nodeByQn.lookup qn).isSome

/-- `cbm_gbuf_foreach_node`: the nodes that are visited, in order. -/
def cbmGbufForeachNode (g : Gbuf) : List Nat :=
  (List.range g.nodeCount).filter (isLive g)

def registerEdgeInIndexes (g : Gbuf) (p : Nat) : Gbuf :=
  let e := g.edgeAt p
  { g with
    edgesBySourceType := pushBucket g.edgesBySourceType e.sourceKey p
    edgesByTargetType := pushBucket g.edgesByTargetType e.targetKey p
    edgesByType := pushBucket g.edgesByType e.type p }

/-- The properties of an edge after it was inserted once more: replaced, unless
NULL or `"{}"` was given. -/
def mergedProperties (old : CStr) (properties : Option CStr) : CStr :=
  match properties with
  | none => old
  | some s => if s = emptyObject then old else s

/-- Update an edge of the heap. -/
def setEdge (g : Gbuf) (p : Nat) (e : Edge) : Gbuf :=
  { g with edgeAt := Function.update g.edgeAt p e }

/-- Allocate an edge, push it and register it in the dedup index and in the
secondary ones. -/
def pushEdge (g : Gbuf) (e : Edge) : Gbuf :=
  let p := g.edgeCount
  registerEdgeInIndexes
    { g with
      edgeCount := p + 1
      edgeAt := Function.update g.edgeAt p e
      edges := g.edges ++ [p]
      edgeByKey := g.edgeByKey.insert e.key p } p

/-- `cbm_gbuf_insert_edge`: the buffer and the id that is returned. -/
def cbmGbufInsertEdge (g : Gbuf) (src tgt : Int) (type : CStr) (properties : Option CStr) :
    Gbuf × Int :=
  match g.edgeByKey.lookup (makeEdgeKey src tgt type) with
  | some p =>
      let e := g.edgeAt p
      (setEdge g p { e with propertiesJson := mergedProperties e.propertiesJson properties }, e.id)
  | none =>
      let alloc := allocNextId g
      (pushEdge alloc.2
        { id := alloc.1, sourceId := src, targetId := tgt, type := type,
          propertiesJson := heapStrdup properties }, alloc.1)

/-- `remove_edge_from_ptr_array` in the array of `key`. -/
def removeEdge (g : Gbuf) (t : Table CStr (List Nat)) (key : CStr) (id : Int) :
    Table CStr (List Nat) :=
  removeBucket t key (fun q => (g.edgeAt q).id = id)

def unindexEdge (g : Gbuf) (p : Nat) : Gbuf :=
  let e := g.edgeAt p
  { g with
    edgeByKey := g.edgeByKey.erase e.key
    edgesBySourceType := removeEdge g g.edgesBySourceType e.sourceKey e.id
    edgesByTargetType := removeEdge g g.edgesByTargetType e.targetKey e.id
    edgesByType := removeEdge g g.edgesByType e.type e.id }

/-- The test of `cascade_delete_edges`: an endpoint is in the set. -/
def touches (deleted : Table CStr Unit) (e : Edge) : Bool :=
  (deleted.lookup (makeIdKey e.sourceId)).isSome || (deleted.lookup (makeIdKey e.targetId)).isSome

/-- The loop of `cascade_delete_edges`: the buffer and the edges that are kept. -/
def cascadeLoop (deleted : Table CStr Unit) : Gbuf → List Nat → Gbuf × List Nat
  | g, [] => (g, [])
  | g, p :: ps =>
      if touches deleted (g.edgeAt p) then cascadeLoop deleted (unindexEdge g p) ps
      else
        let rest := cascadeLoop deleted g ps
        (rest.1, p :: rest.2)

def cascadeDeleteEdges (g : Gbuf) (deleted : Table CStr Unit) : Gbuf :=
  let done := cascadeLoop deleted g g.edges
  { done.1 with edges := done.2 }

def cbmGbufFindEdgesBySourceType (g : Gbuf) (src : Int) (type : CStr) : List Nat :=
  bucket g.edgesBySourceType (makeSrcTypeKey src type)

def cbmGbufFindEdgesByTargetType (g : Gbuf) (tgt : Int) (type : CStr) : List Nat :=
  bucket g.edgesByTargetType (makeSrcTypeKey tgt type)

def cbmGbufFindEdgesByType (g : Gbuf) (type : CStr) : List Nat :=
  bucket g.edgesByType type

/-- The loop of `cbm_gbuf_delete_edges_by_type`: the dedup index and the edges
that are kept. -/
def deleteTypeLoop (edgeAt : Nat → Edge) (type : CStr) :
    Table CStr Nat → List Nat → Table CStr Nat × List Nat
  | t, [] => (t, [])
  | t, p :: ps =>
      if (edgeAt p).type = type then deleteTypeLoop edgeAt type (t.erase (edgeAt p).key) ps
      else
        let rest := deleteTypeLoop edgeAt type t ps
        (rest.1, p :: rest.2)

def rebuildEdgeSecondaryIndexes (g : Gbuf) : Gbuf :=
  g.edges.foldl registerEdgeInIndexes
    { g with edgesBySourceType := ∅, edgesByTargetType := ∅, edgesByType := ∅ }

def cbmGbufDeleteEdgesByType (g : Gbuf) (type : CStr) : Gbuf :=
  let done := deleteTypeLoop g.edgeAt type g.edgeByKey g.edges
  rebuildEdgeSecondaryIndexes { g with edgeByKey := done.1, edges := done.2 }

/-- `cbm_ht_delete` with a key that may be NULL. -/
def eraseQn (t : Table CStr Nat) (qn : Option CStr) : Table CStr Nat :=
  match qn with
  | none => t
  | some q => t.erase q

/-- One round of the loop of `cbm_gbuf_delete_by_label`. -/
def deleteLabelStep (st : Gbuf × Table CStr Unit) (p : Nat) : Gbuf × Table CStr Unit :=
  let n := st.1.nodeAt p
  ({ st.1 with
      nodeByQn := eraseQn st.1.nodeByQn n.qualifiedName
      nodeById := st.1.nodeById.erase (makeIdKey n.id) },
    st.2.insert (makeIdKey n.id) ())

def cbmGbufDeleteByLabel (g : Gbuf) (label : CStr) : Gbuf :=
  let arr := bucket g.nodesByLabel label
  if arr = [] then g
  else
    let st := arr.foldl deleteLabelStep (g, ∅)
    cascadeDeleteEdges { st.1 with nodesByLabel := st.1.nodesByLabel.insert label [] } st.2

/-- `remove_node_from_ptr_array` in the array of `key`. -/
def removeNode (g : Gbuf) (t : Table CStr (List Nat)) (key : CStr) (id : Int) :
    Table CStr (List Nat) :=
  removeBucket t key (fun q => (g.nodeAt q).id = id)

/-- What `cbm_gbuf_delete_by_file` does with a node of the file. -/
def deleteNode (g : Gbuf) (p : Nat) : Gbuf :=
  let n := g.nodeAt p
  { g with
    nodesByLabel := removeNode g g.nodesByLabel n.label n.id
    nodesByName := removeNode g g.nodesByName n.name n.id
    nodeByQn := eraseQn g.nodeByQn n.qualifiedName
    nodeById := g.nodeById.erase (makeIdKey n.id)
    nodeAt := Function.update g.nodeAt p { n with qualifiedName := none } }

/-- One round of the loop of `cbm_gbuf_delete_by_file`. -/
def deleteFileStep (filePath : CStr) (st : Gbuf × Table CStr Unit) (p : Nat) :
    Gbuf × Table CStr Unit :=
  if (st.1.nodeAt p).filePath ≠ filePath then st
  else if !isLive st.1 p then st
  else (deleteNode st.1 p, st.2.insert (makeIdKey (st.1.nodeAt p).id) ())

/-- `cbm_gbuf_delete_by_file`; without a deleted node the cascade is skipped. -/
def cbmGbufDeleteByFile (g : Gbuf) (filePath : CStr) : Gbuf :=
  let st := (List.range g.nodeCount).foldl (deleteFileStep filePath) (g, ∅)
  if st.2.keys = [] then st.1 else cascadeDeleteEdges st.1 st.2

/-- What a merge passes on of a source node. -/
def Node.fields (n : Node) : NodeFields :=
  { label := n.label
    name := n.name
    filePath := n.filePath
    startLine := n.startLine
    endLine := n.endLine
    properties := some n.propertiesJson }

def mergeUpdateExisting (dst : Gbuf) (p : Nat) (sn : Node) (remap : Table CStr Int) :
    Gbuf × Table CStr Int :=
  (setNode dst p ((dst.nodeAt p).update sn.fields),
    if sn.id ≠ (dst.nodeAt p).id then remap.insert (makeIdKey sn.id) (dst.nodeAt p).id else remap)

def mergeCopyNewNode (dst : Gbuf) (sn : Node) (qn : CStr) : Gbuf :=
  let dst := pushNode dst (sn.fields.node sn.id) qn
  if sn.id ≥ dst.nextId then { dst with nextId := sn.id + 1 } else dst

/-- One round of the node loop of `cbm_gbuf_merge`. -/
def mergeNode (src : Gbuf) (st : Gbuf × Table CStr Int) (p : Nat) : Gbuf × Table CStr Int :=
  match (src.nodeAt p).qualifiedName with
  | none => st
  | some qn =>
      if (src.nodeByQn.lookup qn).isNone then st
      else
        match st.1.nodeByQn.lookup qn with
        | some existing => mergeUpdateExisting st.1 existing (src.nodeAt p) st.2
        | none => (mergeCopyNewNode st.1 (src.nodeAt p) qn, st.2)

/-- The id an endpoint of a source edge has in the destination. -/
def remapEndpoint (remap : Table CStr Int) (id : Int) : Int :=
  (remap.lookup (makeIdKey id)).getD id

/-- One round of `merge_remap_edges`. -/
def mergeEdge (src : Gbuf) (remap : Table CStr Int) (dst : Gbuf) (p : Nat) : Gbuf :=
  let se := src.edgeAt p
  (cbmGbufInsertEdge dst (remapEndpoint remap se.sourceId) (remapEndpoint remap se.targetId)
    se.type (some se.propertiesJson)).1

/-- The node loop of `cbm_gbuf_merge`. -/
def mergeNodes (dst src : Gbuf) : Gbuf × Table CStr Int :=
  (List.range src.nodeCount).foldl (mergeNode src) (dst, ∅)

def mergeRemapEdges (dst src : Gbuf) (remap : Table CStr Int) : Gbuf :=
  src.edges.foldl (mergeEdge src remap) dst

/-- `cbm_gbuf_merge`; the early return on an empty source changes nothing. -/
def cbmGbufMerge (dst src : Gbuf) : Gbuf :=
  let nodes := mergeNodes dst src
  mergeRemapEdges nodes.1 src nodes.2

/-- An operation on a buffer. -/
inductive Op where
  | upsert (label name : Option CStr) (qn : CStr) (filePath : Option CStr)
      (startLine endLine : Int) (properties : Option CStr)
  | insertEdge (src tgt : Int) (type : CStr) (properties : Option CStr)
  | deleteEdgesByType (type : CStr)
  | deleteByLabel (label : CStr)
  | deleteByFile (filePath : CStr)
  | merge (src : Gbuf)
  /-- other buffers take `k` ids from the shared source -/
  | draw (k : Nat)

/-- The buffer after an operation. -/
def Gbuf.step (g : Gbuf) : Op → Gbuf
  | .upsert label name qn filePath startLine endLine properties =>
      (cbmGbufUpsertNode g label name qn filePath startLine endLine properties).1
  | .insertEdge src tgt type properties => (cbmGbufInsertEdge g src tgt type properties).1
  | .deleteEdgesByType type => cbmGbufDeleteEdgesByType g type
  | .deleteByLabel label => cbmGbufDeleteByLabel g label
  | .deleteByFile filePath => cbmGbufDeleteByFile g filePath
  | .merge src => cbmGbufMerge g src
  | .draw k => { g with sharedIds := g.sharedIds.map (· + k) }

/-- From `g` a run reaches `g'` in which every operation meets `ok` in the
state it finds. -/
inductive Run (ok : Gbuf → Op → Prop) (g : Gbuf) : Gbuf → Prop
  | refl : Run ok g g
  | step {g' : Gbuf} {op : Op} : Run ok g g' → ok g' op → Run ok g (g'.step op)

/-- The buffers that such runs reach from a new one. -/
def Reachable (ok : Gbuf → Op → Prop) (g : Gbuf) : Prop :=
  ∃ project shared, Run ok (cbmGbufNew project shared) g

variable {ok : Gbuf → Op → Prop}
variable {g : Gbuf}

theorem Run.invariant {P : Gbuf → Prop} {g' : Gbuf} (h : Run ok g g')
    (hstep : ∀ g op, P g → ok g op → P (g.step op)) (hg : P g) : P g' := by
  induction h with
  | refl => exact hg
  | step _ hok ih => exact hstep _ _ ih hok

theorem Reachable.invariant {P : Gbuf → Prop} (h : Reachable ok g)
    (hnew : ∀ project shared, P (cbmGbufNew project shared))
    (hstep : ∀ g op, P g → ok g op → P (g.step op)) : P g := by
  obtain ⟨project, shared, hrun⟩ := h
  exact hrun.invariant hstep (hnew project shared)

theorem Reachable.step {op : Op} (h : Reachable ok g) (hok : ok g op) :
    Reachable ok (g.step op) := by
  obtain ⟨project, shared, hrun⟩ := h
  exact ⟨project, shared, hrun.step hok⟩

/-- Every operation is allowed. -/
def anyOp (_ : Gbuf) (_ : Op) : Prop :=
  True

end GraphBuffer
end CodebaseMemory
