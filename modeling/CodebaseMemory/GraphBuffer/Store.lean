import CodebaseMemory.GraphBuffer.DumpExact

/-!
# Persisting a graph buffer in a store

`cbm_store_upsert_node` and `cbm_store_insert_edge` (`src/store/store.c`) over the rows of the two
tables, and the functions that write a buffer with them: `cbm_gbuf_flush_to_store`
and `cbm_gbuf_merge_into_store`.

A statement is modelled by what SQLite does with it: foreign keys are on, an id comes from
AUTOINCREMENT, and every insert of an edge evaluates `json_extract` for the
index over `url_path_gen`, which `cbm_store_drop_indexes` leaves in place.  A statement
that fails changes nothing, and the caller goes on.

What is visible in a store does not depend on ids: `nodeContents` and `edgeContents`.
-/

namespace CodebaseMemory
namespace GraphBuffer

open Lib
open Sqlite (CStr bytesOf DumpNode DumpEdge)

/-- A row of `nodes`. -/
structure NodeRow where
  id : Int
  project : CStr
  label : CStr
  name : CStr
  qualifiedName : CStr
  filePath : CStr
  startLine : Int
  endLine : Int
  properties : CStr

/-- A row of `edges`. -/
structure EdgeRow where
  id : Int
  project : CStr
  sourceId : Int
  targetId : Int
  type : CStr
  properties : CStr

/-- The tables that a buffer is written to. -/
structure Store where
  /-- the names in `projects` -/
  projects : List CStr
  nodes : List NodeRow
  edges : List EdgeRow
  /-- the last id of `nodes` that was given away -/
  nodeSeq : Int
  /-- the last id of `edges` that was given away -/
  edgeSeq : Int

/-- Ids have been given away, and edges refer to nodes. -/
structure Store.WellFormed (s : Store) : Prop where
  nonneg : 0 ≤ s.nodeSeq
  nodeIds : ∀ n, n ∈ s.nodes → n.id ≤ s.nodeSeq
  sources : ∀ e, e ∈ s.edges → ∃ n, n ∈ s.nodes ∧ n.id = e.sourceId
  targets : ∀ e, e ∈ s.edges → ∃ n, n ∈ s.nodes ∧ n.id = e.targetId

structure SqlJson where
  /-- `json_extract` does not fail -/
  accepts : CStr → Bool
  /-- `json_patch` -/
  patch : CStr → CStr → Option CStr

def safeStr (s : Option CStr) : CStr :=
  s.getD []

def safeProps : Option CStr → CStr
  | some s => if s = [] then emptyObject else s
  | none => emptyObject

/-- `CBM_STORE_ERR` -/
def storeErr : Int := -1

/-- `cbm_node_t`, as it is passed to `cbm_store_upsert_node`. -/
structure CbmNode where
  project : Option CStr
  label : Option CStr
  name : Option CStr
  qualifiedName : Option CStr
  filePath : Option CStr
  startLine : Int
  endLine : Int
  propertiesJson : Option CStr

/-- The row that is bound, with the id `id`. -/
def CbmNode.row (n : CbmNode) (id : Int) : NodeRow :=
  { id := id
    project := safeStr n.project
    label := safeStr n.label
    name := safeStr n.name
    qualifiedName := safeStr n.qualifiedName
    filePath := safeStr n.filePath
    startLine := n.startLine
    endLine := n.endLine
    properties := safeProps n.propertiesJson }

def NodeRow.conflicts (row r : NodeRow) : Bool :=
  r.project = row.project && r.qualifiedName = row.qualifiedName

/-- `cbm_store_upsert_node`: the store and the id that is returned. -/
def storeUpsertNode (s : Store) (n : CbmNode) : Store × Int :=
  let new := n.row (s.nodeSeq + 1)
  if new.project ∉ s.projects then (s, storeErr)
  else
    match s.nodes.find? new.conflicts with
    | some old =>
      ({ s with nodes := s.nodes.map fun r => if new.conflicts r then n.row r.id else r }, old.id)
    | none => ({ s with nodes := s.nodes ++ [new], nodeSeq := s.nodeSeq + 1 }, new.id)

/-- `cbm_edge_t`, as it is passed to `cbm_store_insert_edge`. -/
structure CbmEdge where
  project : Option CStr
  sourceId : Int
  targetId : Int
  type : Option CStr
  propertiesJson : Option CStr

def CbmEdge.row (e : CbmEdge) (id : Int) : EdgeRow :=
  { id := id
    project := safeStr e.project
    sourceId := e.sourceId
    targetId := e.targetId
    type := safeStr e.type
    properties := safeProps e.propertiesJson }

def EdgeRow.conflicts (row r : EdgeRow) : Bool :=
  r.sourceId = row.sourceId && r.targetId = row.targetId && r.type = row.type

/-- The foreign keys of an edge. -/
def Store.refers (s : Store) (e : EdgeRow) : Bool :=
  s.projects.contains e.project && s.nodes.any (fun n => n.id = e.sourceId) &&
    s.nodes.any (fun n => n.id = e.targetId)

/-- `cbm_store_insert_edge`: the store and the id that is returned. -/
def storeInsertEdge (sql : SqlJson) (s : Store) (e : CbmEdge) : Store × Int :=
  let new := e.row (s.edgeSeq + 1)
  if !sql.accepts new.properties || !s.refers new then (s, storeErr)
  else
    match s.edges.find? new.conflicts with
    | some old =>
      match sql.patch old.properties new.properties with
      | some merged =>
        ({ s with edges := s.edges.map fun r =>
            if new.conflicts r then { r with properties := merged } else r }, old.id)
      | none => (s, storeErr)
    | none => ({ s with edges := s.edges ++ [new], edgeSeq := s.edgeSeq + 1 }, new.id)

/-- `cbm_store_upsert_project` -/
def storeUpsertProject (s : Store) (name : CStr) : Store :=
  if name ∈ s.projects then s else { s with projects := s.projects ++ [name] }

/-- `cbm_store_delete_edges_by_project` -/
def storeDeleteEdgesByProject (s : Store) (project : CStr) : Store :=
  { s with edges := s.edges.filter fun e => e.project ≠ project }

/-- `cbm_store_delete_edges_by_type` -/
def storeDeleteEdgesByType (s : Store) (project type : CStr) : Store :=
  { s with edges := s.edges.filter fun e => !(e.project = project && e.type = type) }

/-- `cbm_store_delete_nodes_by_project`; the edges of these nodes go with them. -/
def storeDeleteNodesByProject (s : Store) (project : CStr) : Store :=
  let kept := s.nodes.filter fun n => n.project ≠ project
  { s with
    nodes := kept
    edges := s.edges.filter fun e =>
      kept.any (fun n => n.id = e.sourceId) && kept.any (fun n => n.id = e.targetId) }

/-- The node `p` of the buffer as it is passed to the store. -/
def storeNode (g : Gbuf) (p : Nat) : CbmNode :=
  let n := g.nodeAt p
  { project := some g.project
    label := some n.label
    name := some n.name
    qualifiedName := n.qualifiedName
    filePath := some n.filePath
    startLine := n.startLine
    endLine := n.endLine
    propertiesJson := some n.propertiesJson }

/-- One round of the loop over the nodes. -/
def persistNode (g : Gbuf) (st : Store × (Int → Int)) (p : Nat) : Store × (Int → Int) :=
  if isLive g p then
    let up := storeUpsertNode st.1 (storeNode g p)
    let id := (g.nodeAt p).id
    (up.1, if up.2 > 0 ∧ id < g.nextId then Function.update st.2 id up.2 else st.2)
  else st

/-- The loop over the nodes: the store, and `temp_to_real`. -/
def persistNodes (g : Gbuf) (s : Store) : Store × (Int → Int) :=
  (List.range g.nodeCount).foldl (persistNode g) (s, fun _ => 0)

/-- The edge `p` of the buffer as it is passed to the store. -/
def storeEdge (g : Gbuf) (p : Nat) (realSrc realTgt : Int) : CbmEdge :=
  { project := some g.project
    sourceId := realSrc
    targetId := realTgt
    type := some (g.edgeAt p).type
    propertiesJson := some (g.edgeAt p).propertiesJson }

/-- One round of the loop over the edges. -/
def persistEdge (sql : SqlJson) (g : Gbuf) (tempToReal : Int → Int) (s : Store) (p : Nat) : Store :=
  let realSrc := remapId tempToReal g.nextId (g.edgeAt p).sourceId
  let realTgt := remapId tempToReal g.nextId (g.edgeAt p).targetId
  if realSrc = 0 ∨ realTgt = 0 then s
  else (storeInsertEdge sql s (storeEdge g p realSrc realTgt)).1

def cbmGbufFlushToStore (sql : SqlJson) (g : Gbuf) (s : Store) : Store :=
  let wiped := storeDeleteNodesByProject
    (storeDeleteEdgesByProject (storeUpsertProject s g.project) g.project) g.project
  let nodes := persistNodes g wiped
  g.edges.foldl (persistEdge sql g nodes.2) nodes.1

def cbmGbufMergeIntoStore (sql : SqlJson) (g : Gbuf) (s : Store) : Store :=
  let nodes := persistNodes g s
  g.edges.foldl (persistEdge sql g nodes.2) nodes.1

structure NodeContent where
  label : CStr
  name : CStr
  qualifiedName : CStr
  filePath : CStr
  startLine : Int
  endLine : Int
  properties : CStr

structure EdgeContent where
  source : CStr
  target : CStr
  type : CStr
  properties : CStr

def NodeRow.content (n : NodeRow) : NodeContent :=
  { label := n.label
    name := n.name
    qualifiedName := n.qualifiedName
    filePath := n.filePath
    startLine := n.startLine
    endLine := n.endLine
    properties := n.properties }

def nodeContents (project : CStr) (nodes : List NodeRow) : Set NodeContent :=
  {c | ∃ n, n ∈ nodes ∧ n.project = project ∧ n.content = c}

def HasName (nodes : List NodeRow) (id : Int) (qn : CStr) : Prop :=
  ∃ n, n ∈ nodes ∧ n.id = id ∧ n.qualifiedName = qn

def edgeContents (project : CStr) (nodes : List NodeRow) (edges : List EdgeRow) :
    Set EdgeContent :=
  {c | ∃ e, e ∈ edges ∧ e.project = project ∧ e.type = c.type ∧ e.properties = c.properties ∧
    HasName nodes e.sourceId c.source ∧ HasName nodes e.targetId c.target}

def Visible (project : CStr) (nodes : List NodeRow) (edges : List EdgeRow) :
    Set NodeContent × Set EdgeContent :=
  (nodeContents project nodes, edgeContents project nodes edges)

def Store.visible (s : Store) (project : CStr) : Set NodeContent × Set EdgeContent :=
  Visible project s.nodes s.edges

/-- The columns that `build_node_record` writes. -/
def storedNode (n : DumpNode) : NodeRow :=
  { id := n.id
    project := n.project.getD []
    label := n.label.getD []
    name := n.name.getD []
    qualifiedName := n.qualifiedName.getD []
    filePath := n.filePath.getD []
    startLine := n.startLine
    endLine := n.endLine
    properties := n.properties.getD emptyObject }

/-- The columns that `build_edge_record` writes. -/
def storedEdge (e : DumpEdge) : EdgeRow :=
  { id := e.id
    project := e.project.getD []
    sourceId := e.sourceId
    targetId := e.targetId
    type := e.type.getD []
    properties := e.properties.getD emptyObject }

/-- The rows of the file that `cbm_gbuf_dump_to_sqlite` writes. -/
def dumpedNodes (g : Gbuf) : List NodeRow :=
  (buildDumpNodes g g.nextId).rows.map storedNode

def dumpedEdges (extractUrlPath : CStr → Option CStr) (g : Gbuf) : List EdgeRow :=
  (buildDumpEdges extractUrlPath g (buildDumpNodes g g.nextId).tempToFinal g.nextId).map storedEdge

/-- What is visible after `cbm_gbuf_dump_to_sqlite`. -/
def dumpVisible (extractUrlPath : CStr → Option CStr) (g : Gbuf) :
    Set NodeContent × Set EdgeContent :=
  Visible g.project (dumpedNodes g) (dumpedEdges extractUrlPath g)

end GraphBuffer
end CodebaseMemory
