import CodebaseMemory.Sqlite.Record
import Mathlib.Data.List.Dedup

/-!
# The store a query runs against (`src/store/store.c`)

The tables of nodes and edges, and the SELECT statements the Cypher engine
uses.  The order of the rows of a statement without ORDER BY is not specified;
here it is the order of the table.
-/

namespace CodebaseMemory
namespace Cypher

open Sqlite (CStr)

/-- `cbm_node_t`.  The columns of a stored node are there; a virtual node, which
WITH makes, has a name and a qualified name only. -/
structure Node where
  id : Int
  project : Option CStr
  label : Option CStr
  name : Option CStr
  qualifiedName : Option CStr
  filePath : Option CStr
  startLine : Int
  endLine : Int
  propertiesJson : Option CStr
deriving DecidableEq

/-- `cbm_edge_t`. -/
structure Edge where
  id : Int
  sourceId : Int
  targetId : Int
  type : CStr
  propertiesJson : Option CStr
deriving DecidableEq

/-- The tables `nodes` and `edges`, with their PRIMARY KEY and UNIQUE
constraints. -/
structure Store where
  nodes : List Node
  edges : List Edge
  nodeIds : (nodes.map Node.id).Nodup
  edgeKeys : (edges.map fun e => (e.sourceId, e.targetId, e.type)).Nodup

namespace Store

variable (s : Store)

/-- `cbm_store_find_node_by_id`. -/
def findNodeById (id : Int) : Option Node :=
  s.nodes.find? fun n => n.id = id

/-- `n.project = ?`; no row has a NULL project, and NULL equals nothing. -/
def inProject (project : Option CStr) (n : Node) : Bool :=
  project.isSome && n.project = project

/-- `cbm_store_find_nodes_by_label`. -/
def findNodesByLabel (project : Option CStr) (label : CStr) : List Node :=
  s.nodes.filter fun n => inProject project n && n.label = some label

/-- `ORDER BY n.name`: bytes in lexicographic order. -/
def nameLe (n m : Node) : Bool :=
  decide (n.name.getD [] ≤ m.name.getD [])

/-- `cbm_store_search` without other filters than the project; a NULL project is
no filter.  Without a limit all rows are returned. -/
def search (project : Option CStr) (limit : Option Nat) : List Node :=
  let rows := (s.nodes.filter fun n => project.isNone || inProject project n).mergeSort nameLe
  match limit with
  | none => rows
  | some k => rows.take k

/-- `cbm_store_find_edges_by_source`. -/
def findEdgesBySource (id : Int) : List Edge :=
  s.edges.filter fun e => e.sourceId = id

/-- `cbm_store_find_edges_by_target`. -/
def findEdgesByTarget (id : Int) : List Edge :=
  s.edges.filter fun e => e.targetId = id

/-- `cbm_store_find_edges_by_source_type`. -/
def findEdgesBySourceType (id : Int) (type : CStr) : List Edge :=
  s.edges.filter fun e => e.sourceId = id && e.type = type

/-- `cbm_store_find_edges_by_target_type`. -/
def findEdgesByTargetType (id : Int) (type : CStr) : List Edge :=
  s.edges.filter fun e => e.targetId = id && e.type = type

end Store

/-- Which way a relationship is followed. -/
inductive Direction where
  | outbound
  | inbound
  | any
deriving DecidableEq

section Traversal

variable (s : Store)
variable (inbound : Bool)
variable (types : List CStr)

/-- The nodes one edge away; `types` is the list of the IN clause. -/
def bfsNext (id : Int) : List Int :=
  (s.edges.filter fun e =>
      (if inbound then e.targetId else e.sourceId) = id && e.type ∈ types).map
    fun e => if inbound then e.sourceId else e.targetId

/-- The rows of the recursive table with this `hop`; UNION drops repeated rows. -/
def bfsLevel (start : Int) : Nat → List Int
  | 0 => [start]
  | hop + 1 => ((bfsLevel start hop).flatMap (bfsNext s inbound types)).dedup

end Traversal

/-- `cbm_store_bfs`: the nodes and their hops.  Every direction but inbound is
followed outwards, and CALLS stands in for a missing list of types. -/
def cbmStoreBfs (s : Store) (start : Int) (direction : Direction) (types : List CStr)
    (maxDepth maxResults : Nat) : List (Node × Nat) :=
  match s.findNodeById start with
  | none => []
  | some _ =>
      let types := if types = [] then [Sqlite.bytesOf "CALLS"] else types
      let rows := (List.range maxDepth).flatMap fun h =>
        (bfsLevel s (direction = .inbound) types start (h + 1)).filterMap fun id =>
          (s.findNodeById id).map fun n => (n, h + 1)
      rows.take maxResults

theorem Store.findNodeById_eq_some {s : Store} {id : Int} {n : Node} :
    s.findNodeById id = some n ↔ n ∈ s.nodes ∧ n.id = id := by
  constructor
  · intro hfind
    exact ⟨List.mem_of_find?_eq_some hfind, by simpa using List.find?_some hfind⟩
  · rintro ⟨hn, hid⟩
    cases hfind : s.findNodeById id with
    | none =>
        have hmiss := List.find?_eq_none.mp hfind n hn
        exact absurd hid (by simpa using hmiss)
    | some m =>
        have hm := List.mem_of_find?_eq_some hfind
        have hmid : m.id = id := by simpa using List.find?_some hfind
        rw [List.inj_on_of_nodup_map s.nodeIds hm hn (hmid.trans hid.symm)]

end Cypher
end CodebaseMemory
