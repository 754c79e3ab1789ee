import CodebaseMemory.GraphBuffer.RoundTrip
import CodebaseMemory.Sqlite.Reopened

/-!
# A graph and its file

`cbm_gbuf_dump_to_sqlite` writes the rows of a buffer to a file of bytes, and
`cbm_gbuf_load_from_db` gets its rows from SQLite.  Here these are the rows that
a reader of the format finds in the bytes.

The id of a row is its rowid, and `url_path_gen` is computed from the properties
when it is read.
-/

namespace CodebaseMemory
namespace GraphBuffer

open Lib
open Sqlite (CStr bytesOf DumpNode DumpEdge DumpVector DumpTokenVec DbInput Value Content contents
  nodeColumns edgeColumns cbmWriteDb readDatabase)

/-- What `cbm_gbuf_dump_to_sqlite` hands to the page writer. -/
def dumpInput (extractUrlPath : CStr → Option CStr) (rootPath indexedAt : Option CStr)
    (vectors : List DumpVector) (tokenVecs : List DumpTokenVec) (g : Gbuf) : DbInput :=
  { project := some g.project
    rootPath := rootPath
    indexedAt := indexedAt
    nodes := (dumpRows extractUrlPath g).1
    edges := (dumpRows extractUrlPath g).2
    vectors := vectors
    tokenVecs := tokenVecs }

/-- The rows of a table of a database. -/
def rowsOf (name : String) (db : List (CStr × Content)) : List (Int × List Value) :=
  match db.lookup (bytesOf name) with
  | some (.table rows) => rows
  | _ => []

def nodeOfRow : Int × List Value → Option DumpNode
  | (id, [_, .text project, .text label, .text name, .text qualifiedName, .text filePath,
      .int startLine, .int endLine, .text properties]) =>
      some
        { id := id
          project := some project
          label := some label
          name := some name
          qualifiedName := some qualifiedName
          filePath := some filePath
          startLine := startLine
          endLine := endLine
          properties := some properties }
  | _ => none

def edgeOfRow (extractUrlPath : CStr → Option CStr) : Int × List Value → Option DumpEdge
  | (id, [_, .text project, .int sourceId, .int targetId, .text type, .text properties]) =>
      some
        { id := id
          project := some project
          sourceId := sourceId
          targetId := targetId
          type := some type
          properties := some properties
          urlPath := some ((extractUrlPath properties).getD []) }
  | _ => none

/-- `SELECT ... FROM nodes WHERE project = ? ORDER BY id` -/
def selectNodes (project : CStr) (db : List (CStr × Content)) : List DumpNode :=
  ((rowsOf "nodes" db).filterMap nodeOfRow).filter fun n => n.project = some project

/-- `SELECT ... FROM edges WHERE project = ?`, in some order -/
def selectEdges (extractUrlPath : CStr → Option CStr) (project : CStr)
    (db : List (CStr × Content)) : List DumpEdge :=
  ((rowsOf "edges" db).filterMap (edgeOfRow extractUrlPath)).filter fun e =>
    e.project = some project

theorem rowsOf_cons_of_ne {name key : String} {c : Content} {db : List (CStr × Content)}
    (h : bytesOf name ≠ bytesOf key) : rowsOf name ((bytesOf key, c) :: db) = rowsOf name db := by
  rw [rowsOf, List.lookup_cons, beq_false_of_ne h]
  rfl

theorem rowsOf_cons (name : String) (rows : List (Int × List Value)) (db : List (CStr × Content)) :
    rowsOf name ((bytesOf name, .table rows) :: db) = rows := by
  rw [rowsOf, List.lookup_cons_self]

section Rows

variable {extractUrlPath : CStr → Option CStr} {project : CStr}
variable {nodes : List DumpNode} {edges : List DumpEdge} {w : DbInput}

theorem rowsOf_contents (w : DbInput) :
    rowsOf "nodes" ((contents w).map fun o => (bytesOf o.1, o.2)) =
        w.nodes.map (fun n => (n.id, nodeColumns n)) ∧
      rowsOf "edges" ((contents w).map fun o => (bytesOf o.1, o.2)) =
        w.edges.map (fun e => (e.id, edgeColumns e)) := by
  simp only [contents, List.map_cons, Sqlite.Index.content]
  constructor
  · iterate 4 refine (rowsOf_cons_of_ne (by decide)).trans ?_
    exact rowsOf_cons _ _ _
  · iterate 9 refine (rowsOf_cons_of_ne (by decide)).trans ?_
    exact rowsOf_cons _ _ _

theorem select_map {α β : Type} {f : β → Option α} {row : α → β} {p : α → Bool} {items : List α}
    (h : ∀ item ∈ items, f (row item) = some item ∧ p item = true) :
    ((items.map row).filterMap f).filter p = items := by
  induction items with
  | nil => rfl
  | cons item items ih =>
      obtain ⟨⟨hrow, hp⟩, hitems⟩ := List.forall_mem_cons.mp h
      rw [List.map_cons, List.filterMap_cons_some hrow, List.filter_cons_of_pos hp, ih hitems]

theorem GraphRows.selected (h : GraphRows extractUrlPath project nodes edges)
    (hnodes : w.nodes = nodes) (hedges : w.edges = edges) :
    selectNodes project ((contents w).map fun o => (bytesOf o.1, o.2)) = nodes ∧
      selectEdges extractUrlPath project ((contents w).map fun o => (bytesOf o.1, o.2)) =
        edges := by
  obtain ⟨hnodeRows, hedgeRows⟩ := rowsOf_contents w
  rw [selectNodes, selectEdges, hnodeRows, hedgeRows, hnodes, hedges]
  refine ⟨select_map fun row hrow => ?_, select_map fun row hrow => ?_⟩
  · obtain ⟨i, hi⟩ := List.mem_iff_getElem?.mp hrow
    obtain ⟨n, hnamed, rfl⟩ := h.nodeRows i row hi
    obtain ⟨qn, hqn⟩ := Option.ne_none_iff_exists'.mp hnamed
    refine ⟨?_, decide_eq_true rfl⟩
    simp only [nodeRow, hqn]
    rfl
  · obtain ⟨e, -, he⟩ := h.edgeRows row hrow
    rw [he]
    exact ⟨rfl, decide_eq_true rfl⟩

end Rows

/-- The file of `called`. -/
def calledInput : DbInput :=
  dumpInput (fun _ => none) none none [] [] called

theorem nextPage_called : (cbmWriteDb calledInput).nextPage ≤ 2 ^ 32 := by
  rw [Sqlite.cbmWriteDb_eq calledInput rfl, Sqlite.writeDbAfterNodes]
  dsimp only
  rw [if_neg (by decide +kernel), if_neg (by decide +kernel), Sqlite.finishDb_nextPage]
  decide +kernel

end GraphBuffer
end CodebaseMemory
