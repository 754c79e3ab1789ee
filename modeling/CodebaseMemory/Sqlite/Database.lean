import CodebaseMemory.Sqlite.Record
import CodebaseMemory.Sqlite.Writer
import Mathlib.Data.List.Sort

/-!
# Writing a whole database (`cbm_write_db`)

`cbm_writer_open`, `cbm_writer_append_nodes`, `cbm_writer_finalize` and what
they call: the data tables, the metadata tables, the sorted indexes, and at the
end page 1 with `sqlite_master` and the file header.

Reading aids:
* A phase takes the file and the page counter and returns them with the root
  pages it allocated.
* `qsort` of a permutation by a comparator is `List.insertionSort` of the rows
  themselves.
* Allocation failures and their error codes are left out, `ERR_SORT_FAILED` for
  a root page 0 and `ERR_MASTER_OVERFLOW` are not.
-/

namespace CodebaseMemory
namespace Sqlite

open Lib

def strcmp : CStr → CStr → Ordering
  | [], [] => .eq
  | [], _ :: _ => .lt
  | _ :: _, [] => .gt
  | a :: as, b :: bs => (compare a.toNat b.toNat).then (strcmp as bs)

/-- `strcmp` under `safe_str`. -/
def safeStrcmp (a b : Option CStr) : Ordering :=
  strcmp (a.getD []) (b.getD [])

def cmpI64 (a b : Int) : Ordering :=
  compare a b

/-- `make_sorted_perm`, applied to the rows. -/
def sortRows {α : Type} (cmp : α → α → Ordering) (rows : List α) : List α :=
  rows.insertionSort (fun a b => cmp a b ≠ .gt)

/-- The node comparators: a column, then the id. -/
def cmpNodeBy (col : DumpNode → Option CStr) (a b : DumpNode) : Ordering :=
  (safeStrcmp (col a) (col b)).then (cmpI64 a.id b.id)

def cmpNodeByLabel : DumpNode → DumpNode → Ordering := cmpNodeBy DumpNode.label
def cmpNodeByName : DumpNode → DumpNode → Ordering := cmpNodeBy DumpNode.name
def cmpNodeByFile : DumpNode → DumpNode → Ordering := cmpNodeBy DumpNode.filePath
def cmpNodeByQn : DumpNode → DumpNode → Ordering := cmpNodeBy DumpNode.qualifiedName

/-- `cmp_edge_by_source_type`, and `cmp_edge_by_proj_source_type`, which is the
same. -/
def cmpEdgeBySourceType (a b : DumpEdge) : Ordering :=
  ((cmpI64 a.sourceId b.sourceId).then (safeStrcmp a.type b.type)).then (cmpI64 a.id b.id)

/-- `cmp_edge_by_target_type`, and `cmp_edge_by_proj_target_type`, which is the
same. -/
def cmpEdgeByTargetType (a b : DumpEdge) : Ordering :=
  ((cmpI64 a.targetId b.targetId).then (safeStrcmp a.type b.type)).then (cmpI64 a.id b.id)

def cmpEdgeByType (a b : DumpEdge) : Ordering :=
  (safeStrcmp a.type b.type).then (cmpI64 a.id b.id)

/-- `cmp_edge_by_url_path`: a missing or empty url sorts first. -/
def cmpEdgeByUrlPath (a b : DumpEdge) : Ordering :=
  match a.urlPath.getD [], b.urlPath.getD [] with
  | [], [] => cmpI64 a.id b.id
  | [], _ :: _ => .lt
  | _ :: _, [] => .gt
  | ua, ub => (strcmp ua ub).then (cmpI64 a.id b.id)

def cmpEdgeBySrcTgtType (a b : DumpEdge) : Ordering :=
  (((cmpI64 a.sourceId b.sourceId).then (cmpI64 a.targetId b.targetId)).then
    (safeStrcmp a.type b.type)).then (cmpI64 a.id b.id)

def buildIndexEntry2TextRowid (col1 col2 : Option CStr) (rowid : Int) : List UInt8 :=
  indexCell (recFinalize (recAddInt (recAddText (recAddText recInit col1) col2) rowid))

def buildIndexEntryIntTextRowid (val : Int) (text : Option CStr) (rowid : Int) : List UInt8 :=
  indexCell (recFinalize (recAddInt (recAddText (recAddInt recInit val) text) rowid))

def buildIndexEntryTextIntTextRowid (t1 : Option CStr) (val : Int) (t2 : Option CStr)
    (rowid : Int) : List UInt8 :=
  indexCell (recFinalize
    (recAddInt (recAddText (recAddInt (recAddText recInit t1) val) t2) rowid))

def buildIndexEntryUnique2IntTextRowid (v1 v2 : Int) (text : Option CStr) (rowid : Int) :
    List UInt8 :=
  indexCell (recFinalize
    (recAddInt (recAddText (recAddInt (recAddInt recInit v1) v2) text) rowid))

def ecellSource (e : DumpEdge) : List UInt8 :=
  buildIndexEntryIntTextRowid e.sourceId e.type e.id

def ecellTarget (e : DumpEdge) : List UInt8 :=
  buildIndexEntryIntTextRowid e.targetId e.type e.id

def ecellType (e : DumpEdge) : List UInt8 :=
  buildIndexEntry2TextRowid e.project e.type e.id

def ecellProjTargetType (e : DumpEdge) : List UInt8 :=
  buildIndexEntryTextIntTextRowid e.project e.targetId e.type e.id

def ecellProjSourceType (e : DumpEdge) : List UInt8 :=
  buildIndexEntryTextIntTextRowid e.project e.sourceId e.type e.id

def ecellSrcTgtType (e : DumpEdge) : List UInt8 :=
  buildIndexEntryUnique2IntTextRowid e.sourceId e.targetId e.type e.id

/-- `ecell_url_path`: a missing or empty url is stored as NULL. -/
def ecellUrlPath (e : DumpEdge) : List UInt8 :=
  let r := recAddText recInit e.project
  let r := match e.urlPath.getD [] with
    | [] => recAddNull r
    | c :: cs => recAddText r (some (c :: cs))
  indexCell (recFinalize (recAddInt r e.id))

/-- `write_one_table`: the root page, the file and the page counter. -/
def writeOneTable {α : Type} (f : File) (nextPage : Nat) (items : List α)
    (buildRec : α → List UInt8) (getId : α → Int) : Nat × File × Nat :=
  match items with
  | [] => writeTableBtree f nextPage [] false
  | _ =>
      let rows := items.map (fun item => (getId item, buildRec item))
      let done := pbFinalizeTable (addTableRows (pbInit f nextPage false) 0 rows) (lastRowid rows)
      (done.1, done.2.fp, done.2.nextPage)

structure MetadataRoots where
  projects : Nat
  fileHashes : Nat
  summaries : Nat
  sqliteSeq : Nat

/-- What `cbm_write_db` is given. -/
structure DbInput where
  project : Option CStr
  rootPath : Option CStr
  indexedAt : Option CStr
  nodes : List DumpNode
  edges : List DumpEdge
  vectors : List DumpVector
  tokenVecs : List DumpTokenVec

def lastId {α : Type} (getId : α → Int) (rows : List α) : Int :=
  (rows.getLast?.map getId).getD 0

def writeMetadataTables (f : File) (nextPage : Nat) (w : DbInput) :
    MetadataRoots × File × Nat :=
  let projects := writeTableBtree f nextPage
    [(1, buildProjectRecord w.project w.indexedAt w.rootPath)] false
  let fileHashes := writeTableBtree projects.2.1 projects.2.2 [] false
  let summaries := writeTableBtree fileHashes.2.1 fileHashes.2.2 [] false
  let seq := writeTableBtree summaries.2.1 summaries.2.2
    [(1, buildSequenceRecord (bytesOf "nodes") (lastId DumpNode.id w.nodes)),
      (2, buildSequenceRecord (bytesOf "edges") (lastId DumpEdge.id w.edges))] false
  (⟨projects.1, fileHashes.1, summaries.1, seq.1⟩, seq.2.1, seq.2.2)

/-- `build_node_index_sorted` and `build_edge_index_sorted`: the index over the
sorted rows. -/
def buildIndexSorted {α : Type} (f : File) (nextPage : Nat) (rows : List α)
    (cmp : α → α → Ordering) (cell : α → List UInt8) : Nat × File × Nat :=
  writeIndexBtree f nextPage ((sortRows cmp rows).map cell)

def nodeCell (col : DumpNode → Option CStr) (n : DumpNode) : List UInt8 :=
  buildIndexEntry2TextRowid n.project (col n) n.id

def ncolFile (n : DumpNode) : Option CStr :=
  some (n.filePath.getD [])

structure NodeIndexRoots where
  label : Nat
  name : Nat
  file : Nat
  qn : Nat

def buildNodeIndexes (f : File) (nextPage : Nat) (nodes : List DumpNode) :
    NodeIndexRoots × File × Nat :=
  let label := buildIndexSorted f nextPage nodes cmpNodeByLabel (nodeCell DumpNode.label)
  let name := buildIndexSorted label.2.1 label.2.2 nodes cmpNodeByName (nodeCell DumpNode.name)
  let file := buildIndexSorted name.2.1 name.2.2 nodes cmpNodeByFile (nodeCell ncolFile)
  let qn := buildIndexSorted file.2.1 file.2.2 nodes cmpNodeByQn
    (nodeCell DumpNode.qualifiedName)
  (⟨label.1, name.1, file.1, qn.1⟩, qn.2.1, qn.2.2)

/-- The test behind `ERR_SORT_FAILED`. -/
def NodeIndexRoots.failed (r : NodeIndexRoots) : Bool :=
  r.label = 0 ∨ r.name = 0 ∨ r.file = 0 ∨ r.qn = 0

structure EdgeIndexRoots where
  source : Nat
  target : Nat
  type : Nat
  targetType : Nat
  sourceType : Nat
  urlPath : Nat
  auto : Nat

def buildEdgeIndexes (f : File) (nextPage : Nat) (edges : List DumpEdge) :
    EdgeIndexRoots × File × Nat :=
  let source := buildIndexSorted f nextPage edges cmpEdgeBySourceType ecellSource
  let target := buildIndexSorted source.2.1 source.2.2 edges cmpEdgeByTargetType ecellTarget
  let type := buildIndexSorted target.2.1 target.2.2 edges cmpEdgeByType ecellType
  let targetType := buildIndexSorted type.2.1 type.2.2 edges cmpEdgeByTargetType
    ecellProjTargetType
  let sourceType := buildIndexSorted targetType.2.1 targetType.2.2 edges cmpEdgeBySourceType
    ecellProjSourceType
  let urlPath := buildIndexSorted sourceType.2.1 sourceType.2.2 edges cmpEdgeByUrlPath
    ecellUrlPath
  let auto := buildIndexSorted urlPath.2.1 urlPath.2.2 edges cmpEdgeBySrcTgtType
    ecellSrcTgtType
  (⟨source.1, target.1, type.1, targetType.1, sourceType.1, urlPath.1, auto.1⟩,
    auto.2.1, auto.2.2)

/-- The test behind `ERR_SORT_FAILED`. -/
def EdgeIndexRoots.failed (r : EdgeIndexRoots) : Bool :=
  r.source = 0 ∨ r.target = 0 ∨ r.type = 0 ∨ r.targetType = 0 ∨ r.sourceType = 0 ∨
    r.urlPath = 0 ∨ r.auto = 0

structure MasterEntry where
  type : String
  name : String
  tblName : String
  rootpage : Nat
  sql : Option String

def buildMasterRecord (e : MasterEntry) : List UInt8 :=
  let r := recAddText recInit (some (bytesOf e.type))
  let r := recAddText r (some (bytesOf e.name))
  let r := recAddText r (some (bytesOf e.tblName))
  let r := recAddInt r e.rootpage
  let r := match e.sql with
    | some sql => recAddText r (some (bytesOf sql))
    | none => recAddNull r
  recFinalize r

/-- The cell loop of `write_master_page1`; `none` is `ERR_MASTER_OVERFLOW`. -/
def fillMasterPage : CellArea → Int → List MasterEntry → Option CellArea
  | a, _, [] => some a
  | a, rowid, e :: es =>
      let cell := buildTableCell rowid (buildMasterRecord e)
      if (cell.length : Int) > a.available then none
      else fillMasterPage (a.add cell) (rowid + 1) es

/-- `write_sqlite_file_header`: the fields with their offsets. -/
def writeSqliteFileHeader (page1 : Memory) (totalPages : Nat) : Memory :=
  let fields : List (Nat × List UInt8) :=
    [(0, bytesOf "SQLite format 3" ++ [0]), (16, bigEndian 2 1), (18, [1]), (19, [1]),
      (20, [0]), (21, [64]), (22, [32]), (23, [32]), (24, bigEndian 4 1),
      (28, bigEndian 4 totalPages), (32, bigEndian 4 0), (36, bigEndian 4 0),
      (40, bigEndian 4 1), (44, bigEndian 4 4), (48, bigEndian 4 0), (52, bigEndian 4 0),
      (56, bigEndian 4 1), (60, bigEndian 4 0), (64, bigEndian 4 0), (68, bigEndian 4 0),
      (92, bigEndian 4 1), (96, bigEndian 4 3046000)]
  fields.foldl (fun page field => page.memcpy field.1 field.2) page1

/-- `write_master_page1`; `none` is `ERR_MASTER_OVERFLOW`. -/
def writeMasterPage1 (f : File) (master : List MasterEntry) (nextPage : Nat) : Option File :=
  (fillMasterPage (CellArea.empty 108) 1 master).map fun a =>
    f.fwrite .master 0 65536 (writeSqliteFileHeader (a.finish 100 0x0D) (nextPage - 1))

def File.size (f : File) : Nat :=
  f.writes.foldr (fun w n => max n (w.offset + w.len)) 0

def padFileToPageBoundary (f : File) (nextPage : Nat) : File :=
  let expected := (nextPage - 1) * 65536
  if f.size < expected then f.fwrite .padding (expected - 1) 1 Memory.zero else f

/-- The root pages of the data tables after the nodes. -/
structure DataRoots where
  edges : Nat
  vectors : Nat
  tokenVecs : Nat

/-- The root pages of the automatic indexes of the metadata tables. -/
structure AutoRoots where
  projects : Nat
  fileHashes : Nat
  summaries : Nat

/-- The entries of `sqlite_master`, in the order SQLite expects. -/
def masterEntries (nodesRoot : Nat) (data : DataRoots) (md : MetadataRoots)
    (ni : NodeIndexRoots) (ei : EdgeIndexRoots) (auto : AutoRoots) : List MasterEntry :=
  [ ⟨"table", "projects", "projects", md.projects,
      some ("CREATE TABLE projects (\n\t\tname TEXT PRIMARY KEY,\n\t\tindexed_at TEXT " ++
        "NOT NULL,\n\t\troot_path TEXT NOT NULL\n\t)")⟩,
    ⟨"index", "sqlite_autoindex_projects_1", "projects", auto.projects, none⟩,
    ⟨"table", "file_hashes", "file_hashes", md.fileHashes,
      some ("CREATE TABLE file_hashes (\n\t\tproject TEXT NOT NULL REFERENCES " ++
        "projects(name) ON DELETE CASCADE,\n\t\trel_path TEXT NOT NULL,\n\t\tsha256" ++
        " TEXT NOT NULL,\n\t\tmtime_ns INTEGER NOT NULL DEFAULT 0,\n\t\tsize " ++
        "INTEGER NOT NULL DEFAULT 0,\n\t\tPRIMARY KEY (project, rel_path)\n\t)")⟩,
    ⟨"index", "sqlite_autoindex_file_hashes_1", "file_hashes", auto.fileHashes, none⟩,
    ⟨"table", "nodes", "nodes", nodesRoot,
      some ("CREATE TABLE nodes (\n\t\tid INTEGER PRIMARY KEY " ++
        "AUTOINCREMENT,\n\t\tproject TEXT NOT NULL REFERENCES projects(name) ON " ++
        "DELETE CASCADE,\n\t\tlabel TEXT NOT NULL,\n\t\tname TEXT NOT " ++
        "NULL,\n\t\tqualified_name TEXT NOT NULL,\n\t\tfile_path TEXT DEFAULT " ++
        "'',\n\t\tstart_line INTEGER DEFAULT 0,\n\t\tend_line INTEGER DEFAULT " ++
        "0,\n\t\tproperties TEXT DEFAULT '\x7b\x7d',\n\t\tUNIQUE(project, " ++
        "qualified_name)\n\t)")⟩,
    ⟨"index", "sqlite_autoindex_nodes_1", "nodes", ni.qn, none⟩,
    ⟨"index", "idx_nodes_label", "nodes", ni.label,
      some "CREATE INDEX idx_nodes_label ON nodes(project, label)"⟩,
    ⟨"index", "idx_nodes_name", "nodes", ni.name,
      some "CREATE INDEX idx_nodes_name ON nodes(project, name)"⟩,
    ⟨"index", "idx_nodes_file", "nodes", ni.file,
      some "CREATE INDEX idx_nodes_file ON nodes(project, file_path)"⟩,
    ⟨"table", "edges", "edges", data.edges,
      some ("CREATE TABLE edges (\n\t\tid INTEGER PRIMARY KEY " ++
        "AUTOINCREMENT,\n\t\tproject TEXT NOT NULL REFERENCES projects(name) ON " ++
        "DELETE CASCADE,\n\t\tsource_id INTEGER NOT NULL REFERENCES nodes(id) ON " ++
        "DELETE CASCADE,\n\t\ttarget_id INTEGER NOT NULL REFERENCES nodes(id) ON " ++
        "DELETE CASCADE,\n\t\ttype TEXT NOT NULL,\n\t\tproperties TEXT DEFAULT " ++
        "'\x7b\x7d',\n\t\turl_path_gen TEXT GENERATED ALWAYS AS " ++
        "(json_extract(properties,'$.url_path')),\n\t\tUNIQUE(source_id, target_id," ++
        " type)\n\t)")⟩,
    ⟨"index", "sqlite_autoindex_edges_1", "edges", ei.auto, none⟩,
    ⟨"index", "idx_edges_source", "edges", ei.source,
      some "CREATE INDEX idx_edges_source ON edges(source_id, type)"⟩,
    ⟨"index", "idx_edges_target", "edges", ei.target,
      some "CREATE INDEX idx_edges_target ON edges(target_id, type)"⟩,
    ⟨"index", "idx_edges_type", "edges", ei.type,
      some "CREATE INDEX idx_edges_type ON edges(project, type)"⟩,
    ⟨"index", "idx_edges_target_type", "edges", ei.targetType,
      some "CREATE INDEX idx_edges_target_type ON edges(project, target_id, type)"⟩,
    ⟨"index", "idx_edges_source_type", "edges", ei.sourceType,
      some "CREATE INDEX idx_edges_source_type ON edges(project, source_id, type)"⟩,
    ⟨"index", "idx_edges_url_path", "edges", ei.urlPath,
      some "CREATE INDEX idx_edges_url_path ON edges(project, url_path_gen)"⟩,
    ⟨"table", "project_summaries", "project_summaries", md.summaries,
      some ("CREATE TABLE project_summaries (\n\t\t\tproject TEXT PRIMARY " ++
        "KEY,\n\t\t\tsummary TEXT NOT NULL,\n\t\t\tsource_hash TEXT NOT " ++
        "NULL,\n\t\t\tcreated_at TEXT NOT NULL,\n\t\t\tupdated_at TEXT NOT " ++
        "NULL\n\t\t)")⟩,
    ⟨"index", "sqlite_autoindex_project_summaries_1", "project_summaries", auto.summaries, none⟩,
    ⟨"table", "node_vectors", "node_vectors", data.vectors,
      some ("CREATE TABLE node_vectors (\n\t\tnode_id INTEGER PRIMARY KEY,\n\t\tproject" ++
        " TEXT NOT NULL,\n\t\tvector BLOB NOT NULL\n\t)")⟩,
    ⟨"table", "token_vectors", "token_vectors", data.tokenVecs,
      some ("CREATE TABLE token_vectors (\n\t\tid INTEGER PRIMARY KEY,\n\t\tproject " ++
        "TEXT NOT NULL,\n\t\ttoken TEXT NOT NULL,\n\t\tvector BLOB NOT " ++
        "NULL,\n\t\tidf INTEGER NOT NULL\n\t)")⟩,
    ⟨"table", "sqlite_sequence", "sqlite_sequence", md.sqliteSeq,
      some "CREATE TABLE sqlite_sequence(name,seq)"⟩ ]

/-- Return code, file and page counter after a write. -/
structure DbResult where
  rc : Int
  fp : File
  nextPage : Nat

def writeDataTables (f : File) (nextPage : Nat) (w : DbInput) : DataRoots × File × Nat :=
  let edges := writeOneTable f nextPage w.edges buildEdgeRecord DumpEdge.id
  let vectors := writeOneTable edges.2.1 edges.2.2 w.vectors buildVectorRecord DumpVector.nodeId
  let tokenVecs := writeOneTable vectors.2.1 vectors.2.2 w.tokenVecs buildTokenVecRecord
    DumpTokenVec.id
  (⟨edges.1, vectors.1, tokenVecs.1⟩, tokenVecs.2.1, tokenVecs.2.2)

/-- The automatic indexes of the metadata tables: one project, no file hash, no
summary. -/
def writeAutoIndexes (f : File) (nextPage : Nat) (w : DbInput) : AutoRoots × File × Nat :=
  let projects := writeIndexBtree f nextPage
    [indexCell (recFinalize (recAddInt (recAddText recInit w.project) 1))]
  let fileHashes := writeIndexBtree projects.2.1 projects.2.2 []
  let summaries := writeIndexBtree fileHashes.2.1 fileHashes.2.2 []
  (⟨projects.1, fileHashes.1, summaries.1⟩, summaries.2.1, summaries.2.2)

def finishDb (f : File) (nextPage : Nat) (master : List MasterEntry) : DbResult :=
  match writeMasterPage1 f master nextPage with
  | none => ⟨-2, f, nextPage⟩
  | some f => ⟨0, padFileToPageBoundary f nextPage, nextPage⟩

def writeDbAfterNodes (f : File) (nextPage : Nat) (w : DbInput) (nodesRoot : Nat) : DbResult :=
  let data := writeDataTables f nextPage w
  let metadata := writeMetadataTables data.2.1 data.2.2 w
  let ni := buildNodeIndexes metadata.2.1 metadata.2.2 w.nodes
  if w.nodes.length > 0 ∧ ni.1.failed then ⟨-4, ni.2.1, ni.2.2⟩
  else
    let ei := buildEdgeIndexes ni.2.1 ni.2.2 w.edges
    if w.edges.length > 0 ∧ ei.1.failed then ⟨-4, ei.2.1, ei.2.2⟩
    else
      let auto := writeAutoIndexes ei.2.1 ei.2.2 w
      finishDb auto.2.1 auto.2.2 (masterEntries nodesRoot data.1 metadata.1 ni.1 ei.1 auto.1)

/-- `cbm_db_writer_t`; the array fields are arguments of `cbm_writer_finalize`. -/
structure DbWriter where
  nextPage : Nat
  nodesPb : PageBuilder
  lastNodeRowid : Int
  nodeRowsWritten : Nat

def cbmWriterOpen : DbWriter :=
  { nextPage := 2
    nodesPb := pbInit File.empty 2 false
    lastNodeRowid := 0
    nodeRowsWritten := 0 }

/-- One round of the loop of `cbm_writer_append_nodes`. -/
def appendNode (w : DbWriter) (n : DumpNode) : DbWriter :=
  { w with
    nodesPb := pbAddTableCellWithFlush w.nodesPb n.id (buildNodeRecord n) w.lastNodeRowid
    lastNodeRowid := n.id
    nodeRowsWritten := w.nodeRowsWritten + 1 }

def cbmWriterAppendNodes (w : DbWriter) (nodes : List DumpNode) : DbWriter :=
  nodes.foldl appendNode w

def cbmWriterFinalize (w : DbWriter) (input : DbInput) : DbResult :=
  if w.nodeRowsWritten = 0 then
    let empty := writeTableBtree w.nodesPb.fp w.nextPage [] false
    writeDbAfterNodes empty.2.1 empty.2.2 input empty.1
  else
    let done := pbFinalizeTable w.nodesPb w.lastNodeRowid
    writeDbAfterNodes done.2.fp done.2.nextPage input done.1

def cbmWriteDb (input : DbInput) : DbResult :=
  cbmWriterFinalize (cbmWriterAppendNodes cbmWriterOpen input.nodes) input

end Sqlite
end CodebaseMemory
