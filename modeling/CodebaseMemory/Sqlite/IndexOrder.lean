import CodebaseMemory.Lib.Compare
import CodebaseMemory.Sqlite.Database
import CodebaseMemory.Sqlite.ReadBack

/-!
# The order of the index entries

Each index of the nodes and the edges is three pieces of code that have to name
the same columns: the column list of its declaration, the comparator that its
rows are sorted by, and the builder of its cells.  `Index` puts the three
together; an entry is the declared columns of a row followed by its rowid.

SQLite orders records column by column, NULL before integers before texts, which
compare by their bytes.  `Value.pos` is the place of a value in this order.
-/

namespace CodebaseMemory
namespace Sqlite

open Lib

/-- A declared column: its name, and its value in a row of the table. -/
structure Column (α : Type) where
  name : String
  value : α → Value

/-- An index: its declared columns, and how the writer sorts and writes it. -/
structure Index (α : Type) where
  name : String
  columns : List (Column α)
  cmp : α → α → Ordering
  cell : α → List UInt8
  rowid : α → Int

/-- A text column; the row has the empty text for a null pointer. -/
def textColumn {α : Type} (name : String) (text : α → Option CStr) : Column α :=
  { name := name, value := fun row => .text ((text row).getD []) }

def intColumn {α : Type} (name : String) (int : α → Int) : Column α :=
  { name := name, value := fun row => .int (int row) }

/-- `url_path_gen`: a missing or empty url is NULL. -/
def urlPathGen : Column DumpEdge :=
  { name := "url_path_gen"
    value := fun e =>
      match e.urlPath.getD [] with
      | [] => .null
      | c :: cs => .text (c :: cs) }

section Index

variable {α : Type}

def Index.entry (ix : Index α) (row : α) : List Value :=
  ix.columns.map (·.value row) ++ [.int (ix.rowid row)]

def Index.declaration (ix : Index α) (table : String) : String :=
  "CREATE INDEX " ++ ix.name ++ " ON " ++ table ++ "(" ++
    ", ".intercalate (ix.columns.map Column.name) ++ ")"

/-- The index over some rows: the root page, the file and the page counter. -/
def Index.build (ix : Index α) (f : File) (nextPage : Nat) (rows : List α) : Nat × File × Nat :=
  writeIndexBtree f nextPage ((sortRows ix.cmp rows).map ix.cell)

end Index

def nodeProject : Column DumpNode := textColumn "project" DumpNode.project

def nodeIndex (name : String) (column : Column DumpNode) (cmp : DumpNode → DumpNode → Ordering)
    (col : DumpNode → Option CStr) : Index DumpNode :=
  { name := name
    columns := [nodeProject, column]
    cmp := cmp
    cell := nodeCell col
    rowid := DumpNode.id }

def idxNodesLabel : Index DumpNode :=
  nodeIndex "idx_nodes_label" (textColumn "label" DumpNode.label) cmpNodeByLabel DumpNode.label

def idxNodesName : Index DumpNode :=
  nodeIndex "idx_nodes_name" (textColumn "name" DumpNode.name) cmpNodeByName DumpNode.name

def idxNodesFile : Index DumpNode :=
  nodeIndex "idx_nodes_file" (textColumn "file_path" DumpNode.filePath) cmpNodeByFile ncolFile

/-- Declared by `UNIQUE(project, qualified_name)`. -/
def sqliteAutoindexNodes1 : Index DumpNode :=
  nodeIndex "sqlite_autoindex_nodes_1" (textColumn "qualified_name" DumpNode.qualifiedName)
    cmpNodeByQn DumpNode.qualifiedName

/-- The indexes of the nodes, in the order in which they are built. -/
def nodeIndexes : List (Index DumpNode) :=
  [idxNodesLabel, idxNodesName, idxNodesFile, sqliteAutoindexNodes1]

def edgeProject : Column DumpEdge := textColumn "project" DumpEdge.project
def edgeSource : Column DumpEdge := intColumn "source_id" DumpEdge.sourceId
def edgeTarget : Column DumpEdge := intColumn "target_id" DumpEdge.targetId
def edgeType : Column DumpEdge := textColumn "type" DumpEdge.type

def idxEdgesSource : Index DumpEdge :=
  ⟨"idx_edges_source", [edgeSource, edgeType], cmpEdgeBySourceType, ecellSource, DumpEdge.id⟩

def idxEdgesTarget : Index DumpEdge :=
  ⟨"idx_edges_target", [edgeTarget, edgeType], cmpEdgeByTargetType, ecellTarget, DumpEdge.id⟩

def idxEdgesType : Index DumpEdge :=
  ⟨"idx_edges_type", [edgeProject, edgeType], cmpEdgeByType, ecellType, DumpEdge.id⟩

def idxEdgesTargetType : Index DumpEdge :=
  ⟨"idx_edges_target_type", [edgeProject, edgeTarget, edgeType], cmpEdgeByTargetType,
    ecellProjTargetType, DumpEdge.id⟩

def idxEdgesSourceType : Index DumpEdge :=
  ⟨"idx_edges_source_type", [edgeProject, edgeSource, edgeType], cmpEdgeBySourceType,
    ecellProjSourceType, DumpEdge.id⟩

def idxEdgesUrlPath : Index DumpEdge :=
  ⟨"idx_edges_url_path", [edgeProject, urlPathGen], cmpEdgeByUrlPath, ecellUrlPath, DumpEdge.id⟩

/-- Declared by `UNIQUE(source_id, target_id, type)`. -/
def sqliteAutoindexEdges1 : Index DumpEdge :=
  ⟨"sqlite_autoindex_edges_1", [edgeSource, edgeTarget, edgeType], cmpEdgeBySrcTgtType,
    ecellSrcTgtType, DumpEdge.id⟩

/-- The indexes of the edges, in the order in which they are built. -/
def edgeIndexes : List (Index DumpEdge) :=
  [idxEdgesSource, idxEdgesTarget, idxEdgesType, idxEdgesTargetType, idxEdgesSourceType,
    idxEdgesUrlPath, sqliteAutoindexEdges1]

/-- The statements of `sqlite_master` that declare the indexes of a table. -/
def declaredIndexes (table : String) (master : List MasterEntry) : List (Option String) :=
  (master.filter fun e => e.type = "index" ∧ e.tblName = table ∧ e.sql.isSome).map MasterEntry.sql

theorem declared_nodes (nodesRoot : Nat) (data : DataRoots) (md : MetadataRoots)
    (ni : NodeIndexRoots) (ei : EdgeIndexRoots) (auto : AutoRoots) :
    declaredIndexes "nodes" (masterEntries nodesRoot data md ni ei auto) =
      [idxNodesLabel, idxNodesName, idxNodesFile].map fun ix => some (ix.declaration "nodes") := by
  rfl

theorem declared_edges (nodesRoot : Nat) (data : DataRoots) (md : MetadataRoots)
    (ni : NodeIndexRoots) (ei : EdgeIndexRoots) (auto : AutoRoots) :
    declaredIndexes "edges" (masterEntries nodesRoot data md ni ei auto) =
      [idxEdgesSource, idxEdgesTarget, idxEdgesType, idxEdgesTargetType, idxEdgesSourceType,
        idxEdgesUrlPath].map fun ix => some (ix.declaration "edges") := by
  rfl

theorem buildNodeIndexes_eq (f : File) (nextPage : Nat) (nodes : List DumpNode) :
    (buildNodeIndexes f nextPage nodes).2 =
      nodeIndexes.foldl (fun at_ ix => (ix.build at_.1 at_.2 nodes).2) (f, nextPage) := rfl

theorem buildEdgeIndexes_eq (f : File) (nextPage : Nat) (edges : List DumpEdge) :
    (buildEdgeIndexes f nextPage edges).2 =
      edgeIndexes.foldl (fun at_ ix => (ix.build at_.1 at_.2 edges).2) (f, nextPage) := rfl

/-- Where a value stands: its kind, then its number, then its bytes. -/
def Value.pos : Value → ℕ ×ₗ (ℤ ×ₗ List ℕ)
  | .null => toLex (0, toLex (0, []))
  | .int i => toLex (1, toLex (i, []))
  | .text bytes => toLex (2, toLex (0, bytes.map UInt8.toNat))
  | .blob bytes => toLex (3, toLex (0, bytes.map UInt8.toNat))

def recordPos (r : List Value) : List (ℕ ×ₗ (ℤ ×ₗ List ℕ)) :=
  r.map Value.pos

theorem compares_strcmp (a b : CStr) :
    (strcmp a b).Compares (a.map UInt8.toNat) (b.map UInt8.toNat) := by
  induction a generalizing b with
  | nil =>
      cases b with
      | nil => exact rfl
      | cons y ys => exact List.Lex.nil
  | cons x xs ih =>
      cases b with
      | nil => exact List.Lex.nil
      | cons y ys =>
          rw [strcmp]
          exact compares_cons ((compare_iff _ _).mp rfl) (ih ys)

theorem compares_text (a b : CStr) :
    (strcmp a b).Compares (Value.text a).pos (Value.text b).pos :=
  compares_then (o := .eq) rfl (compares_then (o := .eq) rfl (compares_strcmp a b))

theorem compares_int (a b : Int) : (cmpI64 a b).Compares (Value.int a).pos (Value.int b).pos := by
  have hnil : Ordering.eq.Compares ([] : List ℕ) [] := rfl
  have hint := compares_then (o := cmpI64 a b) ((compare_iff a b).mp rfl) hnil
  rw [Ordering.then_eq] at hint
  exact compares_then (o := .eq) rfl hint

theorem compares_rowid (a b : Int) :
    (cmpI64 a b).Compares (recordPos [.int a]) (recordPos [.int b]) := by
  have hnil : Ordering.eq.Compares (recordPos []) (recordPos []) := rfl
  have hcons := compares_cons (compares_int a b) hnil
  rw [Ordering.then_eq] at hcons
  exact hcons

section Sound

variable {α : Type}

/-- The comparator orders the rows of one project as their entries, and the cell of
a row is the record of its entry. -/
structure Index.Sound (ix : Index α) (project : α → Option CStr) : Prop where
  order : ∀ a b, (project a).getD [] = (project b).getD [] →
    (ix.cmp a b).Compares (recordPos (ix.entry a)) (recordPos (ix.entry b))
  cell : ∀ row, ix.cell row = indexCell (recFinalize (recAdds (ix.entry row)))

variable {p : CStr}
variable {ix : Index α}

theorem compares_project {o : Ordering} {q : CStr} {r r' : List Value} (hproject : p = q)
    (h : o.Compares (recordPos r) (recordPos r')) :
    o.Compares (recordPos (.text p :: r)) (recordPos (.text q :: r')) := by
  subst hproject
  exact compares_cons (o := .eq) rfl h

theorem recAddText_getD (r : RecordBuilder) (s : Option CStr) :
    recAddText r (some (s.getD [])) = recAddText r s := by
  cases s <;> rfl

theorem sound_nodeIndex {name column : String} {cmp : DumpNode → DumpNode → Ordering}
    {col text : DumpNode → Option CStr} (htext : ∀ n, (text n).getD [] = (col n).getD [])
    (hcmp : cmp = cmpNodeBy text) :
    (nodeIndex name (textColumn column text) cmp col).Sound DumpNode.project := by
  subst hcmp
  constructor
  · intro a b hproject
    exact compares_project hproject (compares_cons (compares_text _ _) (compares_rowid _ _))
  · intro n
    change indexCell (recFinalize (recAddInt (recAddText (recAddText recInit n.project) (col n))
      n.id)) = indexCell (recFinalize (recAddInt (recAddText (recAddText recInit
        (some (n.project.getD []))) (some ((text n).getD []))) n.id))
    rw [htext, recAddText_getD, recAddText_getD]

theorem sound_nodeIndexes {ix : Index DumpNode} (h : ix ∈ nodeIndexes) :
    ix.Sound DumpNode.project := by
  simp only [nodeIndexes, List.mem_cons, List.not_mem_nil, or_false] at h
  rcases h with rfl | rfl | rfl | rfl
  · exact sound_nodeIndex (fun _ => rfl) rfl
  · exact sound_nodeIndex (fun _ => rfl) rfl
  · exact sound_nodeIndex (fun _ => rfl) rfl
  · exact sound_nodeIndex (fun _ => rfl) rfl

theorem compares_edgeType (a b : DumpEdge) :
    (safeStrcmp a.type b.type).Compares (edgeType.value a).pos (edgeType.value b).pos :=
  compares_text _ _

theorem compares_sourceType (a b : DumpEdge) :
    (cmpEdgeBySourceType a b).Compares
      (recordPos [edgeSource.value a, edgeType.value a, .int a.id])
      (recordPos [edgeSource.value b, edgeType.value b, .int b.id]) := by
  rw [cmpEdgeBySourceType, Ordering.then_assoc]
  exact compares_cons (compares_int _ _) (compares_cons (compares_edgeType a b)
    (compares_rowid _ _))

theorem compares_targetType (a b : DumpEdge) :
    (cmpEdgeByTargetType a b).Compares
      (recordPos [edgeTarget.value a, edgeType.value a, .int a.id])
      (recordPos [edgeTarget.value b, edgeType.value b, .int b.id]) := by
  rw [cmpEdgeByTargetType, Ordering.then_assoc]
  exact compares_cons (compares_int _ _) (compares_cons (compares_edgeType a b)
    (compares_rowid _ _))

theorem compares_type (a b : DumpEdge) :
    (cmpEdgeByType a b).Compares (recordPos [edgeType.value a, .int a.id])
      (recordPos [edgeType.value b, .int b.id]) :=
  compares_cons (compares_edgeType a b) (compares_rowid _ _)

theorem compares_srcTgtType (a b : DumpEdge) :
    (cmpEdgeBySrcTgtType a b).Compares
      (recordPos [edgeSource.value a, edgeTarget.value a, edgeType.value a, .int a.id])
      (recordPos [edgeSource.value b, edgeTarget.value b, edgeType.value b, .int b.id]) := by
  rw [cmpEdgeBySrcTgtType, Ordering.then_assoc, Ordering.then_assoc]
  exact compares_cons (compares_int _ _) (compares_cons (compares_int _ _)
    (compares_cons (compares_edgeType a b) (compares_rowid _ _)))

theorem compares_urlPath (a b : DumpEdge) :
    (cmpEdgeByUrlPath a b).Compares (recordPos [urlPathGen.value a, .int a.id])
      (recordPos [urlPathGen.value b, .int b.id]) := by
  unfold cmpEdgeByUrlPath urlPathGen
  dsimp only
  cases a.urlPath.getD [] with
  | nil =>
      cases b.urlPath.getD [] with
      | nil => exact compares_cons (o := .eq) rfl (compares_rowid _ _)
      | cons y ys => exact List.Lex.rel (Prod.Lex.toLex_lt_toLex.mpr (Or.inl (by norm_num)))
  | cons x xs =>
      cases b.urlPath.getD [] with
      | nil => exact List.Lex.rel (Prod.Lex.toLex_lt_toLex.mpr (Or.inl (by norm_num)))
      | cons y ys => exact compares_cons (compares_text _ _) (compares_rowid _ _)

theorem ecellUrlPath_entry (e : DumpEdge) :
    ecellUrlPath e = indexCell (recFinalize (recAdds (idxEdgesUrlPath.entry e))) := by
  cases hurl : e.urlPath.getD [] with
  | nil =>
      have hvalue : urlPathGen.value e = .null := by
        simp only [urlPathGen, hurl]
      have hentry : recAdds (idxEdgesUrlPath.entry e) = recAddInt (recAddNull
          (recAddText recInit (some (e.project.getD [])))) e.id := by
        simp only [idxEdgesUrlPath, Index.entry, List.map_cons, List.map_nil, hvalue]
        rfl
      rw [hentry, recAddText_getD, ecellUrlPath, hurl]
  | cons c cs =>
      have hvalue : urlPathGen.value e = .text (c :: cs) := by
        simp only [urlPathGen, hurl]
      have hentry : recAdds (idxEdgesUrlPath.entry e) = recAddInt (recAddText
          (recAddText recInit (some (e.project.getD []))) (some (c :: cs))) e.id := by
        simp only [idxEdgesUrlPath, Index.entry, List.map_cons, List.map_nil, hvalue]
        rfl
      rw [hentry, recAddText_getD, ecellUrlPath, hurl]

theorem sound_edgeIndexes {ix : Index DumpEdge} (h : ix ∈ edgeIndexes) :
    ix.Sound DumpEdge.project := by
  have htext := fun r (s : Option CStr) => (recAddText_getD r s).symm
  simp only [edgeIndexes, List.mem_cons, List.not_mem_nil, or_false] at h
  rcases h with rfl | rfl | rfl | rfl | rfl | rfl | rfl
  · refine ⟨fun a b _ => compares_sourceType a b, fun e => ?_⟩
    change ecellSource e = _
    rw [ecellSource, buildIndexEntryIntTextRowid, htext]
    rfl
  · refine ⟨fun a b _ => compares_targetType a b, fun e => ?_⟩
    change ecellTarget e = _
    rw [ecellTarget, buildIndexEntryIntTextRowid, htext]
    rfl
  · refine ⟨fun a b hproject => compares_project hproject (compares_type a b), fun e => ?_⟩
    change ecellType e = _
    rw [ecellType, buildIndexEntry2TextRowid, htext, htext recInit]
    rfl
  · refine ⟨fun a b hproject => compares_project hproject (compares_targetType a b), fun e => ?_⟩
    change ecellProjTargetType e = _
    rw [ecellProjTargetType, buildIndexEntryTextIntTextRowid, htext, htext recInit]
    rfl
  · refine ⟨fun a b hproject => compares_project hproject (compares_sourceType a b), fun e => ?_⟩
    change ecellProjSourceType e = _
    rw [ecellProjSourceType, buildIndexEntryTextIntTextRowid, htext, htext recInit]
    rfl
  · exact ⟨fun a b hproject => compares_project hproject (compares_urlPath a b),
      ecellUrlPath_entry⟩
  · refine ⟨fun a b _ => compares_srcTgtType a b, fun e => ?_⟩
    change ecellSrcTgtType e = _
    rw [ecellSrcTgtType, buildIndexEntryUnique2IntTextRowid, htext]
    rfl

/-- The records of an index that `write_index_btree` is given, in this order, are the
entries of the rows, and they are strictly increasing. -/
structure InIndexOrder (ix : Index α) (rows : List α) : Prop where
  records : ∀ row, row ∈ rows → ∃ payload,
    encodeRecord (ix.entry row) = some (payload, payload.length) ∧
      ix.cell row = indexCell payload ∧ decodeRecord payload = some (ix.entry row)
  increasing : (sortRows ix.cmp rows).Pairwise fun a b =>
    recordPos (ix.entry a) < recordPos (ix.entry b)

theorem Index.Sound.increasing {project : α → Option CStr} (h : ix.Sound project) {rows : List α}
    (hproject : ∀ row, row ∈ rows → (project row).getD [] = p)
    (hids : rows.Pairwise fun a b => ix.rowid a ≠ ix.rowid b) :
    (sortRows ix.cmp rows).Pairwise fun a b => recordPos (ix.entry a) < recordPos (ix.entry b) := by
  refine pairwise_insertionSort_lt_of (p := fun row => (project row).getD [] = p)
    (fun a b ha hb => h.order a b (ha.trans hb.symm)) hproject (hids.imp fun hne heq => hne ?_)
  -- the rowid is the last column
  rw [recordPos, recordPos, Index.entry, Index.entry, List.map_append, List.map_append] at heq
  have hlast := (List.append_inj' heq rfl).2
  exact congrArg (fun x => (ofLex (ofLex x).2).1) (List.cons.inj hlast).1

/-- At most three columns, none of them a blob. -/
def Index.Narrow (ix : Index α) : Prop :=
  ix.columns.length ≤ 3 ∧ ∀ c, c ∈ ix.columns → ∀ row, c.value row ≠ .blob []

theorem textColumn_ne_blob (name : String) (text : α → Option CStr) (row : α) :
    (textColumn name text).value row ≠ .blob [] := nofun

theorem narrow_nodeIndexes {ix : Index DumpNode} (h : ix ∈ nodeIndexes) : ix.Narrow := by
  simp only [nodeIndexes, List.mem_cons, List.not_mem_nil, or_false] at h
  have hcolumns : ∃ name text, ix.columns = [nodeProject, textColumn name text] := by
    rcases h with rfl | rfl | rfl | rfl <;> exact ⟨_, _, rfl⟩
  obtain ⟨name, text, hcolumns⟩ := hcolumns
  rw [Index.Narrow, hcolumns]
  refine ⟨by simp, fun c hc row => ?_⟩
  simp only [List.mem_cons, List.not_mem_nil, or_false] at hc
  rcases hc with rfl | rfl <;> exact textColumn_ne_blob _ _ row

theorem narrow_edgeIndexes {ix : Index DumpEdge} (h : ix ∈ edgeIndexes) : ix.Narrow := by
  have hurl : ∀ e, urlPathGen.value e ≠ .blob [] := by
    intro e
    simp only [urlPathGen]
    split <;> nofun
  have hcolumn : ∀ c, c ∈ [edgeProject, edgeSource, edgeTarget, edgeType, urlPathGen] →
      ∀ e, c.value e ≠ .blob [] := by
    intro c hc e
    simp only [List.mem_cons, List.not_mem_nil, or_false] at hc
    rcases hc with rfl | rfl | rfl | rfl | rfl
    · exact textColumn_ne_blob _ _ e
    · nofun
    · nofun
    · exact textColumn_ne_blob _ _ e
    · exact hurl e
  simp only [edgeIndexes, List.mem_cons, List.not_mem_nil, or_false] at h
  rcases h with rfl | rfl | rfl | rfl | rfl | rfl | rfl <;>
    exact ⟨by simp [idxEdgesSource, idxEdgesTarget, idxEdgesType, idxEdgesTargetType,
      idxEdgesSourceType, idxEdgesUrlPath, sqliteAutoindexEdges1],
      fun c hc => hcolumn c (by
        simp only [idxEdgesSource, idxEdgesTarget, idxEdgesType, idxEdgesTargetType,
          idxEdgesSourceType, idxEdgesUrlPath, sqliteAutoindexEdges1, List.mem_cons,
          List.not_mem_nil, or_false] at hc ⊢
        tauto)⟩

theorem Index.Narrow.header_lt (h : ix.Narrow) (row : α) :
    (recAdds (ix.entry row)).header.length < 2 ^ 31 := by
  have hten : ∀ vs : List Value,
      (vs.flatMap fun v => putVarint v.serialType).length ≤ 10 * vs.length := by
    intro vs
    induction vs with
    | nil => simp
    | cons v vs ih =>
        have := length_putVarint_le_ten v.serialType
        rw [List.flatMap_cons, List.length_append, List.length_cons]
        omega
  have hentry : (ix.entry row).length ≤ 4 := by
    rw [Index.entry, List.length_append, List.length_map]
    exact Nat.add_le_add_right h.1 1
  have := hten (ix.entry row)
  rw [header_recAdds]
  omega

theorem Index.Narrow.blobs (h : ix.Narrow) (row : α) : .blob [] ∉ ix.entry row := by
  rw [Index.entry, List.mem_append, List.mem_map]
  rintro (⟨c, hc, hblob⟩ | hlast)
  · exact h.2 c hc row hblob
  · exact absurd (List.mem_singleton.mp hlast) nofun

theorem Index.Sound.ordered_iff {project : α → Option CStr} (h : ix.Sound project)
    (hnarrow : ix.Narrow) {rows : List α} (hproject : ∀ row, row ∈ rows → (project row).getD [] = p)
    (hids : rows.Pairwise fun a b => ix.rowid a ≠ ix.rowid b) :
    InIndexOrder ix rows ↔ ∀ row, row ∈ rows → Storable (ix.entry row) := by
  constructor
  · intro horder row hrow
    obtain ⟨payload, hencode, -, hdecode⟩ := horder.records row hrow
    exact (readBack_iff_storable (hnarrow.blobs row) (hnarrow.header_lt row)).mp
      ⟨payload, hencode, hdecode⟩
  · intro hstorable
    refine ⟨fun row hrow => ?_, h.increasing hproject hids⟩
    have hkept := hstorable row hrow
    obtain ⟨payload, hencode, hdecode⟩ :=
      (readBack_iff_storable (hnarrow.blobs row) (hnarrow.header_lt row)).mpr hkept
    refine ⟨payload, hencode, ?_, hdecode⟩
    rw [encodeRecord_of_fits (storable_iff.mp hkept).2] at hencode
    rw [h.cell, (Prod.mk.inj (Option.some.inj hencode)).1]

end Sound

/-- The rowids 1 to `n`. -/
def rowids (n : Nat) : List Int :=
  (List.range n).map fun i : Nat => (i : Int) + 1

theorem pairwise_of_rowids {α : Type} {rowid : α → Int} {rows : List α}
    (h : rows.map rowid = rowids rows.length) :
    rows.Pairwise fun a b => rowid a ≠ rowid b := by
  have hnodup : (rows.map rowid).Nodup := by
    rw [h, rowids]
    refine List.Nodup.map ?_ List.nodup_range
    intro i j hij
    dsimp only at hij
    omega
  exact List.pairwise_map.mp hnodup

/-- The indexes over nodes and edges of one project are in index order if and only if
all their columns can be read back. -/
theorem inIndexOrder_iff {p : CStr} {nodes : List DumpNode} {edges : List DumpEdge}
    (hnodeIds : nodes.map DumpNode.id = rowids nodes.length)
    (hedgeIds : edges.map DumpEdge.id = rowids edges.length)
    (hnodes : ∀ n, n ∈ nodes → n.project.getD [] = p)
    (hedges : ∀ e, e ∈ edges → e.project.getD [] = p) :
    ((∀ ix, ix ∈ nodeIndexes → InIndexOrder ix nodes) ∧
      ∀ ix, ix ∈ edgeIndexes → InIndexOrder ix edges) ↔
      (∀ ix, ix ∈ nodeIndexes → ∀ n, n ∈ nodes → Storable (ix.entry n)) ∧
        ∀ ix, ix ∈ edgeIndexes → ∀ e, e ∈ edges → Storable (ix.entry e) := by
  have hnodeRowid : ∀ ix, ix ∈ nodeIndexes → ix.rowid = DumpNode.id := by
    intro ix hix
    simp only [nodeIndexes, List.mem_cons, List.not_mem_nil, or_false] at hix
    rcases hix with rfl | rfl | rfl | rfl <;> rfl
  have hedgeRowid : ∀ ix, ix ∈ edgeIndexes → ix.rowid = DumpEdge.id := by
    intro ix hix
    simp only [edgeIndexes, List.mem_cons, List.not_mem_nil, or_false] at hix
    rcases hix with rfl | rfl | rfl | rfl | rfl | rfl | rfl <;> rfl
  have hnode : ∀ ix, ix ∈ nodeIndexes →
      (InIndexOrder ix nodes ↔ ∀ n, n ∈ nodes → Storable (ix.entry n)) := fun ix hix =>
    (sound_nodeIndexes hix).ordered_iff (narrow_nodeIndexes hix) hnodes
      (hnodeRowid ix hix ▸ pairwise_of_rowids hnodeIds)
  have hedge : ∀ ix, ix ∈ edgeIndexes →
      (InIndexOrder ix edges ↔ ∀ e, e ∈ edges → Storable (ix.entry e)) := fun ix hix =>
    (sound_edgeIndexes hix).ordered_iff (narrow_edgeIndexes hix) hedges
      (hedgeRowid ix hix ▸ pairwise_of_rowids hedgeIds)
  constructor
  · rintro ⟨hn, he⟩
    exact ⟨fun ix hix => (hnode ix hix).mp (hn ix hix), fun ix hix => (hedge ix hix).mp (he ix hix)⟩
  · rintro ⟨hn, he⟩
    exact ⟨fun ix hix => (hnode ix hix).mpr (hn ix hix),
      fun ix hix => (hedge ix hix).mpr (he ix hix)⟩

def oneNode : DumpNode :=
  { id := 1, project := some (bytesOf "p"), label := some (bytesOf "F"), name := some (bytesOf "f"),
    qualifiedName := some (bytesOf "p.f"), filePath := none, startLine := 1, endLine := 2,
    properties := none }

def edgeFrom (id source : Int) : DumpEdge :=
  { id := id, project := some (bytesOf "p"), sourceId := source, targetId := 1,
    type := some (bytesOf "C"), properties := none, urlPath := none }

theorem inIndexOrder_near :
    (∀ ix, ix ∈ nodeIndexes → InIndexOrder ix [oneNode]) ∧
      ∀ ix, ix ∈ edgeIndexes → InIndexOrder ix [edgeFrom 1 5, edgeFrom 2 3] := by
  refine (inIndexOrder_iff (p := bytesOf "p") rfl rfl ?_ ?_).mpr ⟨?_, ?_⟩
  · simp [oneNode]
  · simp [edgeFrom]
  · simp only [nodeIndexes, List.forall_mem_cons, List.not_mem_nil, IsEmpty.forall_iff, and_true,
      implies_true]
    decide
  · simp only [edgeIndexes, List.forall_mem_cons, List.not_mem_nil, IsEmpty.forall_iff, and_true,
      implies_true]
    decide

/-- A source of 49 bits is written as 0, behind a source of 5. -/
theorem not_inIndexOrder_far :
    sortRows cmpEdgeBySourceType [edgeFrom 1 5, edgeFrom 2 (2 ^ 47)] =
        [edgeFrom 1 5, edgeFrom 2 (2 ^ 47)] ∧
      decodeRecord (recFinalize (recAdds (idxEdgesSource.entry (edgeFrom 1 5)))) =
        some [.int 5, .text (bytesOf "C"), .int 1] ∧
      decodeRecord (recFinalize (recAdds (idxEdgesSource.entry (edgeFrom 2 (2 ^ 47))))) =
        some [.int 0, .text (bytesOf "C"), .int 2] ∧
      ¬ ∀ ix, ix ∈ edgeIndexes → InIndexOrder ix [edgeFrom 1 5, edgeFrom 2 (2 ^ 47)] := by
  refine ⟨rfl, by decide, by decide, fun horder => ?_⟩
  have hnone : ([] : List DumpNode).map DumpNode.id = rowids 0 := rfl
  have hall := (inIndexOrder_iff (p := bytesOf "p") hnone rfl (by simp)
    (by simp [edgeFrom])).mp ⟨fun ix _ => ⟨nofun, List.Pairwise.nil⟩, horder⟩
  have hstorable := hall.2 idxEdgesSource List.mem_cons_self (edgeFrom 2 (2 ^ 47))
    (List.mem_cons_of_mem _ List.mem_cons_self)
  exact absurd (hstorable.kept (.int (2 ^ 47)) List.mem_cons_self).2 (lt_irrefl _)

end Sqlite
end CodebaseMemory
