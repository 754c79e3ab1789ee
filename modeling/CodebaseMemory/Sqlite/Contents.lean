import CodebaseMemory.Sqlite.Allocation
import CodebaseMemory.Sqlite.IndexBtree
import CodebaseMemory.Sqlite.IndexOrder

/-!
# What a database holds

`contents` says what a database is to hold: for each name of `sqlite_master` the
rows of a table or the entries of an index, as columns.  `readContent` reads by
the SQLite format what stands under a root page.

A tree is stored when its writer returns (`Writes`) and stays stored, since later
writes leave the pages below the counter alone, except for page 1, which comes
last (`Holds.step`).
-/

namespace CodebaseMemory
namespace Sqlite

open Lib BTree

/-- What stands under a root page. -/
inductive Content where
  /-- the rows of a table, with their rowids -/
  | table (rows : List (Int × List Value))
  /-- the entries of an index -/
  | index (entries : List (List Value))

/-- The type in `sqlite_master`. -/
def Content.type : Content → CStr
  | .table _ => bytesOf "table"
  | .index _ => bytesOf "index"

def textValue (s : Option CStr) : Value :=
  .text (s.getD [])

/-- An empty blob is NULL. -/
def blobValue (data : Option (List UInt8)) (len : Nat) : Value :=
  if len = 0 then .null else .blob ((data.getD []).take len)

def nodeColumns (n : DumpNode) : List Value :=
  [.int n.id, textValue n.project, textValue n.label, textValue n.name,
    textValue n.qualifiedName, textValue n.filePath, .int n.startLine, .int n.endLine,
    .text (n.properties.getD (bytesOf "\x7b\x7d"))]

def edgeColumns (e : DumpEdge) : List Value :=
  [.int e.id, textValue e.project, .int e.sourceId, .int e.targetId, textValue e.type,
    .text (e.properties.getD (bytesOf "\x7b\x7d"))]

def vectorColumns (v : DumpVector) : List Value :=
  [.int v.nodeId, textValue v.project, blobValue v.vector v.vectorLen]

def tokenVecColumns (tv : DumpTokenVec) : List Value :=
  [.int tv.id, textValue tv.project, textValue tv.token, blobValue tv.vector tv.vectorLen,
    .int tv.idfScaled]

def tableOf {α : Type} (id : α → Int) (columns : α → List Value) (items : List α) : Content :=
  .table (items.map fun item => (id item, columns item))

/-- An index over some rows, under its name. -/
def Index.content {α : Type} (ix : Index α) (rows : List α) : String × Content :=
  (ix.name, .index ((sortRows ix.cmp rows).map ix.entry))

/-- The tables and indexes of a database, in the order of `sqlite_master`. -/
def contents (w : DbInput) : List (String × Content) :=
  [("projects", .table [(1, [textValue w.project, textValue w.indexedAt, textValue w.rootPath])]),
    ("sqlite_autoindex_projects_1", .index [[textValue w.project, .int 1]]),
    ("file_hashes", .table []),
    ("sqlite_autoindex_file_hashes_1", .index []),
    ("nodes", tableOf DumpNode.id nodeColumns w.nodes),
    sqliteAutoindexNodes1.content w.nodes,
    idxNodesLabel.content w.nodes,
    idxNodesName.content w.nodes,
    idxNodesFile.content w.nodes,
    ("edges", tableOf DumpEdge.id edgeColumns w.edges),
    sqliteAutoindexEdges1.content w.edges,
    idxEdgesSource.content w.edges,
    idxEdgesTarget.content w.edges,
    idxEdgesType.content w.edges,
    idxEdgesTargetType.content w.edges,
    idxEdgesSourceType.content w.edges,
    idxEdgesUrlPath.content w.edges,
    ("project_summaries", .table []),
    ("sqlite_autoindex_project_summaries_1", .index []),
    ("node_vectors", tableOf DumpVector.nodeId vectorColumns w.vectors),
    ("token_vectors", tableOf DumpTokenVec.id tokenVecColumns w.tokenVecs),
    ("sqlite_sequence", .table
      [(1, [.text (bytesOf "nodes"), .int (lastId DumpNode.id w.nodes)]),
        (2, [.text (bytesOf "edges"), .int (lastId DumpEdge.id w.edges)])])]

/-- A row of a scan, with its columns. -/
def readRow (row : Int × Option (List UInt8)) : Option (Int × List Value) :=
  (row.2.bind decodeRecord).map (row.1, ·)

def readTable (f : File) (fuel root : Nat) : Option (List (Int × List Value)) :=
  (scanTable f fuel root).bind (·.mapM readRow)

def readIndex (f : File) (fuel root : Nat) : Option (List (List Value)) :=
  (walkIndex f fuel root).bind (·.mapM (·.bind decodeRecord))

/-- What stands under a root page, by the type that `sqlite_master` gives it. -/
def readContent (f : File) (fuel : Nat) (type : CStr) (root : Nat) : Option Content :=
  if type = bytesOf "table" then (readTable f fuel root).map .table
  else if type = bytesOf "index" then (readIndex f fuel root).map .index
  else none

/-- The record of some columns. -/
def record (vs : List Value) : List UInt8 :=
  recFinalize (recAdds vs)

/-- Columns whose record is read back. -/
structure RecordFits (vs : List Value) : Prop where
  storable : Storable vs
  blobs : .blob [] ∉ vs
  length : (record vs).length < 2 ^ 31

theorem RecordFits.decode {vs : List Value} (h : RecordFits vs) :
    decodeRecord (record vs) = some vs := by
  obtain ⟨hkept, hheader, hbody⟩ := storable_iff.mp h.storable
  rw [record, decodeRecord_recFinalize (by omega), body_recAdds, header_recAdds]
  exact readColumns vs (fun v hv hempty => h.blobs (hempty ▸ hv)) hkept
    (fun v hv => (length_stored_le hv).trans hbody) _ le_rfl

/-- Sorted rows with small rowids and records that are read back; entries whose records are. -/
def Content.Fits : Content → Prop
  | .table rows => rows.Pairwise (fun a b => a.1 < b.1) ∧
      ∀ row ∈ rows, SmallRowid row.1 ∧ RecordFits row.2
  | .index entries => ∀ entry ∈ entries, RecordFits entry

theorem mapM_map_eq_some {α β : Type} {f : α → Option β} {g : β → α} {bs : List β}
    (h : ∀ b ∈ bs, f (g b) = some b) : (bs.map g).mapM f = some bs := by
  induction bs with
  | nil => rfl
  | cons b bs ih =>
      obtain ⟨hb, hbs⟩ := List.forall_mem_cons.mp h
      rw [List.map_cons, List.mapM_cons, hb, ih hbs]
      rfl

def recordRow (row : Int × List Value) : Int × List UInt8 :=
  (row.1, record row.2)

theorem readTable_of_scan {g : File} {fuel root : Nat} {rows : List (Int × List Value)}
    (hrows : ∀ row ∈ rows, RecordFits row.2)
    (hscan : scanTable g fuel root =
      some ((rows.map recordRow).map fun row => (row.1, some row.2))) :
    readTable g fuel root = some rows := by
  rw [readTable, hscan, List.map_map]
  exact mapM_map_eq_some fun row hrow => by
    simp [readRow, recordRow, (hrows row hrow).decode]

theorem readIndex_of_walk {g : File} {fuel root : Nat} {entries : List (List Value)}
    (hentries : ∀ entry ∈ entries, RecordFits entry)
    (hwalk : walkIndex g fuel root = some ((entries.map record).map some)) :
    readIndex g fuel root = some entries := by
  rw [readIndex, hwalk, List.map_map]
  exact mapM_map_eq_some fun entry hentry => by simp [(hentries entry hentry).decode]

section Trees

variable {ι α κ κ' : Type} {F : Format α κ'} {R : ι → α → Prop} {Rk : κ → κ' → Prop}
variable {top : κ → List ι → Prop} {emit : κ → List ι}
variable {f : File} {n : Nat}

theorem TreeIn.bounds {d p : Nat} {k : κ} {items : List ι}
    (h : TreeIn F R Rk top emit f n d p k items) : 1 ≤ p ∧ p < n := by
  cases d with
  | zero => exact h.2.1
  | succ d =>
      obtain ⟨_, _, hnode, _⟩ := h
      exact hnode.1

theorem view_emptyLeaf (hn : 2 ≤ n) {g : File}
    (hg : Agree (cbmSkipPendingByte n + 1)
      (f.writePage .leaf (cbmSkipPendingByte n) (emptyLeaf 0 F.leafFlag)) g) :
    F.view g (cbmSkipPendingByte n) = some (.leaf []) := by
  have hskip := cbmSkipPendingByte_le n
  have hleaf := leafStored_writePage (f := f) (R := fun (_ : Unit) (_ : α) => True) (F := F)
    (@laid_empty 8 (by omega)) (le_trans hn hskip) hskip List.Forall₂.nil
  obtain ⟨xs, hview, hxs⟩ := hleaf.2 g hg
  rw [hview, List.forall₂_nil_left_iff.mp hxs]

/-- A reader of any file that agrees with `f` below page `n` finds the content
under page `root`. -/
def Content.Stored (c : Content) (f : File) (n root : Nat) : Prop :=
  (1 ≤ root ∧ root < n) ∧ ∀ g, Agree n f g →
    ∃ depth, ∀ fuel, depth < fuel → readContent g fuel c.type root = some c

theorem Content.Stored.mono {c : Content} {g : File} {m root : Nat} (h : c.Stored f n root)
    (hnm : n ≤ m) (hfg : Agree n f g) : c.Stored g m root :=
  ⟨⟨h.1.1, lt_of_lt_of_le h.1.2 hnm⟩, fun g' hg' => h.2 g' (hfg.trans (hg'.mono hnm))⟩

theorem stored_table {root : Nat} {rows : List (Int × List Value)} (hroot : 1 ≤ root ∧ root < n)
    (hrows : ∀ row ∈ rows, RecordFits row.2)
    (hscan : ∀ g, Agree n f g → ∃ depth, ∀ fuel, depth < fuel → scanTable g fuel root =
      some ((rows.map recordRow).map fun row => (row.1, some row.2))) :
    (Content.table rows).Stored f n root := by
  refine ⟨hroot, fun g hg => ?_⟩
  obtain ⟨depth, hdepth⟩ := hscan g hg
  refine ⟨depth, fun fuel hfuel => ?_⟩
  rw [readContent, Content.type, if_pos rfl, readTable_of_scan hrows (hdepth fuel hfuel)]
  rfl

theorem stored_index {root : Nat} {entries : List (List Value)} (hroot : 1 ≤ root ∧ root < n)
    (hentries : ∀ entry ∈ entries, RecordFits entry)
    (hwalk : ∀ g, Agree n f g → ∃ depth, ∀ fuel, depth < fuel → walkIndex g fuel root =
      some ((entries.map record).map some)) :
    (Content.index entries).Stored f n root := by
  refine ⟨hroot, fun g hg => ?_⟩
  obtain ⟨depth, hdepth⟩ := hwalk g hg
  refine ⟨depth, fun fuel hfuel => ?_⟩
  rw [readContent, Content.type, if_neg (by decide), if_pos rfl,
    readIndex_of_walk hentries (hdepth fuel hfuel)]
  rfl

end Trees

/-- A writer that stores a content: from any file and counter it leaves the pages
below the counter alone, and the content under the root page it returns. -/
def Writes (t : File → Nat → Nat × File × Nat) (c : Content) : Prop :=
  ∀ f n, 2 ≤ n → (n ≤ (t f n).2.2 ∧ Agree n f (t f n).2.1) ∧
    ((t f n).2.2 ≤ 2 ^ 32 → c.Stored (t f n).2.1 (t f n).2.2 (t f n).1)

theorem composes_agree : Composes fun f n g m => n ≤ m ∧ Agree n f g where
  refl f n := ⟨le_rfl, Agree.refl n f⟩
  trans h h' := ⟨h.1.trans h'.1, h.2.trans (h'.2.mono h.1)⟩
  page f n _ page _ := ⟨composes_le.page f n page (Or.inl rfl),
    agree_writePage f _ page (cbmSkipPendingByte_le n)⟩
  overflow f n data := by
    refine ⟨le_writeOverflowPages f n data, ?_⟩
    by_cases hne : data = []
    · subst hne
      exact Agree.refl n f
    · by_cases hn : 2 ≤ n
      · exact (writeOverflowPages_spec f hn hne).2.2.1
      · exact fun pos hlow hpos => by omega

variable {f : File} {n : Nat}

theorem writeTableBtree_eq (f : File) (hn : 2 ≤ n) {rows : List (Int × List UInt8)}
    (hne : rows ≠ []) : writeTableBtree f n rows false = ((writeRows f n rows).1,
      (writeRows f n rows).2.fp, (writeRows f n rows).2.nextPage) := by
  have hpage : ¬ n = 1 := by omega
  simp only [writeTableBtree, if_neg hne, writeRows, pbInit, if_neg hpage, Bool.false_eq_true,
    if_false]

theorem writes_table {rows : List (Int × List Value)} (hfits : (Content.table rows).Fits) :
    Writes (fun f n => writeTableBtree f n (rows.map recordRow) false) (.table rows) := by
  intro f n hn
  refine ⟨composes_agree.tableTree f n _ false, fun hbound => ?_⟩
  dsimp only at hbound ⊢
  obtain ⟨hsort, hrows⟩ := hfits
  have hrecords := fun row hrow => (hrows row hrow).2
  by_cases hne : rows = []
  · subst hne
    have hroot : 1 ≤ cbmSkipPendingByte n := le_trans (by omega) (cbmSkipPendingByte_le n)
    refine stored_table ⟨hroot, Nat.lt_succ_self _⟩ hrecords fun g hg => ⟨0, fun fuel hfuel => ?_⟩
    obtain ⟨fuel, rfl⟩ : ∃ m, fuel = m + 1 := ⟨fuel - 1, by omega⟩
    have hview := view_emptyLeaf (F := tableFormat) hn hg
    simp only [scanTable, walk, writeTableBtree, List.map_nil, if_true, hview]
  · have hne' : rows.map recordRow ≠ [] := by simpa using hne
    rw [writeTableBtree_eq f hn hne'] at hbound ⊢
    have hsmall : ∀ row ∈ rows.map recordRow, SmallRowid row.1 := by
      intro row hrow
      obtain ⟨r, hr, rfl⟩ := List.mem_map.mp hrow
      exact (hrows r hr).1
    have hinput : TableInput f n (rows.map recordRow) :=
      { nonempty := hne'
        start := hn
        sorted := List.pairwise_map.mpr hsort
        rowids := fun row hrow => by
          have := hsmall row hrow
          unfold SmallRowid at this
          omega
        lengths := fun row hrow => by
          obtain ⟨r, hr, rfl⟩ := List.mem_map.mp hrow
          exact (hrecords r hr).length
        pages := hbound }
    obtain ⟨d, k, htree⟩ := tableTree_spec hinput (fun _ : True => hsmall)
    refine stored_table htree.bounds hrecords fun g hg => ⟨d, fun fuel hfuel => ?_⟩
    obtain ⟨xs, hwalk, hxs⟩ := exists_walk shows_table
      (fun _ _ _ => (List.Forall₂.nil : List.Forall₂ _ [] [])) hfuel (htree.mono hg le_rfl)
    rw [scanTable, hwalk, forall₂_rowReads trivial hxs]

theorem indexTree_spec (f : File) (hn : 2 ≤ n) {payloads : List (List UInt8)}
    (hne : payloads ≠ []) (hlen : ∀ p, p ∈ payloads → p.length < 2 ^ 31)
    (hpages : (writeIndexBtree f n (payloads.map indexCell)).2.2 ≤ 2 ^ 32) :
    ∃ d k, TreeIn indexFormat ReadsAs ReadsAs (fun _ _ => True) (fun payload => [payload])
      (writeIndexBtree f n (payloads.map indexCell)).2.1
      (writeIndexBtree f n (payloads.map indexCell)).2.2 d
      (writeIndexBtree f n (payloads.map indexCell)).1 k payloads := by
  obtain ⟨hle, -, -, hcells⟩ := overflowizeCells_spec payloads f n hn hlen
  simp only [writeIndexBtree, List.map_eq_nil_iff, if_neg hne] at hpages ⊢
  generalize overflowizeCells f n (payloads.map indexCell) = spilled at *
  have hbound : spilled.2.1 ≤ 2 ^ 32 :=
    le_trans (le_trans (le_nextPage_addIndexCells spilled.2.2 (pbInit spilled.1 spilled.2.1 true)
      []) (le_nextPage_finalizeIndex _ _)) hpages
  have hpage : ¬ spilled.2.1 = 1 := by omega
  have hinit : IndexLoop (pbInit spilled.1 spilled.2.1 true) [] [] :=
    ⟨[], growing_init rfl (by simp [pbInit, hpage]) (le_trans hn hle) (by simp [pbInit, hpage]) rfl,
      by simp, Or.inl ⟨rfl, rfl⟩⟩
  exact finalizeIndex_spec (addIndexCells_spec payloads _ _ [] [] (hcells hbound) hinit) hne hpages

theorem writes_index {entries : List (List Value)} (hfits : (Content.index entries).Fits) :
    Writes (fun f n => writeIndexBtree f n ((entries.map record).map indexCell))
      (.index entries) := by
  intro f n hn
  refine ⟨composes_agree.indexTree f n _, fun hbound => ?_⟩
  dsimp only at hbound ⊢
  by_cases hne : entries = []
  · subst hne
    have hroot : 1 ≤ cbmSkipPendingByte n := le_trans (by omega) (cbmSkipPendingByte_le n)
    refine stored_index ⟨hroot, Nat.lt_succ_self _⟩ hfits fun g hg => ⟨0, fun fuel hfuel => ?_⟩
    obtain ⟨fuel, rfl⟩ : ∃ m, fuel = m + 1 := ⟨fuel - 1, by omega⟩
    have hview := view_emptyLeaf (F := indexFormat) hn hg
    simp only [walkIndex, walk, writeIndexBtree, writeEmptyIndexLeaf, List.map_nil, if_true, hview]
  · obtain ⟨d, k, htree⟩ := @indexTree_spec n f hn (entries.map record)
      (by simpa using hne) (fun p hp => by
        obtain ⟨entry, hentry, rfl⟩ := List.mem_map.mp hp
        exact (hfits entry hentry).length) hbound
    refine stored_index htree.bounds hfits fun g hg => ⟨d, fun fuel hfuel => ?_⟩
    obtain ⟨xs, hwalk, hxs⟩ := exists_walk shows_index
      (fun k k' hk => List.Forall₂.cons hk List.Forall₂.nil) hfuel (htree.mono hg le_rfl)
    rw [walkIndex, hwalk, forall₂_readsAs hxs]

section Items

variable {α : Type}

theorem writeOneTable_of_ne (f : File) (n : Nat) {items : List α} (hne : items ≠ [])
    (build : α → List UInt8) (id : α → Int) :
    writeOneTable f n items build id =
      ((writeRows f n (items.map fun item => (id item, build item))).1,
        (writeRows f n (items.map fun item => (id item, build item))).2.fp,
        (writeRows f n (items.map fun item => (id item, build item))).2.nextPage) := by
  cases items with
  | nil => exact absurd rfl hne
  | cons item items => rfl

theorem writeOneTable_eq (f : File) (hn : 2 ≤ n) {items : List α} {build : α → List UInt8}
    {id : α → Int} {columns : α → List Value}
    (hbuild : ∀ item ∈ items, build item = record (columns item)) :
    writeOneTable f n items build id =
      writeTableBtree f n ((items.map fun item => (id item, columns item)).map recordRow)
        false := by
  have hrows : items.map (fun item => (id item, build item)) =
      (items.map fun item => (id item, columns item)).map recordRow := by
    rw [List.map_map]
    exact List.map_congr_left fun item hitem => by simp [recordRow, hbuild item hitem]
  by_cases hne : items = []
  · subst hne
    rfl
  · rw [← hrows, writeTableBtree_eq f hn (by simpa using hne), writeOneTable_of_ne f n hne]

theorem writes_oneTable {items : List α} {build : α → List UInt8} {id : α → Int}
    {columns : α → List Value} (hbuild : ∀ item ∈ items, build item = record (columns item))
    (hfits : (tableOf id columns items).Fits) :
    Writes (fun f n => writeOneTable f n items build id) (tableOf id columns items) := by
  intro f n hn
  simp only [writeOneTable_eq f hn hbuild]
  exact writes_table hfits f n hn

theorem writes_indexSorted {ix : Index α} {project : α → Option CStr} (h : ix.Sound project)
    (rows : List α) (hfits : (ix.content rows).2.Fits) :
    Writes (fun f n => buildIndexSorted f n rows ix.cmp ix.cell) (ix.content rows).2 := by
  have hcells : (sortRows ix.cmp rows).map ix.cell =
      (((sortRows ix.cmp rows).map ix.entry).map record).map indexCell := by
    rw [List.map_map, List.map_map]
    exact List.map_congr_left fun row _ => h.cell row
  simp only [buildIndexSorted, hcells]
  exact writes_index hfits

end Items

/-- What a caller of `cbm_write_db` has to give: rows that fit their tables, and vectors as long
as they are said to be. -/
structure DbInput.Readable (w : DbInput) : Prop where
  fits : ∀ o ∈ contents w, o.2.Fits
  vectors : ∀ v ∈ w.vectors, v.vectorLen ≤ (v.vector.getD []).length
  tokenVecs : ∀ v ∈ w.tokenVecs, v.vectorLen ≤ (v.vector.getD []).length

theorem buildNodeRecord_eq (n : DumpNode) : buildNodeRecord n = record (nodeColumns n) := by
  simp only [buildNodeRecord, record, nodeColumns, textValue, recAdds, List.foldl_cons,
    List.foldl_nil, recAdd, recAddText_getD]

theorem buildEdgeRecord_eq (e : DumpEdge) : buildEdgeRecord e = record (edgeColumns e) := by
  simp only [buildEdgeRecord, record, edgeColumns, textValue, recAdds, List.foldl_cons,
    List.foldl_nil, recAdd, recAddText_getD]

theorem recAdd_blobValue (r : RecordBuilder) {data : Option (List UInt8)} {len : Nat}
    (h : len ≤ (data.getD []).length) : recAdd r (blobValue data len) = recAddBlob r data len := by
  unfold blobValue
  by_cases hlen : len = 0
  · subst hlen
    simp only [if_true, recAdd, recAddNull, recAddBlob, List.take_zero, List.append_nil]
    rfl
  · rw [if_neg hlen]
    simp only [recAdd, recAddBlob, Option.getD_some, List.length_take, min_eq_left h,
      List.take_take, min_self]

theorem buildVectorRecord_eq {v : DumpVector} (h : v.vectorLen ≤ (v.vector.getD []).length) :
    buildVectorRecord v = record (vectorColumns v) := by
  simp only [buildVectorRecord, record, vectorColumns, recAdds, List.foldl_cons, List.foldl_nil,
    recAdd_blobValue _ h]
  simp only [textValue, recAdd, recAddText_getD]

theorem buildTokenVecRecord_eq {v : DumpTokenVec} (h : v.vectorLen ≤ (v.vector.getD []).length) :
    buildTokenVecRecord v = record (tokenVecColumns v) := by
  simp only [buildTokenVecRecord, record, tokenVecColumns, recAdds, List.foldl_cons,
    List.foldl_nil, recAdd_blobValue _ h]
  simp only [textValue, recAdd, recAddText_getD]

section Phases

variable {w : DbInput} {g : File} {m root : Nat} {l : List (Nat × Nat)}

/-- The contents whose places in the schema `l` names are stored, each under the root page that
stands beside its place. -/
def Holds (w : DbInput) (g : File) (m : Nat) (l : List (Nat × Nat)) : Prop :=
  w.Readable ∧ 2 ≤ m ∧ (m ≤ 2 ^ 32 → ∀ (k : Nat) (x : Nat × Nat), l[k]? = some x →
    ∀ o, (contents w)[x.1]? = some o → o.2.Stored g m x.2)

theorem Holds.step (h : Holds w g m l) (i : Nat) {o : String × Content}
    {t : File → Nat → Nat × File × Nat} (ho : (contents w)[i]? = some o)
    (ht : o.2.Fits → Writes t o.2) :
    Holds w (t g m).2.1 (t g m).2.2 ((i, (t g m).1) :: l) := by
  obtain ⟨hw, hm, h⟩ := h
  obtain ⟨⟨hle, hagree⟩, hstored⟩ := ht (hw.fits o (List.mem_of_getElem? ho)) g m hm
  refine ⟨hw, le_trans hm hle, fun hbound k x hx o' ho' => ?_⟩
  cases k with
  | zero =>
      obtain rfl := Option.some.inj hx
      obtain rfl := Option.some.inj (ho.symm.trans ho')
      exact hstored hbound
  | succ k => exact (h (le_trans hle hbound) k x hx o' ho').mono hle hagree

theorem cbmWriteDb_eq (w : DbInput) {tree : Nat × File × Nat}
    (htree : tree = writeOneTable File.empty 2 w.nodes buildNodeRecord DumpNode.id) :
    cbmWriteDb w = writeDbAfterNodes tree.2.1 tree.2.2 w tree.1 := by
  obtain ⟨hpb, hrows, hnext⟩ := cbmWriterAppendNodes_eq w.nodes cbmWriterOpen
  rw [cbmWriteDb, cbmWriterFinalize, htree]
  rcases List.eq_nil_or_concat w.nodes with hnil | ⟨front, last, hlast⟩
  · rw [hnil] at hpb hrows hnext ⊢
    have hzero : (cbmWriterAppendNodes cbmWriterOpen []).nodeRowsWritten = 0 := hrows
    rw [if_pos hzero, hpb, hnext]
    rfl
  · have hrowid : (cbmWriterAppendNodes cbmWriterOpen w.nodes).lastNodeRowid =
        lastRowid (w.nodes.map fun n => (n.id, buildNodeRecord n)) := by
      rw [hlast, List.concat_eq_append, lastRowid, cbmWriterAppendNodes, List.foldl_append]
      simp [appendNode]
    have hne : w.nodes ≠ [] := by simp [hlast]
    have hwritten : (cbmWriterAppendNodes cbmWriterOpen w.nodes).nodeRowsWritten ≠ 0 := by
      rw [hrows]
      exact fun h => hne (List.length_eq_zero_iff.mp (Nat.add_eq_zero_iff.mp h).2)
    rw [if_neg hwritten, hpb, hrowid, writeOneTable_of_ne _ _ hne]
    rfl

theorem holds_nodes (hw : w.Readable) :
    ∃ g m root, cbmWriteDb w = writeDbAfterNodes g m w root ∧ Holds w g m [(4, root)] := by
  have hstart : Holds w File.empty 2 [] := ⟨hw, le_rfl, fun _ k x hx => absurd hx (by simp)⟩
  exact ⟨_, _, _, cbmWriteDb_eq w rfl,
    hstart.step 4 rfl (writes_oneTable fun n _ => buildNodeRecord_eq n)⟩

theorem Holds.dataTables (h : Holds w g m l) :
    Holds w (writeDataTables g m w).2.1 (writeDataTables g m w).2.2
      ((20, (writeDataTables g m w).1.tokenVecs) :: (19, (writeDataTables g m w).1.vectors) ::
        (9, (writeDataTables g m w).1.edges) :: l) :=
  ((h.step 9 rfl (writes_oneTable fun e _ => buildEdgeRecord_eq e)).step 19 rfl
    (writes_oneTable fun v hv => buildVectorRecord_eq (h.1.vectors v hv))).step 20 rfl
    (writes_oneTable fun v hv => buildTokenVecRecord_eq (h.1.tokenVecs v hv))

theorem Holds.metadata (h : Holds w g m l) :
    Holds w (writeMetadataTables g m w).2.1 (writeMetadataTables g m w).2.2
      ((21, (writeMetadataTables g m w).1.sqliteSeq) ::
        (17, (writeMetadataTables g m w).1.summaries) ::
        (2, (writeMetadataTables g m w).1.fileHashes) ::
        (0, (writeMetadataTables g m w).1.projects) :: l) := by
  -- the rows are concrete, but nothing is to be computed
  obtain ⟨o, rows, ho, hrows, hprojects⟩ : ∃ o rows, (contents w)[0]? = some o ∧
      [(1, buildProjectRecord w.project w.indexedAt w.rootPath)] = rows ∧
      (o.2.Fits → Writes (fun f n => writeTableBtree f n rows false) o.2) := by
    refine ⟨_, _, rfl, ?_, writes_table⟩
    simp only [buildProjectRecord, List.map_cons, List.map_nil, recordRow, record, recAdds,
      List.foldl_cons, List.foldl_nil, recAdd, textValue, recAddText_getD]
  obtain ⟨o', rows', ho', hrows', hsequence⟩ : ∃ o rows, (contents w)[21]? = some o ∧
      [(1, buildSequenceRecord (bytesOf "nodes") (lastId DumpNode.id w.nodes)),
        (2, buildSequenceRecord (bytesOf "edges") (lastId DumpEdge.id w.edges))] = rows ∧
      (o.2.Fits → Writes (fun f n => writeTableBtree f n rows false) o.2) :=
    ⟨_, _, rfl, rfl, writes_table⟩
  have hempty : (Content.table []).Fits → Writes (fun f n => writeTableBtree f n [] false)
      (.table []) := writes_table
  rw [writeMetadataTables, hrows, hrows']
  exact (((h.step 0 ho hprojects).step 2 rfl hempty).step 17 rfl hempty).step 21 ho' hsequence

theorem Holds.nodeIndexes (h : Holds w g m l) :
    Holds w (buildNodeIndexes g m w.nodes).2.1 (buildNodeIndexes g m w.nodes).2.2
      ((5, (buildNodeIndexes g m w.nodes).1.qn) :: (8, (buildNodeIndexes g m w.nodes).1.file) ::
        (7, (buildNodeIndexes g m w.nodes).1.name) ::
        (6, (buildNodeIndexes g m w.nodes).1.label) :: l) := by
  have hwrites : ∀ ix ∈ Sqlite.nodeIndexes, (ix.content w.nodes).2.Fits →
      Writes (fun f n => buildIndexSorted f n w.nodes ix.cmp ix.cell) (ix.content w.nodes).2 :=
    fun ix hix => writes_indexSorted (sound_nodeIndexes hix) w.nodes
  rw [Sqlite.nodeIndexes] at hwrites
  simp only [List.forall_mem_cons] at hwrites
  obtain ⟨hlabel, hname, hfile, hqn, -⟩ := hwrites
  exact (((h.step 6 rfl hlabel).step 7 rfl hname).step 8 rfl hfile).step 5 rfl hqn

theorem Holds.edgeIndexes (h : Holds w g m l) :
    Holds w (buildEdgeIndexes g m w.edges).2.1 (buildEdgeIndexes g m w.edges).2.2
      ((10, (buildEdgeIndexes g m w.edges).1.auto) ::
        (16, (buildEdgeIndexes g m w.edges).1.urlPath) ::
        (15, (buildEdgeIndexes g m w.edges).1.sourceType) ::
        (14, (buildEdgeIndexes g m w.edges).1.targetType) ::
        (13, (buildEdgeIndexes g m w.edges).1.type) ::
        (12, (buildEdgeIndexes g m w.edges).1.target) ::
        (11, (buildEdgeIndexes g m w.edges).1.source) :: l) := by
  have hwrites : ∀ ix ∈ Sqlite.edgeIndexes, (ix.content w.edges).2.Fits →
      Writes (fun f n => buildIndexSorted f n w.edges ix.cmp ix.cell) (ix.content w.edges).2 :=
    fun ix hix => writes_indexSorted (sound_edgeIndexes hix) w.edges
  rw [Sqlite.edgeIndexes] at hwrites
  simp only [List.forall_mem_cons] at hwrites
  obtain ⟨hsource, htarget, htype, htargetType, hsourceType, hurlPath, hauto, -⟩ := hwrites
  exact ((((((h.step 11 rfl hsource).step 12 rfl htarget).step 13 rfl htype).step 14 rfl
    htargetType).step 15 rfl hsourceType).step 16 rfl hurlPath).step 10 rfl hauto

theorem Holds.autoIndexes (h : Holds w g m l) :
    Holds w (writeAutoIndexes g m w).2.1 (writeAutoIndexes g m w).2.2
      ((18, (writeAutoIndexes g m w).1.summaries) :: (3, (writeAutoIndexes g m w).1.fileHashes) ::
        (1, (writeAutoIndexes g m w).1.projects) :: l) := by
  obtain ⟨o, cells, ho, hcells, hprojects⟩ : ∃ o cells, (contents w)[1]? = some o ∧
      [indexCell (recFinalize (recAddInt (recAddText recInit w.project) 1))] = cells ∧
      (o.2.Fits → Writes (fun f n => writeIndexBtree f n cells) o.2) := by
    refine ⟨_, _, rfl, ?_, writes_index⟩
    simp only [List.map_cons, List.map_nil, record, recAdds, List.foldl_cons, List.foldl_nil,
      recAdd, textValue, recAddText_getD]
  have hempty : (Content.index []).Fits → Writes (fun f n => writeIndexBtree f n [])
      (.index []) := writes_index
  rw [writeAutoIndexes, hcells]
  exact ((h.step 1 ho hprojects).step 3 rfl hempty).step 18 rfl hempty

/-- No root page is 0, so everything is stored, each under the root page that `sqlite_master` is
going to name. -/
theorem stored_afterNodes (h : Holds w g m [(4, root)])
    (hpages : (writeDbAfterNodes g m w root).nextPage ≤ 2 ^ 32) :
    ∃ g' m' data md ni ei auto, writeDbAfterNodes g m w root =
        finishDb g' m' (masterEntries root data md ni ei auto) ∧ m' ≤ 2 ^ 32 ∧
      List.Forall₂ (fun e o => e.name = o.1 ∧ bytesOf e.type = o.2.type ∧
        o.2.Stored g' m' e.rootpage) (masterEntries root data md ni ei auto) (contents w) := by
  have hnodes := h.dataTables.metadata.nodeIndexes
  have hedges := hnodes.edgeIndexes
  have hauto := hedges.autoIndexes
  unfold writeDbAfterNodes at hpages ⊢
  dsimp only at hpages ⊢
  split at hpages
  · next hni =>
      have hroot := fun k x hx o ho => (hnodes.2.2 hpages k x hx o ho).1.1
      have hqn := hroot 0 _ rfl _ rfl
      have hfile := hroot 1 _ rfl _ rfl
      have hname := hroot 2 _ rfl _ rfl
      have hlabel := hroot 3 _ rfl _ rfl
      simp only [NodeIndexRoots.failed, decide_eq_true_eq] at hni
      omega
  · next hni =>
      rw [if_neg hni]
      split at hpages
      · next hei =>
          have hroot := fun k x hx o ho => (hedges.2.2 hpages k x hx o ho).1.1
          have hauto := hroot 0 _ rfl _ rfl
          have hurlPath := hroot 1 _ rfl _ rfl
          have hsourceType := hroot 2 _ rfl _ rfl
          have htargetType := hroot 3 _ rfl _ rfl
          have htype := hroot 4 _ rfl _ rfl
          have htarget := hroot 5 _ rfl _ rfl
          have hsource := hroot 6 _ rfl _ rfl
          simp only [EdgeIndexRoots.failed, decide_eq_true_eq] at hei
          omega
      · next hei =>
          rw [if_neg hei]
          rw [finishDb_nextPage] at hpages
          refine ⟨_, _, _, _, _, _, _, rfl, hpages, ?_⟩
          have hstored := hauto.2.2 hpages
          exact
            .cons ⟨rfl, rfl, hstored 17 _ rfl _ rfl⟩ <|
            .cons ⟨rfl, rfl, hstored 2 _ rfl _ rfl⟩ <|
            .cons ⟨rfl, rfl, hstored 16 _ rfl _ rfl⟩ <|
            .cons ⟨rfl, rfl, hstored 1 _ rfl _ rfl⟩ <|
            .cons ⟨rfl, rfl, hstored 21 _ rfl _ rfl⟩ <|
            .cons ⟨rfl, rfl, hstored 10 _ rfl _ rfl⟩ <|
            .cons ⟨rfl, rfl, hstored 13 _ rfl _ rfl⟩ <|
            .cons ⟨rfl, rfl, hstored 12 _ rfl _ rfl⟩ <|
            .cons ⟨rfl, rfl, hstored 11 _ rfl _ rfl⟩ <|
            .cons ⟨rfl, rfl, hstored 20 _ rfl _ rfl⟩ <|
            .cons ⟨rfl, rfl, hstored 3 _ rfl _ rfl⟩ <|
            .cons ⟨rfl, rfl, hstored 9 _ rfl _ rfl⟩ <|
            .cons ⟨rfl, rfl, hstored 8 _ rfl _ rfl⟩ <|
            .cons ⟨rfl, rfl, hstored 7 _ rfl _ rfl⟩ <|
            .cons ⟨rfl, rfl, hstored 6 _ rfl _ rfl⟩ <|
            .cons ⟨rfl, rfl, hstored 5 _ rfl _ rfl⟩ <|
            .cons ⟨rfl, rfl, hstored 4 _ rfl _ rfl⟩ <|
            .cons ⟨rfl, rfl, hstored 15 _ rfl _ rfl⟩ <|
            .cons ⟨rfl, rfl, hstored 0 _ rfl _ rfl⟩ <|
            .cons ⟨rfl, rfl, hstored 19 _ rfl _ rfl⟩ <|
            .cons ⟨rfl, rfl, hstored 18 _ rfl _ rfl⟩ <|
            .cons ⟨rfl, rfl, hstored 14 _ rfl _ rfl⟩ <|
            .nil

end Phases

end Sqlite
end CodebaseMemory
