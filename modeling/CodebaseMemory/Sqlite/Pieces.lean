import CodebaseMemory.Sqlite.Database

/-!
# The pieces of a write

A routine of the writer finds a file and the page counter and leaves a file and
a counter.  In between it puts B-tree pages at the counter, calls
`write_overflow_pages`, and does nothing else to the file.  So a relation
between what is found and what is left that composes, and that holds of these
two, holds of every routine (`Composes`).  `cbm_write_db` is a sequence of tree
writers, followed by page 1 and the padding (`ComposesDb`).
-/

namespace CodebaseMemory
namespace Sqlite

/-- A relation that holds of the two ways of writing pages, and composes. -/
structure Composes (R : File → Nat → File → Nat → Prop) : Prop where
  refl : ∀ f n, R f n f n
  trans : ∀ {f g h n m k}, R f n g m → R g m h k → R f n h k
  page : ∀ f n {kind} page, kind = .leaf ∨ kind = .interior →
    R f n (f.writePage kind (cbmSkipPendingByte n) page) (cbmSkipPendingByte n + 1)
  overflow : ∀ f n data, R f n (writeOverflowPages f n data).1 (writeOverflowPages f n data).2.1

abbrev Between (R : File → Nat → File → Nat → Prop) (pb pb' : PageBuilder) : Prop :=
  R pb.fp pb.nextPage pb'.fp pb'.nextPage

namespace Composes

variable {R : File → Nat → File → Nat → Prop}

theorem flushLeaf (h : Composes R) (pb : PageBuilder) (maxKey : Int)
    (sep : Option (List UInt8)) : Between R pb (pbFlushLeaf pb maxKey sep) := by
  unfold pbFlushLeaf
  split
  · exact h.refl _ _
  · exact h.page _ _ _ (Or.inl rfl)

theorem interiorPage (h : Composes R) (pb : PageBuilder) (a : CellArea) (right : PageRef)
    (isIndex : Bool) : Between R pb (writeInteriorPage pb a right isIndex).1 :=
  h.page _ _ _ (Or.inr rfl)

theorem level (h : Composes R) (isIndex : Bool) :
    ∀ (fuel : Nat) (pb : PageBuilder) (children : List PageRef),
      Between R pb (buildLevel isIndex fuel pb children).1 := by
  intro fuel
  induction fuel with
  | zero =>
      intro pb children
      exact h.refl _ _
  | succ fuel ih =>
      intro pb children
      unfold buildLevel
      dsimp only
      split
      · exact h.refl _ _
      · exact h.trans (h.interiorPage pb _ _ isIndex) (ih _ _)

theorem levels (h : Composes R) (isIndex : Bool) :
    ∀ (fuel : Nat) (pb : PageBuilder) (children : List PageRef),
      Between R pb (buildLevels isIndex fuel pb children).1 := by
  intro fuel
  induction fuel with
  | zero =>
      intro pb children
      exact h.refl _ _
  | succ fuel ih =>
      intro pb children
      unfold buildLevels
      split
      · exact h.trans (h.level isIndex _ pb children) (ih _ _)
      · exact h.refl _ _

theorem root (h : Composes R) (pb : PageBuilder) (isIndex : Bool) :
    Between R pb (pbRoot pb isIndex).2 := by
  unfold pbRoot
  split
  · exact h.refl _ _
  · exact h.refl _ _
  · exact h.levels isIndex _ pb pb.leaves

theorem builtCell (h : Composes R) (pb : PageBuilder) (rowid : Int) (payload : List UInt8) :
    Between R pb (pbBuildTableCell pb rowid payload).1 := by
  have hspill : ∀ loc, Between R pb (pbSpillTableCell pb rowid payload loc).1 :=
    fun loc => h.overflow pb.fp pb.nextPage (payload.drop loc)
  by_cases hlong : payload.length > tableOverflowMaxLocal
  · rw [pbBuildTableCell, if_pos hlong]
    exact hspill _
  · rw [pbBuildTableCell, if_neg hlong]
    exact h.refl _ _

theorem placedCell (h : Composes R) (pb : PageBuilder) (rowid : Int) (payload : List UInt8)
    (prev : Int) : Between R (pbBuildTableCell pb rowid payload).1
      (pbAddTableCellWithFlush pb rowid payload prev) := by
  unfold pbAddTableCellWithFlush
  dsimp only
  generalize pbBuildTableCell pb rowid payload = built
  split
  · exact h.refl _ _
  · simp only [pbAddCell]
    split
    · exact h.flushLeaf built.1 prev none
    · exact h.refl _ _

theorem tableRow (h : Composes R) (pb : PageBuilder) (rowid : Int) (payload : List UInt8)
    (prev : Int) : Between R pb (pbAddTableCellWithFlush pb rowid payload prev) :=
  h.trans (h.builtCell pb rowid payload) (h.placedCell pb rowid payload prev)

theorem tableRows (h : Composes R) (rows : List (Int × List UInt8)) :
    ∀ (pb : PageBuilder) (prev : Int), Between R pb (addTableRows pb prev rows) := by
  induction rows with
  | nil =>
      intro pb prev
      exact h.refl _ _
  | cons row rows ih =>
      intro pb prev
      exact h.trans (h.tableRow pb row.1 row.2 prev) (ih _ row.1)

theorem finalizedTable (h : Composes R) (pb : PageBuilder) (last : Int) :
    Between R pb (pbFinalizeTable pb last).2 := by
  unfold pbFinalizeTable
  split
  · exact h.trans (h.flushLeaf pb last none) (h.root _ false)
  · exact h.root _ false

theorem tableTree (h : Composes R) (f : File) (n : Nat) (rows : List (Int × List UInt8))
    (page1 : Bool) :
    R f n (writeTableBtree f n rows page1).2.1 (writeTableBtree f n rows page1).2.2 := by
  have hrows := h.tableRows rows { pbInit f n false with
    page1Offset := if page1 then 100 else 0
    area := CellArea.empty ((if page1 then 100 else 0) + 8) } 0
  unfold writeTableBtree
  dsimp only
  split
  · exact h.page f n _ (Or.inl rfl)
  · exact h.trans hrows (h.finalizedTable _ _)

theorem spilledCell (h : Composes R) (f : File) (n : Nat) (cell : List UInt8) :
    R f n (overflowizeIndexCell f n cell).1 (overflowizeIndexCell f n cell).2.1 := by
  have hspill : ∀ plen vlen loc, R f n (spillIndexCell f n cell plen vlen loc).1
      (spillIndexCell f n cell plen vlen loc).2.1 :=
    fun plen vlen loc => h.overflow f n _
  unfold overflowizeIndexCell
  dsimp only
  split
  · exact h.refl f n
  · exact hspill _ _ _

theorem spilledCells (h : Composes R) (cells : List (List UInt8)) :
    ∀ (f : File) (n : Nat),
      R f n (overflowizeCells f n cells).1 (overflowizeCells f n cells).2.1 := by
  induction cells with
  | nil =>
      intro f n
      exact h.refl f n
  | cons cell cells ih =>
      intro f n
      exact h.trans (h.spilledCell f n cell) (ih _ _)

theorem entry (h : Composes R) (pb : PageBuilder) (prev cell : List UInt8) :
    Between R pb (addIndexCell pb prev cell) := by
  have hpromote : Between R pb (pbPromoteAndFlush pb prev) :=
    h.flushLeaf { pb with area := { pb.area with
      cellCount := pb.area.cellCount - 1
      contentOffset := pb.area.contentOffset + prev.length
      ptrOffset := pb.area.ptrOffset - 2 } } 0 (some prev)
  have hadd : ∀ b : PageBuilder, Between R pb b →
      Between R pb (if pbCellFits b cell.length then pbAddCell b cell else b) := by
    intro b hb
    split <;> exact hb
  unfold addIndexCell
  split
  · exact h.refl _ _
  · apply hadd
    split
    · exact hpromote
    · exact h.refl _ _

theorem entries (h : Composes R) (cells : List (List UInt8)) :
    ∀ (pb : PageBuilder) (prev : List UInt8), Between R pb (addIndexCells pb prev cells) := by
  induction cells with
  | nil =>
      intro pb prev
      exact h.refl _ _
  | cons cell cells ih =>
      intro pb prev
      exact h.trans (h.entry pb prev cell) (ih _ cell)

theorem finalizedIndex (h : Composes R) (pb : PageBuilder) (last : List UInt8) :
    Between R pb (finalizeIndex pb last).2 := by
  unfold finalizeIndex
  split
  · exact h.trans (h.flushLeaf pb 0 (some last)) (h.root _ true)
  · exact h.root _ true

theorem indexTree (h : Composes R) (f : File) (n : Nat) (cells : List (List UInt8)) :
    R f n (writeIndexBtree f n cells).2.1 (writeIndexBtree f n cells).2.2 := by
  have hspill := h.spilledCells cells f n
  unfold writeIndexBtree
  split
  · exact h.page f n _ (Or.inl rfl)
  · dsimp only
    generalize overflowizeCells f n cells = spilled at hspill ⊢
    exact h.trans (h.trans hspill (h.entries spilled.2.2
      (pbInit spilled.1 spilled.2.1 true) [])) (h.finalizedIndex _ _)

end Composes

/-- A relation that holds of page 1 and of the padding as well. -/
structure ComposesDb (R : File → Nat → File → Nat → Prop) : Prop extends Composes R where
  master : ∀ f n page, R f n (f.fwrite .master 0 65536 page) n
  padding : ∀ f n, R f n (padFileToPageBoundary f n) n

variable {R : File → Nat → File → Nat → Prop}
variable {f g : File} {n m : Nat}

theorem Composes.table (h : Composes R) (hg : R f n g m) (rows : List (Int × List UInt8))
    (page1 : Bool) :
    R f n (writeTableBtree g m rows page1).2.1 (writeTableBtree g m rows page1).2.2 :=
  h.trans hg (h.tableTree g m rows page1)

theorem Composes.index (h : Composes R) (hg : R f n g m) (cells : List (List UInt8)) :
    R f n (writeIndexBtree g m cells).2.1 (writeIndexBtree g m cells).2.2 :=
  h.trans hg (h.indexTree g m cells)

theorem Composes.oneTable {α : Type} (h : Composes R) (hg : R f n g m) (items : List α)
    (buildRec : α → List UInt8) (getId : α → Int) :
    R f n (writeOneTable g m items buildRec getId).2.1
      (writeOneTable g m items buildRec getId).2.2 := by
  refine h.trans hg ?_
  unfold writeOneTable
  split
  · exact h.tableTree g m [] false
  · exact h.trans (h.tableRows _ (pbInit g m false) 0) (h.finalizedTable _ _)

theorem Composes.dataTables (h : Composes R) (hg : R f n g m) (w : DbInput) :
    R f n (writeDataTables g m w).2.1 (writeDataTables g m w).2.2 := by
  unfold writeDataTables
  iterate 3 apply h.oneTable
  exact hg

theorem Composes.metadata (h : Composes R) (hg : R f n g m) (w : DbInput) :
    R f n (writeMetadataTables g m w).2.1 (writeMetadataTables g m w).2.2 := by
  unfold writeMetadataTables
  dsimp only
  iterate 4 apply h.table
  exact hg

theorem Composes.nodeIndexes (h : Composes R) (hg : R f n g m) (nodes : List DumpNode) :
    R f n (buildNodeIndexes g m nodes).2.1 (buildNodeIndexes g m nodes).2.2 := by
  unfold buildNodeIndexes
  iterate 4 apply h.index
  exact hg

theorem Composes.edgeIndexes (h : Composes R) (hg : R f n g m) (edges : List DumpEdge) :
    R f n (buildEdgeIndexes g m edges).2.1 (buildEdgeIndexes g m edges).2.2 := by
  unfold buildEdgeIndexes
  iterate 7 apply h.index
  exact hg

theorem Composes.autoIndexes (h : Composes R) (hg : R f n g m) (w : DbInput) :
    R f n (writeAutoIndexes g m w).2.1 (writeAutoIndexes g m w).2.2 := by
  unfold writeAutoIndexes
  iterate 3 apply h.index
  exact hg

theorem ComposesDb.finish (h : ComposesDb R) (hg : R f n g m) (master : List MasterEntry) :
    R f n (finishDb g m master).fp (finishDb g m master).nextPage := by
  unfold finishDb
  split
  · exact hg
  · next g' hg' =>
      unfold writeMasterPage1 at hg'
      obtain ⟨a, -, rfl⟩ := Option.map_eq_some_iff.mp hg'
      exact h.trans (h.trans hg (h.master g m _)) (h.padding _ m)

theorem ComposesDb.afterNodes (h : ComposesDb R) (hg : R f n g m) (w : DbInput)
    (nodesRoot : Nat) :
    R f n (writeDbAfterNodes g m w nodesRoot).fp (writeDbAfterNodes g m w nodesRoot).nextPage := by
  have hnodes := h.nodeIndexes (h.metadata (h.dataTables hg w) w) w.nodes
  have hedges := h.edgeIndexes hnodes w.edges
  have hauto := h.autoIndexes hedges w
  unfold writeDbAfterNodes
  dsimp only
  split
  · exact hnodes
  · split
    · exact hedges
    · exact h.finish hauto _

theorem cbmWriterAppendNodes_eq (nodes : List DumpNode) :
    ∀ w : DbWriter, (cbmWriterAppendNodes w nodes).nodesPb =
        addTableRows w.nodesPb w.lastNodeRowid
          (nodes.map (fun n => (n.id, buildNodeRecord n))) ∧
      (cbmWriterAppendNodes w nodes).nodeRowsWritten = w.nodeRowsWritten + nodes.length ∧
      (cbmWriterAppendNodes w nodes).nextPage = w.nextPage := by
  induction nodes with
  | nil =>
      intro w
      exact ⟨rfl, rfl, rfl⟩
  | cons node nodes ih =>
      intro w
      have hstep : cbmWriterAppendNodes w (node :: nodes) =
          cbmWriterAppendNodes (appendNode w node) nodes := List.foldl_cons
      rw [hstep, List.map_cons, addTableRows, List.length_cons, appendNode]
      generalize pbAddTableCellWithFlush w.nodesPb node.id (buildNodeRecord node)
        w.lastNodeRowid = pb
      obtain ⟨hpb, hrows, hnext⟩ := ih ⟨w.nextPage, pb, node.id, w.nodeRowsWritten + 1⟩
      refine ⟨hpb, hrows.trans ?_, hnext⟩
      dsimp only
      omega

theorem ComposesDb.cbmWriterFinalize {w : DbWriter} (h : ComposesDb R) (input : DbInput)
    (hrows : w.nodeRowsWritten ≠ 0) :
    R w.nodesPb.fp w.nodesPb.nextPage (cbmWriterFinalize w input).fp
      (cbmWriterFinalize w input).nextPage := by
  rw [Sqlite.cbmWriterFinalize, if_neg hrows]
  exact h.afterNodes (h.finalizedTable w.nodesPb w.lastNodeRowid) input _

theorem ComposesDb.cbmWriteDb (h : ComposesDb R) (input : DbInput) :
    R File.empty 2 (cbmWriteDb input).fp (cbmWriteDb input).nextPage := by
  obtain ⟨hpb, hrows, hnext⟩ := cbmWriterAppendNodes_eq input.nodes cbmWriterOpen
  by_cases hzero : (cbmWriterAppendNodes cbmWriterOpen input.nodes).nodeRowsWritten = 0
  · -- without a row the nodes builder has written nothing
    have hnil : input.nodes = [] := List.length_eq_zero_iff.mp (by
      rw [hrows] at hzero
      exact (Nat.add_eq_zero_iff.mp hzero).2)
    have hempty : (cbmWriterAppendNodes cbmWriterOpen input.nodes).nodesPb.fp = File.empty := by
      rw [hnil]
      rfl
    rw [Sqlite.cbmWriteDb, Sqlite.cbmWriterFinalize, if_pos hzero, hempty, hnext]
    exact h.afterNodes (h.table (h.refl File.empty 2) [] false) input _
  · have hnodes : R File.empty 2 (cbmWriterAppendNodes cbmWriterOpen input.nodes).nodesPb.fp
        (cbmWriterAppendNodes cbmWriterOpen input.nodes).nodesPb.nextPage := by
      rw [hpb]
      exact h.tableRows _ (pbInit File.empty 2 false) 0
    exact h.trans hnodes (h.cbmWriterFinalize input hzero)

theorem finishDb_nextPage (f : File) (next : Nat) (master : List MasterEntry) :
    (finishDb f next master).nextPage = next := by
  unfold finishDb
  split <;> rfl

theorem exists_finishDb {input : DbInput} (hrc : (cbmWriteDb input).rc = 0) :
    ∃ g m master, cbmWriteDb input = finishDb g m master := by
  have hafter : ∀ f next root, (writeDbAfterNodes f next input root).rc = 0 →
      ∃ g m master, writeDbAfterNodes f next input root = finishDb g m master := by
    intro f next root hrc
    unfold writeDbAfterNodes at hrc ⊢
    dsimp only at hrc ⊢
    split at hrc
    · simp at hrc
    · next hnodes =>
        rw [if_neg hnodes]
        split at hrc
        · simp at hrc
        · next hedges =>
            rw [if_neg hedges]
            exact ⟨_, _, _, rfl⟩
  unfold Sqlite.cbmWriteDb Sqlite.cbmWriterFinalize at hrc ⊢
  split at hrc
  · next hzero =>
      rw [if_pos hzero]
      exact hafter _ _ _ hrc
  · next hrows =>
      rw [if_neg hrows]
      exact hafter _ _ _ hrc

end Sqlite
end CodebaseMemory
