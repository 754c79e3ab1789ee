import CodebaseMemory.Sqlite.File
import CodebaseMemory.Sqlite.Varint

/-!
# The B-tree page writer (`internal/cbm/sqlite_writer.c`)

The page builder, the overflow-page writer, the interior-page builder and the
two tree writers `write_table_btree` and `write_index_btree`, as the code
computes them.

Reading aids:
* Page numbers and buffer offsets are natural numbers; a number is cut to its
  field where the code writes it (`bigEndian`).
* Memory allocation succeeds, and so does every `fwrite` (the code ignores
  its result); the branches for a failed allocation are left out.
* The slot `leaves[leaf_count]` that a caller fills in before it calls
  `pb_flush_leaf` is passed to the latter as arguments.
* A loop over `children[i]`, `i` rising, is a recursion on the children that
  are left.  Where the number of rounds is not a list's length, `fuel` bounds
  it.
-/

namespace CodebaseMemory
namespace Sqlite

open Lib

/-- `CBM_PENDING_BYTE_PAGE`: the page SQLite reserves at offset 1 GiB. -/
def pendingBytePage : Nat :=
  0x40000000 / 65536 + 1

def cbmSkipPendingByte (pgno : Nat) : Nat :=
  if pgno = pendingBytePage then pgno + 1 else pgno

/-- A byte string as a region of memory. -/
def bufferOf (bs : List UInt8) : Memory :=
  fun i => bs.getD i 0

/-- A page under construction: cell contents grow down from its end, the
pointers to them grow up behind the page header. -/
structure CellArea where
  page : Memory
  cellCount : Nat
  contentOffset : Nat
  ptrOffset : Nat

/-- An empty page whose cell pointers start at `ptr`. -/
def CellArea.empty (ptr : Nat) : CellArea :=
  { page := Memory.zero, cellCount := 0, contentOffset := 65536, ptrOffset := ptr }

/-- `content_offset - ptr_offset - CELL_PTR_SIZE`. -/
def CellArea.available (a : CellArea) : Int :=
  (a.contentOffset : Int) - a.ptrOffset - 2

/-- Put a cell on the page: its content, then the pointer to it. -/
def CellArea.add (a : CellArea) (cell : List UInt8) : CellArea :=
  { page := (a.page.memcpy (a.contentOffset - cell.length) cell).memcpy a.ptrOffset
      (bigEndian 2 (a.contentOffset - cell.length))
    cellCount := a.cellCount + 1
    contentOffset := a.contentOffset - cell.length
    ptrOffset := a.ptrOffset + 2 }

/-- The eight header bytes every B-tree page starts with: flag, first
freeblock, cell count, content start, fragmented bytes. -/
def btreeHeader (flag : UInt8) (cellCount contentOffset : Nat) : List UInt8 :=
  [flag] ++ bigEndian 2 0 ++ bigEndian 2 cellCount ++ bigEndian 2 contentOffset ++ [0]

/-- The finished page: the header at offset `hdr`, in front of the cells. -/
def CellArea.finish (a : CellArea) (hdr : Nat) (flag : UInt8) : Memory :=
  a.page.memcpy hdr (btreeHeader flag a.cellCount a.contentOffset)

/-- `PageRef`: a finished page and the separator its parent stores for it. -/
structure PageRef where
  pageNum : Nat
  maxKey : Int
  sepCell : Option (List UInt8)

structure PageBuilder where
  fp : File
  nextPage : Nat
  page1Offset : Nat
  isIndex : Bool
  area : CellArea
  leaves : List PageRef

def pbInit (fp : File) (startPage : Nat) (isIndex : Bool) : PageBuilder :=
  let page1Offset := if startPage = 1 then 100 else 0
  { fp := fp
    nextPage := startPage
    page1Offset := page1Offset
    isIndex := isIndex
    area := CellArea.empty (page1Offset + 8)
    leaves := [] }

/-- `pb_flush_leaf`, with the slot its caller filled in. -/
def pbFlushLeaf (pb : PageBuilder) (maxKey : Int) (sepCell : Option (List UInt8)) :
    PageBuilder :=
  if pb.area.cellCount = 0 then pb
  else
    let flag := if pb.isIndex then 0x0A else 0x0D
    let page := pb.area.finish pb.page1Offset flag
    let pageNum := cbmSkipPendingByte pb.nextPage
    { fp := pb.fp.writePage .leaf pageNum page
      nextPage := pageNum + 1
      page1Offset := 0
      isIndex := pb.isIndex
      area := CellArea.empty 8
      leaves := pb.leaves ++ [⟨pageNum, maxKey, sepCell⟩] }

def pbCellFits (pb : PageBuilder) (cellLen : Nat) : Bool :=
  (cellLen : Int) ≤ pb.area.available

def pbAddCell (pb : PageBuilder) (cell : List UInt8) : PageBuilder :=
  { pb with area := pb.area.add cell }

def buildInteriorCell (child : PageRef) (isIndex : Bool) : List UInt8 :=
  if isIndex then bigEndian 4 child.pageNum ++ child.sepCell.getD []
  else bigEndian 4 child.pageNum ++ putVarint child.maxKey

/-- `fill_interior_page`: returns the page and the children that are left.
The last child never gets a cell. -/
def fillInteriorPage (isIndex : Bool) : CellArea → List PageRef → CellArea × List PageRef
  | a, child :: next :: rest =>
      let cell := buildInteriorCell child isIndex
      if (cell.length : Int) > a.available ∧ a.cellCount > 0 then (a, child :: next :: rest)
      else fillInteriorPage isIndex (a.add cell) (next :: rest)
  | a, rest => (a, rest)

/-- `write_interior_page`: returns the builder and the new parent. -/
def writeInteriorPage (pb : PageBuilder) (a : CellArea) (rightChild : PageRef)
    (isIndex : Bool) : PageBuilder × PageRef :=
  let pnum := cbmSkipPendingByte pb.nextPage
  let flag := if isIndex then 0x02 else 0x05
  let page := (a.finish 0 flag).memcpy 8 (bigEndian 4 rightChild.pageNum)
  ({ pb with fp := pb.fp.writePage .interior pnum page, nextPage := pnum + 1 },
    { pageNum := pnum
      maxKey := rightChild.maxKey
      sepCell := if isIndex then rightChild.sepCell else none })

/-- The inner loop of `pb_build_interior`: one level of interior pages over
`children`. -/
def buildLevel (isIndex : Bool) : Nat → PageBuilder → List PageRef →
    PageBuilder × List PageRef
  | 0, pb, _ => (pb, [])
  | fuel + 1, pb, children =>
      let filled := fillInteriorPage isIndex (CellArea.empty 12) children
      match filled.2 with
      | [] => (pb, [])
      | right :: rest =>
          let written := writeInteriorPage pb filled.1 right isIndex
          let level := buildLevel isIndex fuel written.1 rest
          (level.1, written.2 :: level.2)

/-- The outer loop of `pb_build_interior`: levels until one page is left. -/
def buildLevels (isIndex : Bool) : Nat → PageBuilder → List PageRef →
    PageBuilder × List PageRef
  | 0, pb, children => (pb, children)
  | fuel + 1, pb, children =>
      if children.length > 1 then
        let level := buildLevel isIndex children.length pb children
        buildLevels isIndex fuel level.1 level.2
      else (pb, children)

/-- `children ? children[0].page_num : 0`. -/
def rootOf : List PageRef → Nat
  | [] => 0
  | c :: _ => c.pageNum

/-- `pb_build_interior`: the root page and the builder. -/
def pbBuildInterior (pb : PageBuilder) (isIndex : Bool) : Nat × PageBuilder :=
  let built := buildLevels isIndex pb.leaves.length pb pb.leaves
  (rootOf built.2, built.1)

/-- The end of both tree writers: one leaf is the root, more of them get
interior pages above. -/
def pbRoot (pb : PageBuilder) (isIndex : Bool) : Nat × PageBuilder :=
  match pb.leaves with
  | [] => (0, pb)
  | [leaf] => (leaf.pageNum, pb)
  | _ => pbBuildInterior pb isIndex

/-- Backpatch the next-page pointer of the previous overflow page. -/
def patchNextPointer (fp : File) (prev : Option Nat) (pnum : Nat) : File :=
  match prev with
  | some off => fp.fwrite .nextPointer off 4 (bufferOf (bigEndian 4 pnum))
  | none => fp

/-- An overflow page: a next-page pointer, 0 for now, and the data. -/
def overflowPage (chunk : List UInt8) : Memory :=
  (Memory.zero.memcpy 0 (bigEndian 4 0)).memcpy 4 chunk

/-- The loop of `write_overflow_pages`.  `prev` is the offset of the next-page
pointer to backpatch.  The page counter does not skip the pending-byte page. -/
def writeOverflowLoop : Nat → File → Nat → Option Nat → List UInt8 → File × Nat
  | 0, fp, nextPage, _, _ => (fp, nextPage)
  | fuel + 1, fp, nextPage, prev, data =>
      if data = [] then (fp, nextPage)
      else
        let pnum := nextPage
        let fp := patchNextPointer fp prev pnum
        let fp := fp.writePage .overflow pnum (overflowPage (data.take 65532))
        writeOverflowLoop fuel fp (pnum + 1) (some ((pnum - 1) * 65536)) (data.drop 65532)

/-- `write_overflow_pages`: the file, the page counter and the first page. -/
def writeOverflowPages (fp : File) (nextPage : Nat) (data : List UInt8) :
    File × Nat × Nat :=
  let fp := { fp with spills := (nextPage, data.length) :: fp.spills }
  let written := writeOverflowLoop data.length fp nextPage none data
  (written.1, written.2, if data = [] then 0 else nextPage)

/-- Bytes of a payload of `plen` bytes that stay in the cell when it spills:
`MIN_LOCAL` is 8199 for tables and indexes, an overflow page holds 65532. -/
def spillLocal (maxLocal plen : Nat) : Nat :=
  let k := 8199 + (plen - 8199) % 65532
  if k ≤ maxLocal then k else 8199

def tableOverflowMaxLocal : Nat := 65501

def indexOverflowMaxLocal : Nat := 16422

/-- The spilling branch of `overflowize_index_cell`: `loc` payload bytes stay
in the cell. -/
def spillIndexCell (fp : File) (nextPage : Nat) (cell : List UInt8) (plen vlen loc : Nat) :
    File × Nat × List UInt8 :=
  let spilled := writeOverflowPages fp nextPage ((cell.drop (vlen + loc)).take (plen - loc))
  (spilled.1, spilled.2.1, cell.take (vlen + loc) ++ bigEndian 4 spilled.2.2)

/-- `overflowize_index_cell`: the file, the page counter and the cell. -/
def overflowizeIndexCell (fp : File) (nextPage : Nat) (cell : List UInt8) :
    File × Nat × List UInt8 :=
  let plen := (getVarint (bufferOf cell)).1
  let vlen := (getVarint (bufferOf cell)).2
  if toI64 plen ≤ indexOverflowMaxLocal then (fp, nextPage, cell)
  else spillIndexCell fp nextPage cell plen vlen (spillLocal indexOverflowMaxLocal plen)

def buildTableCell (rowid : Int) (payload : List UInt8) : List UInt8 :=
  putVarint payload.length ++ putVarint rowid ++ payload

def buildTableCellOverflow (rowid : Int) (payload : List UInt8) (localLen : Nat)
    (overflowPage : Nat) : List UInt8 :=
  putVarint payload.length ++ putVarint rowid ++ payload.take localLen ++
    bigEndian 4 overflowPage

/-- The spilling branch of `pb_add_table_cell_with_flush`: the overflow pages
and the cell; no cell when the overflow write failed. -/
def pbSpillTableCell (pb : PageBuilder) (rowid : Int) (payload : List UInt8)
    (localLen : Nat) : PageBuilder × Option (List UInt8) :=
  let spilled := writeOverflowPages pb.fp pb.nextPage (payload.drop localLen)
  ({ pb with fp := spilled.1, nextPage := spilled.2.1 },
    if spilled.2.2 = 0 then none
    else some (buildTableCellOverflow rowid payload localLen spilled.2.2))

/-- The first half of `pb_add_table_cell_with_flush`: the cell of a row. -/
def pbBuildTableCell (pb : PageBuilder) (rowid : Int) (payload : List UInt8) :
    PageBuilder × Option (List UInt8) :=
  if payload.length > tableOverflowMaxLocal then
    pbSpillTableCell pb rowid payload (spillLocal tableOverflowMaxLocal payload.length)
  else (pb, some (buildTableCell rowid payload))

def pbAddTableCellWithFlush (pb : PageBuilder) (rowid : Int) (payload : List UInt8)
    (prevRowid : Int) : PageBuilder :=
  let built := pbBuildTableCell pb rowid payload
  let pb := built.1
  match built.2 with
  | none => pb
  | some cell =>
      let pb :=
        if !pbCellFits pb cell.length ∧ pb.area.cellCount > 0 then
          pbFlushLeaf pb prevRowid none
        else pb
      pbAddCell pb cell

/-- `pb_finalize_table`: the root page and the builder, whose page counter is
the value left in `*next_page`. -/
def pbFinalizeTable (pb : PageBuilder) (lastRowid : Int) : Nat × PageBuilder :=
  pbRoot (if pb.area.cellCount > 0 then pbFlushLeaf pb lastRowid none else pb) false

def addTableRows : PageBuilder → Int → List (Int × List UInt8) → PageBuilder
  | pb, _, [] => pb
  | pb, prev, (rowid, payload) :: rows =>
      addTableRows (pbAddTableCellWithFlush pb rowid payload prev) rowid rows

/-- The page of an empty tree. -/
def emptyLeaf (hdr : Nat) (flag : UInt8) : Memory :=
  Memory.zero.memcpy hdr (btreeHeader flag 0 65536)

def lastRowid (rows : List (Int × List UInt8)) : Int :=
  (rows.getLast?.map Prod.fst).getD 0

/-- `write_table_btree`: the root page, the file and the page counter. -/
def writeTableBtree (fp : File) (nextPage : Nat) (rows : List (Int × List UInt8))
    (firstIsPage1 : Bool) : Nat × File × Nat :=
  let hdr := if firstIsPage1 then 100 else 0
  if rows = [] then
    let pnum := cbmSkipPendingByte nextPage
    (pnum, fp.writePage .leaf pnum (emptyLeaf hdr 0x0D), pnum + 1)
  else
    let pb := { pbInit fp nextPage false with
      page1Offset := hdr, area := CellArea.empty (hdr + 8) }
    let done := pbFinalizeTable (addTableRows pb 0 rows) (lastRowid rows)
    (done.1, done.2.fp, done.2.nextPage)

/-- The cell every index entry builder makes of its record. -/
def indexCell (payload : List UInt8) : List UInt8 :=
  putVarint payload.length ++ payload

/-- `pb_promote_and_flush`: the last cell leaves the page and becomes the
separator. -/
def pbPromoteAndFlush (pb : PageBuilder) (prevCell : List UInt8) : PageBuilder :=
  let area := { pb.area with
    cellCount := pb.area.cellCount - 1
    contentOffset := pb.area.contentOffset + prevCell.length
    ptrOffset := pb.area.ptrOffset - 2 }
  pbFlushLeaf { pb with area := area } 0 (some prevCell)

/-- One round of the cell loop of `write_index_btree`. -/
def addIndexCell (pb : PageBuilder) (prevCell cell : List UInt8) : PageBuilder :=
  if pbCellFits pb cell.length then pbAddCell pb cell
  else
    let pb := if pb.area.cellCount > 0 then pbPromoteAndFlush pb prevCell else pb
    if pbCellFits pb cell.length then pbAddCell pb cell else pb

/-- The cell loop of `write_index_btree`. -/
def addIndexCells : PageBuilder → List UInt8 → List (List UInt8) → PageBuilder
  | pb, _, [] => pb
  | pb, prev, cell :: cells => addIndexCells (addIndexCell pb prev cell) cell cells

/-- The spill loop of `write_index_btree`. -/
def overflowizeCells : File → Nat → List (List UInt8) → File × Nat × List (List UInt8)
  | fp, nextPage, [] => (fp, nextPage, [])
  | fp, nextPage, cell :: cells =>
      let first := overflowizeIndexCell fp nextPage cell
      let rest := overflowizeCells first.1 first.2.1 cells
      (rest.1, rest.2.1, first.2.2 :: rest.2.2)

/-- The end of `write_index_btree`: flush the last leaf and build the tree. -/
def finalizeIndex (pb : PageBuilder) (lastCell : List UInt8) : Nat × PageBuilder :=
  pbRoot (if pb.area.cellCount > 0 then pbFlushLeaf pb 0 (some lastCell) else pb) true

def writeEmptyIndexLeaf (fp : File) (nextPage : Nat) : Nat × File × Nat :=
  let pnum := cbmSkipPendingByte nextPage
  (pnum, fp.writePage .leaf pnum (emptyLeaf 0 0x0A), pnum + 1)

/-- `write_index_btree`: the root page, the file and the page counter. -/
def writeIndexBtree (fp : File) (nextPage : Nat) (cells : List (List UInt8)) :
    Nat × File × Nat :=
  if cells = [] then writeEmptyIndexLeaf fp nextPage
  else
    let spilled := overflowizeCells fp nextPage cells
    let cells := spilled.2.2
    let pb := addIndexCells (pbInit spilled.1 spilled.2.1 true) [] cells
    let done := finalizeIndex pb (cells.getLastD [])
    (done.1, done.2.fp, done.2.nextPage)

end Sqlite
end CodebaseMemory
