import CodebaseMemory.Sqlite.IndexBtree
import CodebaseMemory.Sqlite.TableBtree

/-!
# Pages without overlap

Capacity is checked in front of some of the writes only: `fill_interior_page`
writes a first cell, and `pb_add_table_cell_with_flush` the cell after a flush,
without a look at the room that is left.  The cells of a run, each with the page
it is written on, are collected in lists (`tableWrites`, `indexWrites`) that
follow the writers; `CellWrite.Fits` is what each of them needs.

A page under construction is `Laid`, and its cells are among those written.
`LaidOut` says what that means for the finished page: the pointers, read as the
16-bit numbers they are, lead to the cells, and no two cells meet.
-/

namespace CodebaseMemory
namespace Sqlite

open Lib

/-- The cell count in the header of a written B-tree page. -/
def Write.cellCount (w : Write) : Nat :=
  w.data.getBe 3 2

/-- A write that does not put an empty leaf into the file. -/
def LeafNonempty (w : Write) : Prop :=
  w.kind = .leaf → 1 ≤ w.cellCount

def sepSize (isIndex : Bool) (child : PageRef) : Nat :=
  (buildInteriorCell child isIndex).length

theorem sepSize_writeInteriorPage (isIndex : Bool) (pb : PageBuilder) (a : CellArea)
    (right : PageRef) :
    sepSize isIndex (writeInteriorPage pb a right isIndex).2 = sepSize isIndex right := by
  cases isIndex <;> simp [sepSize, buildInteriorCell, writeInteriorPage]

/-- The cell pointer at place `i`. -/
def cellPointer (page : Memory) (first i : Nat) : Nat :=
  page.getBe (first + 2 * i) 2

/-- The page has exactly these cells, their pointers from offset `first` on. -/
structure LaidOut (page : Memory) (first : Nat) (cells : List (List UInt8)) : Prop where
  count : page.getBe 3 2 = cells.length
  holds : ∀ i (h : i < cells.length), page.Holds (cellPointer page first i) cells[i]
  above : ∀ i, i < cells.length → first + 2 * cells.length ≤ cellPointer page first i
  inside : ∀ i (h : i < cells.length), cellPointer page first i + cells[i].length ≤ 65536
  disjoint : ∀ i j (_ : i < j) (h : j < cells.length),
    cellPointer page first j + cells[j].length ≤ cellPointer page first i

theorem Placed.pointer {page : Memory} {cells : List (List UInt8)} {ptr top : Nat}
    (h : Placed page ptr top cells) (htop : top ≤ 65536) (i : Nat) (hi : i < cells.length) :
    cellPointer page ptr i + cells[i].length + cellsSize (cells.take i) = top ∧
      page.Holds (cellPointer page ptr i) cells[i] := by
  induction cells generalizing ptr top i with
  | nil => exact absurd hi (Nat.not_lt_zero i)
  | cons c cells ih =>
      obtain ⟨⟨hpos, hlen⟩, hp, hc, hrest⟩ := h
      cases i with
      | zero =>
          have hoff : cellPointer page ptr 0 = top - c.length := hp.getBe_eq (by omega)
          rw [hoff]
          refine ⟨?_, hc⟩
          change top - c.length + c.length + 0 = top
          omega
      | succ i =>
          have hoff : cellPointer page ptr (i + 1) = cellPointer page (ptr + 2) i :=
            congrArg (page.getBe · 2) (by omega)
          have hi : i < cells.length := Nat.lt_of_succ_lt_succ hi
          obtain ⟨hsum, hcell⟩ := ih hrest (by omega) i hi
          rw [hoff]
          refine ⟨?_, hcell⟩
          rw [List.take_succ_cons, cellsSize_cons]
          change cellPointer page (ptr + 2) i + cells[i].length + _ = _
          omega

theorem cellsSize_take_succ {cells : List (List UInt8)} {i : Nat} (hi : i < cells.length) :
    cellsSize (cells.take (i + 1)) = cellsSize (cells.take i) + cells[i].length := by
  rw [List.take_succ_eq_append_getElem hi, cellsSize_append, cellsSize_cons, cellsSize_nil,
    Nat.add_zero]

theorem cellsSize_take_le {cells : List (List UInt8)} {i j : Nat} (hij : i ≤ j) :
    cellsSize (cells.take i) ≤ cellsSize (cells.take j) := by
  obtain ⟨k, rfl⟩ := Nat.exists_eq_add_of_le hij
  rw [List.take_add, cellsSize_append]
  exact Nat.le_add_right _ _

theorem Laid.laidOut {a : CellArea} {first : Nat} {cells : List (List UInt8)} (flag : UInt8)
    {page : Memory} (h : Laid a first cells) (hfirst : 8 ≤ first)
    (hpage : ∀ i, i < 65536 → i < 8 ∨ first ≤ i → page i = a.finish 0 flag i) :
    LaidOut page first cells := by
  obtain ⟨-, hcount, hplaced⟩ := h.finished 0 flag page (by omega)
    fun i hi hout => hpage i hi (by omega)
  have hpointers := h.pointers
  have hcontent := h.content
  have hroom := h.room
  have hat := hplaced.pointer le_rfl
  refine ⟨hcount, fun i hi => (hat i hi).2, fun i hi => ?_, fun i hi => ?_, fun i j hij hj => ?_⟩
  · have hsum := (hat i hi).1
    have hsize := @cellsSize_take_le cells (i + 1) cells.length hi
    rw [cellsSize_take_succ hi, List.take_length] at hsize
    omega
  · have hsum := (hat i hi).1
    omega
  · have hi := lt_trans hij hj
    have hsumi := (hat i hi).1
    have hsumj := (hat j hj).1
    have hsize := @cellsSize_take_le cells (i + 1) j hij
    rw [cellsSize_take_succ hi] at hsize
    omega

/-- A cell and the page, as it is before the cell is written. -/
structure CellWrite where
  area : CellArea
  cell : List UInt8

/-- The cell has room between the pointers, its own included, and the cells that
are there. -/
structure CellWrite.Fits (x : CellWrite) : Prop where
  whole : (x.area.add x.cell).contentOffset + x.cell.length = x.area.contentOffset
  above : x.area.ptrOffset + 2 ≤ (x.area.add x.cell).contentOffset
  below : (x.area.add x.cell).contentOffset < 65536

theorem Laid.fits {a : CellArea} {first : Nat} {cells : List (List UInt8)} {cell : List UInt8}
    (h : Laid a first cells) (hpos : 0 < cell.length) (hfit : (cell.length : Int) ≤ a.available) :
    CellWrite.Fits ⟨a, cell⟩ := by
  have hcontent := h.content
  unfold CellArea.available at hfit
  refine ⟨?_, ?_, ?_⟩ <;> simp only [CellArea.add] <;> omega

/-- The cell that `pb_add_table_cell_with_flush` adds. -/
def rowWrites (pb : PageBuilder) (rowid : Int) (payload : List UInt8) (prevRowid : Int) :
    List CellWrite :=
  let built := pbBuildTableCell pb rowid payload
  let pb := built.1
  match built.2 with
  | none => []
  | some cell =>
      let pb :=
        if !pbCellFits pb cell.length ∧ pb.area.cellCount > 0 then
          pbFlushLeaf pb prevRowid none
        else pb
      [⟨pb.area, cell⟩]

/-- The cells that `addTableRows` adds. -/
def rowsWrites : PageBuilder → Int → List (Int × List UInt8) → List CellWrite
  | _, _, [] => []
  | pb, prev, (rowid, payload) :: rows =>
      rowWrites pb rowid payload prev ++
        rowsWrites (pbAddTableCellWithFlush pb rowid payload prev) rowid rows

/-- The cell that a round of the cell loop of `write_index_btree` adds; one that
does not fit an empty page is skipped. -/
def cellWrites (pb : PageBuilder) (prevCell cell : List UInt8) : List CellWrite :=
  if pbCellFits pb cell.length then [⟨pb.area, cell⟩]
  else
    let pb := if pb.area.cellCount > 0 then pbPromoteAndFlush pb prevCell else pb
    if pbCellFits pb cell.length then [⟨pb.area, cell⟩] else []

/-- The cells that `addIndexCells` adds. -/
def cellsWrites : PageBuilder → List UInt8 → List (List UInt8) → List CellWrite
  | _, _, [] => []
  | pb, prev, cell :: cells =>
      cellWrites pb prev cell ++ cellsWrites (addIndexCell pb prev cell) cell cells

/-- The cells that `fill_interior_page` writes. -/
def fillWrites (isIndex : Bool) : CellArea → List PageRef → List CellWrite
  | a, child :: next :: rest =>
      let cell := buildInteriorCell child isIndex
      if (cell.length : Int) > a.available ∧ a.cellCount > 0 then []
      else ⟨a, cell⟩ :: fillWrites isIndex (a.add cell) (next :: rest)
  | _, _ => []

def levelWrites (isIndex : Bool) : Nat → PageBuilder → List PageRef → List CellWrite
  | 0, _, _ => []
  | fuel + 1, pb, children =>
      let filled := fillInteriorPage isIndex (CellArea.empty 12) children
      match filled.2 with
      | [] => []
      | right :: rest =>
          fillWrites isIndex (CellArea.empty 12) children ++
            levelWrites isIndex fuel (writeInteriorPage pb filled.1 right isIndex).1 rest

def levelsWrites (isIndex : Bool) : Nat → PageBuilder → List PageRef → List CellWrite
  | 0, _, _ => []
  | fuel + 1, pb, children =>
      if children.length > 1 then
        let level := buildLevel isIndex children.length pb children
        levelWrites isIndex children.length pb children ++
          levelsWrites isIndex fuel level.1 level.2
      else []

/-- The cells of the interior pages above the leaves. -/
def rootWrites (pb : PageBuilder) (isIndex : Bool) : List CellWrite :=
  match pb.leaves with
  | [] => []
  | [_] => []
  | leaves => levelsWrites isIndex leaves.length pb leaves

def tableLeafWrites (fp : File) (nextPage : Nat) (rows : List (Int × List UInt8)) :
    List CellWrite :=
  rowsWrites (pbInit fp nextPage false) 0 rows

/-- The cells `write_table_btree` writes. -/
def tableWrites (fp : File) (nextPage : Nat) (rows : List (Int × List UInt8)) : List CellWrite :=
  let pb := addTableRows (pbInit fp nextPage false) 0 rows
  tableLeafWrites fp nextPage rows ++
    rootWrites (if pb.area.cellCount > 0 then pbFlushLeaf pb (lastRowid rows) none else pb) false

def indexLeafWrites (fp : File) (nextPage : Nat) (cells : List (List UInt8)) : List CellWrite :=
  let spilled := overflowizeCells fp nextPage cells
  cellsWrites (pbInit spilled.1 spilled.2.1 true) [] spilled.2.2

/-- The cells `write_index_btree` writes. -/
def indexWrites (fp : File) (nextPage : Nat) (cells : List (List UInt8)) : List CellWrite :=
  let spilled := overflowizeCells fp nextPage cells
  let pb := addIndexCells (pbInit spilled.1 spilled.2.1 true) [] spilled.2.2
  indexLeafWrites fp nextPage cells ++
    rootWrites (if pb.area.cellCount > 0 then
      pbFlushLeaf pb 0 (some (spilled.2.2.getLastD [])) else pb) true

/-- A leaf or interior page among the writes is laid out, with cells of the kind
`C`. -/
def PageLaidOut (C : List UInt8 → Prop) (w : Write) : Prop :=
  (w.kind = .leaf → ∃ cells, (∀ c ∈ cells, C c) ∧ LaidOut w.data 8 cells) ∧
    (w.kind = .interior → ∃ cells, (∀ c ∈ cells, C c) ∧ LaidOut w.data 12 cells)

/-- A run from `f` to `g` that writes the cells `xs`: they fit, on its pages stand only cells of
the kind `C`, and no leaf is empty. -/
structure Lays (C : List UInt8 → Prop) (xs : List CellWrite) (f g : File) : Prop where
  fits : ∀ x ∈ xs, x.Fits
  pages : Extends (fun w => PageLaidOut C w ∧ LeafNonempty w) f g

/-- A builder of leaves with `cells` on its page, all of the kind `C`. -/
structure Filling (C : List UInt8 → Prop) (pb : PageBuilder) (cells : List (List UInt8)) :
    Prop where
  plain : pb.page1Offset = 0
  laid : Laid pb.area 8 cells
  kind : ∀ c ∈ cells, C c
  seps : ∀ r ∈ pb.leaves, (r.sepCell.getD []).length ≤ 65518

section Run

variable {C : List UInt8 → Prop} {f g k : File} {xs ys : List CellWrite}
variable {pb : PageBuilder} {cells : List (List UInt8)} {cell : List UInt8}

theorem Lays.refl (f : File) : Lays C [] f f :=
  ⟨fun _ hx => absurd hx List.not_mem_nil, Extends.refl f⟩

theorem Lays.trans (h : Lays C xs f g) (h' : Lays C ys g k) : Lays C (xs ++ ys) f k := by
  refine ⟨fun x hx => ?_, h.pages.trans h'.pages⟩
  rcases List.mem_append.mp hx with hx | hx
  · exact h.fits x hx
  · exact h'.fits x hx

theorem lays_leaf {a : CellArea} (h : Laid a 8 cells) (hne : cells ≠ [])
    (hkind : ∀ c ∈ cells, C c) (flag : UInt8) (p : Nat) :
    Lays C [] f (f.writePage .leaf p (a.finish 0 flag)) := by
  have hout := h.laidOut flag le_rfl fun _ _ _ => rfl
  refine ⟨fun _ hx => absurd hx List.not_mem_nil, extends_fwrite f
    ⟨⟨fun _ => ⟨cells, hkind, hout⟩, fun hkind => absurd hkind (by simp)⟩, fun _ => ?_⟩⟩
  exact (List.length_pos_iff.mpr hne).trans_eq hout.count.symm

theorem lays_interior {a : CellArea} (h : Laid a 12 cells) (hkind : ∀ c ∈ cells, C c)
    (pb : PageBuilder) (right : PageRef) (isIndex : Bool) :
    Lays C [] pb.fp (writeInteriorPage pb a right isIndex).1.fp := by
  refine ⟨fun _ hx => absurd hx List.not_mem_nil, extends_fwrite pb.fp
    ⟨⟨fun hkind => absurd hkind (by simp), fun _ => ⟨cells, hkind, ?_⟩⟩,
      fun hkind => absurd hkind (by simp)⟩⟩
  refine h.laidOut (if isIndex then 0x02 else 0x05) (by omega) fun i _ hi => ?_
  exact Memory.memcpy_apply_outside _ _ _ (by rw [length_bigEndian]; omega)

/-- A write of `write_overflow_pages`. -/
def Write.IsOverflow (w : Write) : Prop :=
  w.kind = .overflow ∨ w.kind = .nextPointer

theorem extends_writeOverflowPages (f : File) (next : Nat) (data : List UInt8) :
    Extends Write.IsOverflow f (writeOverflowPages f next data).1 := by
  have hloop : ∀ (fuel : Nat) (f : File) (next : Nat) (prev : Option Nat) (data : List UInt8),
      Extends Write.IsOverflow f (writeOverflowLoop fuel f next prev data).1 := by
    intro fuel
    induction fuel with
    | zero => exact fun f _ _ _ => Extends.refl f
    | succ fuel ih =>
        intro f next prev data
        unfold writeOverflowLoop
        split
        · exact Extends.refl f
        · refine Extends.trans ?_ (ih _ _ _ _)
          refine Extends.trans ?_ (extends_fwrite _ (Or.inl rfl))
          cases prev with
          | none => exact Extends.refl f
          | some off => exact extends_fwrite f (Or.inr rfl)
  exact hloop _ _ _ _ _

theorem extends_pbBuildTableCell (pb : PageBuilder) (rowid : Int) (payload : List UInt8) :
    Extends Write.IsOverflow pb.fp (pbBuildTableCell pb rowid payload).1.fp := by
  have hspill : ∀ loc, Extends Write.IsOverflow pb.fp
      (pbSpillTableCell pb rowid payload loc).1.fp :=
    fun loc => extends_writeOverflowPages pb.fp pb.nextPage (payload.drop loc)
  by_cases hlong : payload.length > tableOverflowMaxLocal
  · rw [pbBuildTableCell, if_pos hlong]
    exact hspill _
  · rw [pbBuildTableCell, if_neg hlong]
    exact Extends.refl _

theorem extends_overflowizeIndexCell (f : File) (next : Nat) (cell : List UInt8) :
    Extends Write.IsOverflow f (overflowizeIndexCell f next cell).1 := by
  have hspill : ∀ plen vlen loc, Extends Write.IsOverflow f
      (spillIndexCell f next cell plen vlen loc).1 :=
    fun plen vlen loc => extends_writeOverflowPages f next _
  unfold overflowizeIndexCell
  dsimp only
  split
  · exact Extends.refl f
  · exact hspill _ _ _

theorem extends_overflowizeCells (cells : List (List UInt8)) :
    ∀ (f : File) (next : Nat),
      Extends Write.IsOverflow f (overflowizeCells f next cells).1 := by
  induction cells with
  | nil => exact fun f _ => Extends.refl f
  | cons cell cells ih =>
      exact fun f next => (extends_overflowizeIndexCell f next cell).trans (ih _ _)

theorem lays_overflow (h : Extends Write.IsOverflow f g) : Lays C [] f g := by
  refine ⟨fun _ hx => absurd hx List.not_mem_nil, h.mono fun w hw => ?_⟩
  have hleaf : w.kind ≠ .leaf := by rcases hw with hw | hw <;> simp [hw]
  have hinterior : w.kind ≠ .interior := by rcases hw with hw | hw <;> simp [hw]
  exact ⟨⟨fun h => absurd h hleaf, fun h => absurd h hinterior⟩, fun h => absurd h hleaf⟩

theorem fillWrites_spec (isIndex : Bool) :
    ∀ (children : List PageRef) (a : CellArea) (cells : List (List UInt8)), Laid a 12 cells →
      (∀ c, c ∈ children → sepSize isIndex c ≤ 65522) →
      (∀ x ∈ fillWrites isIndex a children, x.Fits) ∧
        Laid (fillInteriorPage isIndex a children).1 12
          (cells ++ (fillWrites isIndex a children).map CellWrite.cell)
  | [], a, cells, h, _ => by simpa [fillInteriorPage, fillWrites] using h
  | [c], a, cells, h, _ => by simpa [fillInteriorPage, fillWrites] using h
  | child :: next :: rest, a, cells, h, hsizes => by
      unfold fillInteriorPage fillWrites
      dsimp only
      split
      · simpa using h
      · next hfull =>
          have hpos := length_buildInteriorCell_pos child isIndex
          have hfit := h.fits_of_not_full (hsizes child (by simp)) hfull
          obtain ⟨hfits, hlaid⟩ := fillWrites_spec isIndex (next :: rest) _ _ (h.add hpos hfit)
            (fun c hc => hsizes c (List.mem_cons_of_mem _ hc))
          rw [List.append_assoc] at hlaid
          exact ⟨List.forall_mem_cons.mpr ⟨h.fits hpos hfit, hfits⟩, hlaid⟩

theorem levelWrites_lays (isIndex : Bool) (fuel : Nat) :
    ∀ (pb : PageBuilder) (children : List PageRef),
      (∀ c, c ∈ children → sepSize isIndex c ≤ 65522) →
      (∀ x ∈ levelWrites isIndex fuel pb children, C x.cell) →
      Lays C (levelWrites isIndex fuel pb children) pb.fp
          (buildLevel isIndex fuel pb children).1.fp ∧
        ∀ c, c ∈ (buildLevel isIndex fuel pb children).2 → sepSize isIndex c ≤ 65522 := by
  induction fuel with
  | zero => exact fun pb _ _ _ => ⟨Lays.refl pb.fp, fun c hc => absurd hc List.not_mem_nil⟩
  | succ fuel ih =>
      intro pb children hsizes hkind
      obtain ⟨hfits, hlaid⟩ :=
        fillWrites_spec isIndex children (CellArea.empty 12) [] (laid_empty (by omega)) hsizes
      rcases hleft : (fillInteriorPage isIndex (CellArea.empty 12) children).2 with _ | ⟨right, rest⟩
      · simp only [levelWrites, buildLevel, hleft]
        exact ⟨Lays.refl pb.fp, fun c hc => absurd hc List.not_mem_nil⟩
      · simp only [levelWrites, buildLevel, hleft] at hkind ⊢
        obtain ⟨hfill, hlevel⟩ := List.forall_mem_append.mp hkind
        have hmem : ∀ c ∈ right :: rest, sepSize isIndex c ≤ 65522 := by
          intro c hc
          obtain ⟨taken, hsplit, -⟩ := fillInteriorPage_laid isIndex children (CellArea.empty 12) []
            (laid_empty (by omega)) hsizes
          exact hsizes c (by rw [hsplit, hleft]; exact List.mem_append_right _ hc)
        obtain ⟨hright, hrest⟩ := List.forall_mem_cons.mp hmem
        obtain ⟨hlays, hup⟩ := ih _ rest hrest hlevel
        have hpage := lays_interior hlaid
          (fun c hc => by
            obtain ⟨x, hx, rfl⟩ := List.mem_map.mp hc
            exact hfill x hx) pb right isIndex
        refine ⟨Lays.trans ⟨hfits, hpage.pages⟩ hlays, List.forall_mem_cons.mpr ⟨?_, hup⟩⟩
        rwa [sepSize_writeInteriorPage]

theorem levelsWrites_lays (isIndex : Bool) (fuel : Nat) :
    ∀ (pb : PageBuilder) (children : List PageRef),
      (∀ c, c ∈ children → sepSize isIndex c ≤ 65522) →
      (∀ x ∈ levelsWrites isIndex fuel pb children, C x.cell) →
      Lays C (levelsWrites isIndex fuel pb children) pb.fp
        (buildLevels isIndex fuel pb children).1.fp := by
  induction fuel with
  | zero => exact fun pb _ _ _ => Lays.refl pb.fp
  | succ fuel ih =>
      intro pb children hsizes hkind
      by_cases hlen : children.length > 1
      · simp only [levelsWrites, buildLevels, if_pos hlen] at hkind ⊢
        obtain ⟨hlevel, hlevels⟩ := List.forall_mem_append.mp hkind
        obtain ⟨hlays, hup⟩ := levelWrites_lays isIndex _ pb children hsizes hlevel
        exact hlays.trans (ih _ _ hup hlevels)
      · simp only [levelsWrites, buildLevels, if_neg hlen]
        exact Lays.refl pb.fp

theorem sepSize_le (isIndex : Bool) {r : PageRef} (h : (r.sepCell.getD []).length ≤ 65518) :
    sepSize isIndex r ≤ 65522 := by
  have hkey := length_putVarint_le_ten r.maxKey
  cases isIndex <;> simp [sepSize, buildInteriorCell] <;> omega

theorem Filling.root (h : Filling C pb cells) (isIndex : Bool)
    (hkind : ∀ x ∈ rootWrites pb isIndex, C x.cell) :
    Lays C (rootWrites pb isIndex) pb.fp (pbRoot pb isIndex).2.fp := by
  have hlevels := levelsWrites_lays (C := C) isIndex pb.leaves.length pb pb.leaves
    fun c hc => sepSize_le isIndex (h.seps c hc)
  rcases hleaves : pb.leaves with _ | ⟨leaf, _ | ⟨next, leaves⟩⟩
  · simp only [rootWrites, pbRoot, hleaves]
    exact Lays.refl pb.fp
  · simp only [rootWrites, pbRoot, hleaves]
    exact Lays.refl pb.fp
  · rw [hleaves] at hlevels
    simp only [rootWrites, pbRoot, pbBuildInterior, hleaves] at hkind ⊢
    exact hlevels hkind

theorem filling_init (f : File) {next : Nat} (hnext : 2 ≤ next) (isIndex : Bool) :
    Filling C (pbInit f next isIndex) [] := by
  have hpage : ¬ next = 1 := by omega
  have harea : (pbInit f next isIndex).area = CellArea.empty 8 := by simp [pbInit, hpage]
  exact ⟨by simp [pbInit, hpage], by rw [harea]; exact laid_empty (by omega),
    fun c hc => absurd hc List.not_mem_nil, fun r hr => absurd hr List.not_mem_nil⟩

theorem Filling.add (h : Filling C pb cells) (hpos : 0 < cell.length)
    (hfit : pbCellFits pb cell.length = true) (hkind : ∀ x ∈ [CellWrite.mk pb.area cell], C x.cell) :
    Lays C [⟨pb.area, cell⟩] pb.fp (pbAddCell pb cell).fp ∧
      Filling C (pbAddCell pb cell) (cells ++ [cell]) := by
  have hroom : (cell.length : Int) ≤ pb.area.available := by simpa [pbCellFits] using hfit
  refine ⟨⟨fun x hx => ?_, Extends.refl pb.fp⟩, h.plain, h.laid.add hpos hroom, ?_, h.seps⟩
  · rw [List.mem_singleton.mp hx]
    exact h.laid.fits hpos hroom
  · exact List.forall_mem_append.mpr ⟨h.kind, fun c hc => by
      rw [List.mem_singleton.mp hc]
      exact hkind _ List.mem_cons_self⟩

theorem Filling.flush (h : Filling C pb cells) (maxKey : Int) {sep : Option (List UInt8)}
    (hsep : (sep.getD []).length ≤ 65518) :
    Lays C [] pb.fp (pbFlushLeaf pb maxKey sep).fp ∧
      Filling C (pbFlushLeaf pb maxKey sep) [] := by
  by_cases hzero : pb.area.cellCount = 0
  · rw [pbFlushLeaf, if_pos hzero]
    obtain rfl := List.length_eq_zero_iff.mp (h.laid.count.symm.trans hzero)
    exact ⟨Lays.refl pb.fp, h⟩
  · have hne : cells ≠ [] := fun hnil => hzero (by rw [h.laid.count, hnil, List.length_nil])
    rw [pbFlushLeaf, if_neg hzero, h.plain]
    refine ⟨lays_leaf h.laid hne h.kind _ _, rfl, laid_empty (by omega),
      fun c hc => absurd hc List.not_mem_nil, List.forall_mem_append.mpr ⟨h.seps, fun r hr => ?_⟩⟩
    rw [List.mem_singleton.mp hr]
    exact hsep

theorem Filling.addRow (h : Filling C pb cells) (prev : Int) {row : Int × List UInt8}
    (hrow : RowOk False row) (hnext : 2 ≤ pb.nextPage)
    (hkind : ∀ x ∈ rowWrites pb row.1 row.2 prev, C x.cell) :
    (rowWrites pb row.1 row.2 prev).length = 1 ∧
      Lays C (rowWrites pb row.1 row.2 prev) pb.fp
        (pbAddTableCellWithFlush pb row.1 row.2 prev).fp ∧
      ∃ cells', Filling C (pbAddTableCellWithFlush pb row.1 row.2 prev) cells' := by
  obtain ⟨f, n, cell, hbuild, -, -, ⟨hpos, hsize⟩, -⟩ := pbBuildTableCell_spec pb hrow hnext
  have hspill := extends_pbBuildTableCell pb row.1 row.2
  rw [hbuild] at hspill
  have hspilled : Filling C { pb with fp := f, nextPage := n } cells :=
    ⟨h.plain, h.laid, h.kind, h.seps⟩
  simp only [rowWrites, pbAddTableCellWithFlush, hbuild] at hkind ⊢
  refine ⟨rfl, ?_⟩
  -- `pb'` is the builder that gets the cell
  have hready : ∀ pb' cells', Lays C [] f pb'.fp → Filling C pb' cells' →
      pbCellFits pb' cell.length = true → (∀ x ∈ [CellWrite.mk pb'.area cell], C x.cell) →
      Lays C [⟨pb'.area, cell⟩] pb.fp (pbAddCell pb' cell).fp ∧
        ∃ cells'', Filling C (pbAddCell pb' cell) cells'' := by
    intro pb' cells' hflushed hfilling hfit hkind
    obtain ⟨hlays, hadd⟩ := hfilling.add hpos hfit hkind
    exact ⟨((lays_overflow hspill).trans hflushed).trans hlays, _, hadd⟩
  by_cases hfit : pbCellFits { pb with fp := f, nextPage := n } cell.length = true
  · rw [if_neg (by simp [hfit])] at hkind ⊢
    exact hready _ cells (Lays.refl f) hspilled hfit hkind
  · have hcount : pb.area.cellCount > 0 := by
      by_contra hzero
      obtain rfl := List.length_eq_zero_iff.mp (h.laid.count.symm.trans (by omega))
      exact hfit (pbCellFits_of_nil hspilled.laid (by omega))
    obtain ⟨hflushed, hflush⟩ := hspilled.flush prev (show (none.getD []).length ≤ 65518 by simp)
    rw [if_pos ⟨by simpa using hfit, hcount⟩] at hkind ⊢
    exact hready _ [] hflushed hflush (pbCellFits_of_nil hflush.laid (by omega)) hkind

theorem rowsWrites_lays (rows : List (Int × List UInt8)) :
    ∀ (pb : PageBuilder) (prev : Int) (cells : List (List UInt8)), Filling C pb cells →
      2 ≤ pb.nextPage → (∀ row, row ∈ rows → RowOk False row) →
      (∀ x ∈ rowsWrites pb prev rows, C x.cell) →
      (rowsWrites pb prev rows).length = rows.length ∧
        Lays C (rowsWrites pb prev rows) pb.fp (addTableRows pb prev rows).fp ∧
        ∃ cells', Filling C (addTableRows pb prev rows) cells' := by
  induction rows with
  | nil => exact fun pb _ cells h _ _ _ => ⟨rfl, Lays.refl pb.fp, cells, h⟩
  | cons row rows ih =>
      intro pb prev cells h hnext hrows hkind
      obtain ⟨hrow, hrows⟩ := List.forall_mem_cons.mp hrows
      obtain ⟨hfirst, hrest⟩ := List.forall_mem_append.mp hkind
      obtain ⟨hone, hlays, cells', hfilling⟩ := h.addRow prev hrow hnext hfirst
      have hmono := composes_le.tableRow pb row.1 row.2 prev
      obtain ⟨hlen, hlays', hdone⟩ :=
        ih _ row.1 cells' hfilling (le_trans hnext hmono) hrows hrest
      refine ⟨?_, hlays.trans hlays', hdone⟩
      rw [rowsWrites, List.length_append, hone, hlen, List.length_cons, Nat.add_comm]

/-- The page of the cell loop of `write_index_btree`: short cells, the last one
being `prev`. -/
def IndexFilling (C : List UInt8 → Prop) (pb : PageBuilder) (prev : List UInt8) : Prop :=
  ∃ cells, Filling C pb cells ∧ (∀ c ∈ cells, c.length ≤ 16431) ∧
    (cells = [] ∨ ∃ front, cells = front ++ [prev])

theorem Filling.addShort (h : Filling C pb cells) (hshort : ∀ c ∈ cells, c.length ≤ 16431)
    (hcell : 0 < cell.length ∧ cell.length ≤ 16431) (hfit : pbCellFits pb cell.length = true)
    (hkind : ∀ x ∈ [CellWrite.mk pb.area cell], C x.cell) :
    Lays C [⟨pb.area, cell⟩] pb.fp (pbAddCell pb cell).fp ∧
      IndexFilling C (pbAddCell pb cell) cell := by
  obtain ⟨hlays, hadd⟩ := h.add hcell.1 hfit hkind
  refine ⟨hlays, _, hadd, List.forall_mem_append.mpr ⟨hshort, fun c hc => ?_⟩, Or.inr ⟨cells, rfl⟩⟩
  rw [List.mem_singleton.mp hc]
  exact hcell.2

theorem IndexFilling.addCell {prev : List UInt8} (h : IndexFilling C pb prev)
    (hcell : 0 < cell.length ∧ cell.length ≤ 16431)
    (hkind : ∀ x ∈ cellWrites pb prev cell, C x.cell) :
    (cellWrites pb prev cell).length = 1 ∧
      Lays C (cellWrites pb prev cell) pb.fp (addIndexCell pb prev cell).fp ∧
      IndexFilling C (addIndexCell pb prev cell) cell := by
  obtain ⟨cells, hfilling, hshort, hlast⟩ := h
  unfold cellWrites addIndexCell at *
  by_cases hfit : pbCellFits pb cell.length = true
  · rw [if_pos hfit] at hkind ⊢
    rw [if_pos hfit]
    exact ⟨rfl, hfilling.addShort hshort hcell hfit hkind⟩
  · have htwo := two_le_of_not_fits hfilling.laid hshort hcell.2 hfit
    obtain ⟨front, rfl⟩ : ∃ front, cells = front ++ [prev] := by
      rcases hlast with rfl | hlast
      · exact absurd htwo (by simp)
      · exact hlast
    have hprev := hshort prev (by simp)
    have hcount : pb.area.cellCount > 0 := by
      rw [hfilling.laid.count]
      omega
    have hpromoted : Filling C { pb with area := { pb.area with
        cellCount := pb.area.cellCount - 1
        contentOffset := pb.area.contentOffset + prev.length
        ptrOffset := pb.area.ptrOffset - 2 } } front :=
      ⟨hfilling.plain, hfilling.laid.removeLast,
        fun c hc => hfilling.kind c (List.mem_append_left _ hc), hfilling.seps⟩
    obtain ⟨hflushed, hflush⟩ := hpromoted.flush 0 (show ((some prev).getD []).length ≤ 65518 by
      simp only [Option.getD_some]
      omega)
    have hfit' : pbCellFits (pbPromoteAndFlush pb prev) cell.length = true :=
      pbCellFits_of_nil hflush.laid (by omega)
    simp only [if_neg hfit, if_pos hcount, if_pos hfit'] at hkind ⊢
    obtain ⟨hlays, hadd⟩ := hflush.addShort (fun c hc => absurd hc List.not_mem_nil) hcell hfit'
      hkind
    exact ⟨rfl, hflushed.trans hlays, hadd⟩

theorem cellsWrites_lays (cells : List (List UInt8)) :
    ∀ (pb : PageBuilder) (prev : List UInt8), IndexFilling C pb prev →
      (∀ c, c ∈ cells → 0 < c.length ∧ c.length ≤ 16431) →
      (∀ x ∈ cellsWrites pb prev cells, C x.cell) →
      (cellsWrites pb prev cells).length = cells.length ∧
        Lays C (cellsWrites pb prev cells) pb.fp (addIndexCells pb prev cells).fp ∧
        ∃ last, IndexFilling C (addIndexCells pb prev cells) last := by
  induction cells with
  | nil => exact fun pb prev h _ _ => ⟨rfl, Lays.refl pb.fp, prev, h⟩
  | cons cell cells ih =>
      intro pb prev h hcells hkind
      obtain ⟨hcell, hcells⟩ := List.forall_mem_cons.mp hcells
      obtain ⟨hfirst, hrest⟩ := List.forall_mem_append.mp hkind
      obtain ⟨hone, hlays, hfilling⟩ := h.addCell hcell hfirst
      obtain ⟨hlen, hlays', hdone⟩ := ih _ cell hfilling hcells hrest
      refine ⟨?_, hlays.trans hlays', hdone⟩
      rw [cellsWrites, List.length_append, hone, hlen, List.length_cons, Nat.add_comm]

end Run

/-- The run from `f` to `g` writes the cells `xs`: each of them fits, and on every page that is
written stand whole cells of `xs`, apart from each other, below the pointers and where these
say. -/
def LaysOut (xs : List CellWrite) (f g : File) : Prop :=
  (∀ x ∈ xs, x.Fits) ∧ Extends (PageLaidOut fun c => c ∈ xs.map CellWrite.cell) f g

section Writers

variable {C : List UInt8 → Prop}
variable {pb : PageBuilder}
variable {cells : List (List UInt8)}
variable {f g : File}
variable {xs : List CellWrite}

theorem mem_cells (xs : List CellWrite) : ∀ x ∈ xs, x.cell ∈ xs.map CellWrite.cell :=
  fun _ hx => List.mem_map_of_mem hx

theorem Lays.laysOut (h : Lays (fun c => c ∈ xs.map CellWrite.cell) xs f g) : LaysOut xs f g :=
  ⟨h.fits, h.pages.mono fun _ hw => hw.1⟩

theorem Filling.finish (h : Filling C pb cells) (maxKey : Int) {sep : Option (List UInt8)}
    (hsep : (sep.getD []).length ≤ 65518) (isIndex : Bool)
    (hkind : ∀ x ∈ rootWrites (if pb.area.cellCount > 0 then pbFlushLeaf pb maxKey sep else pb)
      isIndex, C x.cell) :
    Lays C (rootWrites (if pb.area.cellCount > 0 then pbFlushLeaf pb maxKey sep else pb) isIndex)
      pb.fp
      (pbRoot (if pb.area.cellCount > 0 then pbFlushLeaf pb maxKey sep else pb) isIndex).2.fp := by
  split at hkind
  · next hcount =>
    rw [if_pos hcount]
    obtain ⟨hflushed, hflush⟩ := h.flush maxKey hsep
    exact hflushed.trans (hflush.root isIndex hkind)
  · next hcount =>
    rw [if_neg hcount]
    exact h.root isIndex hkind

theorem extends_emptyLeaf (f : File) (p : Nat) (flag : UInt8) :
    Extends (PageLaidOut C) f (f.writePage .leaf p (emptyLeaf 0 flag)) :=
  extends_fwrite f ⟨fun _ => ⟨[], fun c hc => absurd hc List.not_mem_nil,
    (laid_empty (by omega)).laidOut flag le_rfl fun _ _ _ => rfl⟩,
    fun hkind => absurd hkind (by simp)⟩

theorem tableWrites_lays (f : File) {next : Nat} (hnext : 2 ≤ next)
    {rows : List (Int × List UInt8)} (hrows : ∀ row, row ∈ rows → RowOk False row)
    (hkind : ∀ x ∈ tableWrites f next rows, C x.cell) :
    (tableLeafWrites f next rows).length = rows.length ∧
      Lays C (tableWrites f next rows) f
        (pbFinalizeTable (addTableRows (pbInit f next false) 0 rows) (lastRowid rows)).2.fp := by
  obtain ⟨hleaves, hroot⟩ := List.forall_mem_append.mp hkind
  obtain ⟨hlen, hlays, cells, hfilling⟩ := rowsWrites_lays rows _ 0 []
    (filling_init f hnext false) hnext hrows hleaves
  exact ⟨hlen, hlays.trans (hfilling.finish (lastRowid rows) (Nat.zero_le _) false hroot)⟩

theorem writeTableBtree_laysOut (f : File) {next : Nat} (hnext : 2 ≤ next)
    {rows : List (Int × List UInt8)} (hrows : ∀ row, row ∈ rows → RowOk False row) :
    (tableLeafWrites f next rows).length = rows.length ∧
      LaysOut (tableWrites f next rows) f (writeTableBtree f next rows false).2.1 := by
  obtain ⟨hlen, hlays⟩ := tableWrites_lays f hnext hrows (mem_cells _)
  refine ⟨hlen, ?_⟩
  by_cases hne : rows = []
  · subst hne
    exact ⟨hlays.fits, by simpa [writeTableBtree] using extends_emptyLeaf f _ 0x0D⟩
  · have hpage : ¬ next = 1 := by omega
    simpa only [writeTableBtree, if_neg hne, pbInit, if_neg hpage, Bool.false_eq_true, if_false]
      using hlays.laysOut

theorem length_overflowizeCells (cells : List (List UInt8)) :
    ∀ (f : File) (next : Nat), (overflowizeCells f next cells).2.2.length = cells.length := by
  induction cells with
  | nil => exact fun f next => rfl
  | cons cell cells ih => exact fun f next => congrArg (· + 1) (ih _ _)

theorem indexWrites_lays (f : File) {next : Nat} (hnext : 2 ≤ next)
    {payloads : List (List UInt8)} (hlen : ∀ p, p ∈ payloads → p.length < 2 ^ 31)
    (hkind : ∀ x ∈ indexWrites f next (payloads.map indexCell), C x.cell) :
    (indexLeafWrites f next (payloads.map indexCell)).length = payloads.length ∧
      Lays C (indexWrites f next (payloads.map indexCell)) f
        (finalizeIndex (addIndexCells (pbInit (overflowizeCells f next (payloads.map indexCell)).1
          (overflowizeCells f next (payloads.map indexCell)).2.1 true) []
            (overflowizeCells f next (payloads.map indexCell)).2.2)
          ((overflowizeCells f next (payloads.map indexCell)).2.2.getLastD [])).2.fp := by
  obtain ⟨hle, -, hsizes, -⟩ := overflowizeCells_spec payloads f next (by omega) hlen
  have hspill := extends_overflowizeCells (payloads.map indexCell) f next
  have hcount := length_overflowizeCells (payloads.map indexCell) f next
  obtain ⟨hleaves, hroot⟩ := List.forall_mem_append.mp hkind
  obtain ⟨hwrites, hlays, last, cells, hfilling, -⟩ := cellsWrites_lays _ _ []
    ⟨[], filling_init _ (le_trans hnext hle) true, fun c hc => absurd hc List.not_mem_nil,
      Or.inl rfl⟩ hsizes hleaves
  have hlast : ((some ((overflowizeCells f next (payloads.map indexCell)).2.2.getLastD [])).getD
      []).length ≤ 65518 := by
    rw [Option.getD_some, List.getLastD_eq_getLast?]
    cases hget : (overflowizeCells f next (payloads.map indexCell)).2.2.getLast? with
    | none => simp
    | some c =>
        have hc := hsizes c (List.mem_of_getLast? hget)
        rw [Option.getD_some]
        omega
  refine ⟨?_, ((lays_overflow hspill).trans hlays).trans (hfilling.finish 0 hlast true hroot)⟩
  rw [indexLeafWrites, hwrites, hcount, List.length_map]

theorem writeIndexBtree_laysOut (f : File) {next : Nat} (hnext : 2 ≤ next)
    {payloads : List (List UInt8)} (hlen : ∀ p, p ∈ payloads → p.length < 2 ^ 31) :
    (indexLeafWrites f next (payloads.map indexCell)).length = payloads.length ∧
      LaysOut (indexWrites f next (payloads.map indexCell)) f
        (writeIndexBtree f next (payloads.map indexCell)).2.1 := by
  obtain ⟨hcount, hlays⟩ := indexWrites_lays f hnext hlen (mem_cells _)
  refine ⟨hcount, ?_⟩
  by_cases hne : payloads = []
  · subst hne
    exact ⟨hlays.fits,
      by simpa [writeIndexBtree, writeEmptyIndexLeaf] using extends_emptyLeaf f _ 0x0A⟩
  · simpa only [writeIndexBtree, List.map_eq_nil_iff, if_neg hne] using hlays.laysOut

/-- Pages are laid out without overlap, whatever is written: each cell of a row and of an index
entry is added to a leaf, and none without room for it. -/
theorem pages_laid_out (f : File) {next : Nat} (hnext : 2 ≤ next) :
    (∀ rows : List (Int × List UInt8), (∀ row, row ∈ rows → RowOk False row) →
      (tableLeafWrites f next rows).length = rows.length ∧
        LaysOut (tableWrites f next rows) f (writeTableBtree f next rows false).2.1) ∧
    ∀ payloads : List (List UInt8), (∀ p, p ∈ payloads → p.length < 2 ^ 31) →
      (indexLeafWrites f next (payloads.map indexCell)).length = payloads.length ∧
        LaysOut (indexWrites f next (payloads.map indexCell)) f
          (writeIndexBtree f next (payloads.map indexCell)).2.1 :=
  ⟨fun _ hrows => writeTableBtree_laysOut f hnext hrows,
    fun _ hlen => writeIndexBtree_laysOut f hnext hlen⟩

/-- Two rows and two entries. -/
theorem pages_laid_out_two :
    LaysOut (tableWrites File.empty 2 [(1, [7]), (5, [8, 9])]) File.empty
        (writeTableBtree File.empty 2 [(1, [7]), (5, [8, 9])] false).2.1 ∧
      LaysOut (indexWrites File.empty 2 ([[7], [8, 9]].map indexCell)) File.empty
        (writeIndexBtree File.empty 2 ([[7], [8, 9]].map indexCell)).2.1 :=
  ⟨((pages_laid_out File.empty le_rfl).1 _ (by simp [RowOk])).2,
    ((pages_laid_out File.empty le_rfl).2 _ (by simp)).2⟩

end Writers

end Sqlite
end CodebaseMemory
