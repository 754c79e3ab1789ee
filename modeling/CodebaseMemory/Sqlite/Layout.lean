import CodebaseMemory.Sqlite.Reader
import CodebaseMemory.Sqlite.Writer

/-!
# What stands on a page the builder has filled

`Laid a ptr cells` is the invariant of a page under construction: the cells
`cells` stand one below the other from the end of the page down, and their
pointers one above the other from offset `ptr` up.  `CellArea.add` keeps it
for a cell that fits, and taking the last cell off again
(`pb_promote_and_flush`) gives it back for the cells before.

`LeafStored` and `NodeStored` say what a *reader* of the finished file finds
on a page.  Both quantify over every file that agrees with the present one
below the page counter, so that no later write has to be considered again:
`LeafStored.mono` and `NodeStored.mono` carry them along.
-/

namespace CodebaseMemory
namespace Sqlite

open Lib

def cellsSize (cells : List (List UInt8)) : Nat :=
  (cells.map List.length).sum

@[simp] theorem cellsSize_nil : cellsSize [] = 0 := rfl

@[simp] theorem cellsSize_cons (c : List UInt8) (cs : List (List UInt8)) :
    cellsSize (c :: cs) = c.length + cellsSize cs := by
  simp [cellsSize]

@[simp] theorem cellsSize_append (as bs : List (List UInt8)) :
    cellsSize (as ++ bs) = cellsSize as + cellsSize bs := by
  simp [cellsSize]

/-- The cells stand below offset `top`, their pointers from `ptr` on. -/
def Placed (page : Memory) : Nat → Nat → List (List UInt8) → Prop
  | _, _, [] => True
  | ptr, top, c :: cs =>
      (0 < c.length ∧ c.length ≤ top) ∧
        page.Holds ptr (bigEndian 2 (top - c.length)) ∧
        page.Holds (top - c.length) c ∧
        Placed page (ptr + 2) (top - c.length) cs

variable {c : List UInt8}
variable {ptr : Nat}
variable {cells : List (List UInt8)}
variable {a : CellArea}
variable {page : Memory}

theorem Placed.congr {page' : Memory} :
    ∀ {cells : List (List UInt8)} {ptr top : Nat}, Placed page ptr top cells →
      cellsSize cells ≤ top →
      (∀ i, ptr ≤ i → i < ptr + 2 * cells.length → page' i = page i) →
      (∀ i, top - cellsSize cells ≤ i → i < top → page' i = page i) →
      Placed page' ptr top cells
  | [], _, _, _, _, _, _ => trivial
  | c :: cs, ptr, top, h, hsize, hptr, hcont => by
      obtain ⟨hlen, hp, hc, hrest⟩ := h
      simp only [cellsSize_cons, List.length_cons] at hsize hptr hcont
      refine ⟨hlen, ?_, ?_, ?_⟩
      · apply hp.congr
        intro i hi
        rw [length_bigEndian] at hi
        exact hptr _ (by omega) (by omega)
      · apply hc.congr
        intro i hi
        exact hcont _ (by omega) (by omega)
      · apply Placed.congr hrest (by omega)
        · intro i h₁ h₂
          exact hptr i (by omega) (by omega)
        · intro i h₁ h₂
          exact hcont i (by omega) (by omega)

theorem Placed.snoc :
    ∀ {cells : List (List UInt8)} {ptr top : Nat}, Placed page ptr top cells →
      0 < c.length → cellsSize cells + c.length ≤ top →
      page.Holds (ptr + 2 * cells.length) (bigEndian 2 (top - cellsSize cells - c.length)) →
      page.Holds (top - cellsSize cells - c.length) c →
      Placed page ptr top (cells ++ [c])
  | [], _, _, _, hpos, hsize, hp, hc => by
      simp only [cellsSize_nil, Nat.zero_add] at hsize
      exact ⟨⟨hpos, hsize⟩, hp, hc, trivial⟩
  | d :: ds, ptr, top, h, hpos, hsize, hp, hc => by
      obtain ⟨hlen, hpd, hcd, hrest⟩ := h
      simp only [cellsSize_cons, List.length_cons] at hsize hp hc
      refine ⟨hlen, hpd, hcd, Placed.snoc hrest hpos (by omega) ?_ ?_⟩
      · have e₁ : ptr + 2 + 2 * ds.length = ptr + 2 * (ds.length + 1) := by omega
        have e₂ : top - d.length - cellsSize ds - c.length =
            top - (d.length + cellsSize ds) - c.length := by omega
        rw [e₁, e₂]
        exact hp
      · have e₂ : top - d.length - cellsSize ds - c.length =
            top - (d.length + cellsSize ds) - c.length := by omega
        rw [e₂]
        exact hc

theorem Placed.init :
    ∀ {cells more : List (List UInt8)} {ptr top : Nat},
      Placed page ptr top (cells ++ more) → Placed page ptr top cells
  | [], _, _, _, _ => trivial
  | _ :: _, _, _, _, h => ⟨h.1, h.2.1, h.2.2.1, Placed.init h.2.2.2⟩

theorem Placed.pageCells {β : Type} (cell : Memory → β) :
    ∀ {cells : List (List UInt8)} {ptr top : Nat}, Placed page ptr top cells →
      top ≤ 65536 →
      List.Forall₂ (fun c x => ∃ off, page.Holds off c ∧ x = cell (page.shift off)) cells
        (Sqlite.pageCells page ptr cells.length cell)
  | [], _, _, _, _ => List.Forall₂.nil
  | c :: cs, ptr, top, h, htop => by
      obtain ⟨⟨hpos, hlen⟩, hp, hc, hrest⟩ := h
      have ih := Placed.pageCells cell hrest (by omega)
      have hoff : page.getBe ptr 2 = top - c.length := hp.getBe_eq (by omega)
      unfold Sqlite.pageCells at ih ⊢
      rw [List.length_cons, List.range_succ_eq_map, List.map_cons, List.map_map]
      refine List.Forall₂.cons ⟨top - c.length, hc, by simp [hoff]⟩ ?_
      convert ih using 2
      funext i
      simp only [Function.comp_apply]
      congr 3
      omega

/-- Invariant of a page under construction. -/
structure Laid (a : CellArea) (ptr : Nat) (cells : List (List UInt8)) : Prop where
  count : a.cellCount = cells.length
  pointers : a.ptrOffset = ptr + 2 * cells.length
  content : a.contentOffset + cellsSize cells = 65536
  room : a.ptrOffset ≤ a.contentOffset
  placed : Placed a.page ptr 65536 cells

theorem laid_empty (h : ptr ≤ 65536) : Laid (CellArea.empty ptr) ptr [] where
  count := rfl
  pointers := rfl
  content := rfl
  room := h
  placed := trivial

theorem Laid.add (h : Laid a ptr cells) (hpos : 0 < c.length)
    (hfit : (c.length : Int) ≤ a.available) : Laid (a.add c) ptr (cells ++ [c]) := by
  have hcontent := h.content
  have hroom : a.ptrOffset + 2 + c.length ≤ a.contentOffset := by
    unfold CellArea.available at hfit
    omega
  have hold : Placed (a.add c).page ptr 65536 cells := by
    apply h.placed.congr (by omega)
    · intro i h₁ h₂
      have hp := h.pointers
      simp only [CellArea.add]
      rw [Memory.memcpy_apply_outside _ _ _ (by omega),
        Memory.memcpy_apply_outside _ _ _ (by omega)]
    · intro i h₁ h₂
      simp only [CellArea.add]
      rw [Memory.memcpy_apply_outside _ _ _ (by rw [length_bigEndian]; omega),
        Memory.memcpy_apply_outside _ _ _ (by omega)]
  have hoff : 65536 - cellsSize cells - c.length = a.contentOffset - c.length := by omega
  refine ⟨by simp [CellArea.add, h.count], ?_, ?_, ?_, ?_⟩
  · simp only [CellArea.add, h.pointers, List.length_append, List.length_singleton]
    omega
  · simp only [CellArea.add, cellsSize_append, cellsSize_cons, cellsSize_nil]
    omega
  · simp only [CellArea.add]
    omega
  · apply hold.snoc hpos (by omega)
    · rw [hoff, ← h.pointers]
      exact Memory.holds_memcpy _ _ _
    · rw [hoff]
      apply (Memory.holds_memcpy a.page (a.contentOffset - c.length) c).memcpy
      right
      rw [length_bigEndian]
      omega

theorem Laid.removeLast (h : Laid a ptr (cells ++ [c])) :
    Laid { a with
      cellCount := a.cellCount - 1
      contentOffset := a.contentOffset + c.length
      ptrOffset := a.ptrOffset - 2 } ptr cells := by
  have hc := h.count
  have hp := h.pointers
  have hcontent := h.content
  have hroom := h.room
  simp only [List.length_append, List.length_singleton, cellsSize_append, cellsSize_cons,
    cellsSize_nil] at hc hp hcontent
  exact ⟨by simp [hc], by simp only; omega, by simp only; omega, by simp only; omega,
    h.placed.init⟩

theorem Laid.count_lt (h : Laid a ptr cells) : cells.length < 32769 := by
  have := h.pointers
  have := h.room
  have := h.content
  omega

section Stored

variable {ι α κ κ' : Type} {F : Format α κ'}

/-- A reader of any file that agrees with `f` below page `n` gets from the
bytes of `cell` a value in `P`. -/
def CellOk {β : Type} (parse : File → Memory → β) (f : File) (n : Nat) (P : β → Prop)
    (cell : List UInt8) : Prop :=
  ∀ g, Agree n f g → ∀ mem : Memory, mem.Holds 0 cell → P (parse g mem)

variable {cells : List (List UInt8)}
variable {m n p : Nat}
variable {a : CellArea}
variable {f g : File}
variable {page : Memory}
variable {items : List ι}

theorem CellOk.mono {β : Type} {parse : File → Memory → β} {P : β → Prop} {cell : List UInt8}
    (h : CellOk parse f n P cell) (hfg : Agree n f g) (hnm : n ≤ m) : CellOk parse g m P cell :=
  fun g' hg' mem hmem => h g' (hfg.trans (hg'.mono hnm)) mem hmem

/-- A reader finds the leaf `p` with `items`, up to the relation `R`. -/
def LeafStored (F : Format α κ') (R : ι → α → Prop) (f : File) (n p : Nat)
    (items : List ι) : Prop :=
  (1 ≤ p ∧ p < n) ∧ ∀ g, Agree n f g →
    ∃ xs, F.view g p = some (.leaf xs) ∧ List.Forall₂ R items xs

/-- A reader finds the interior page `p` with `cells` and `right`. -/
def NodeStored (F : Format α κ') (Rk : κ → κ' → Prop) (f : File) (n p : Nat)
    (cells : List (Nat × κ)) (right : Nat) : Prop :=
  (1 ≤ p ∧ p < n) ∧ ∀ g, Agree n f g →
    ∃ cells', F.view g p = some (.interior cells' right) ∧
      List.Forall₂ (fun c c' => c.1 = c'.1 ∧ Rk c.2 c'.2) cells cells'

theorem LeafStored.mono {R : ι → α → Prop} (h : LeafStored F R f n p items) (hfg : Agree n f g)
    (hnm : n ≤ m) : LeafStored F R g m p items :=
  ⟨⟨h.1.1, by have := h.1.2; omega⟩, fun g' hg' => h.2 g' (hfg.trans (hg'.mono hnm))⟩

theorem NodeStored.mono {Rk : κ → κ' → Prop} {cells : List (Nat × κ)} {right : Nat}
    (h : NodeStored F Rk f n p cells right) (hfg : Agree n f g) (hnm : n ≤ m) :
    NodeStored F Rk g m p cells right :=
  ⟨⟨h.1.1, by have := h.1.2; omega⟩, fun g' hg' => h.2 g' (hfg.trans (hg'.mono hnm))⟩

theorem length_btreeHeader (flag : UInt8) (count content : Nat) :
    (btreeHeader flag count content).length = 8 := by
  simp [btreeHeader]

theorem holds_btreeHeader {hdr count content : Nat} {flag : UInt8}
    (h : page.Holds hdr (btreeHeader flag count content)) :
    page hdr = flag ∧ page.Holds (hdr + 3) (bigEndian 2 count) := by
  unfold btreeHeader at h
  refine ⟨?_, ?_⟩
  · simpa using h.left.left.left.left.apply (i := 0) (by simp)
  · simpa using h.left.left.right

theorem Placed.read {β : Type} {parse : File → Memory → β} {P : ι → β → Prop} {ptr top : Nat}
    (hplaced : Placed page ptr top cells) (htop : top ≤ 65536) (hfg : Agree n f g)
    (hcells : List.Forall₂ (fun item c => CellOk parse f n (P item) c) items cells) :
    List.Forall₂ P items (Sqlite.pageCells page ptr cells.length (parse g)) := by
  have hread := hplaced.pageCells (parse g) htop
  generalize Sqlite.pageCells page ptr cells.length (parse g) = xs at hread
  clear hplaced
  induction hcells generalizing xs with
  | nil =>
      cases hread
      exact List.Forall₂.nil
  | cons hc _ ih =>
      cases hread with
      | cons hx hxs =>
          obtain ⟨off, hoff, rfl⟩ := hx
          refine List.Forall₂.cons ?_ (ih _ hxs)
          exact hc g hfg _ ((Memory.holds_shift _ _ _ _).mpr hoff)

theorem Laid.finished {ptr : Nat} (hdr : Nat) (flag : UInt8) (page : Memory) (h : Laid a ptr cells)
    (hptr : hdr + 8 ≤ ptr) (hpage : ∀ i, i < 65536 → (hdr ≤ i ∧ i < hdr + 8) ∨ ptr ≤ i →
      page i = a.finish hdr flag i) :
    page hdr = flag ∧ page.getBe (hdr + 3) 2 = cells.length ∧ Placed page ptr 65536 cells := by
  have hcount := h.count_lt
  have hsize := h.content
  have hpointers := h.pointers
  have hroom := h.room
  have hheader : page.Holds hdr (btreeHeader flag a.cellCount a.contentOffset) := by
    apply (Memory.holds_memcpy a.page hdr _).congr
    intro i hi
    rw [length_btreeHeader] at hi
    exact hpage _ (by omega) (by omega)
  have hbody : ∀ i, i < 65536 → ptr ≤ i → page i = a.page i := by
    intro i h₁ h₂
    rw [hpage i h₁ (by omega)]
    exact Memory.memcpy_apply_outside _ _ _ (by rw [length_btreeHeader]; omega)
  obtain ⟨hflag, hcnt⟩ := holds_btreeHeader hheader
  refine ⟨hflag, ?_, ?_⟩
  · rw [h.count] at hcnt
    exact hcnt.getBe_eq (by omega)
  · apply h.placed.congr (by omega)
    · intro i h₁ h₂
      exact hbody i (by omega) h₁
    · intro i h₁ h₂
      exact hbody i h₂ (by omega)

theorem page_of_agree {kind : WriteKind} (hp : 2 ≤ p)
    (hg : Agree (p + 1) (f.writePage kind p page) g) : ∀ i, i < 65536 → g.page p i = page i := by
  intro i hi
  rw [hg.page_eq hp (by omega) hi, f.page_writePage kind p page hi]

theorem leafStored_writePage {R : ι → α → Prop} (hlaid : Laid a 8 cells) (hp : 2 ≤ p) (hnp : n ≤ p)
    (hcells : List.Forall₂ (fun item c => CellOk F.leafCell f n (R item) c) items cells) :
    LeafStored F R (f.writePage .leaf p (a.finish 0 F.leafFlag)) (p + 1) p items := by
  refine ⟨⟨by omega, by omega⟩, fun g hg => ?_⟩
  have hpage := page_of_agree hp hg
  have hfg : Agree n f g := (agree_writePage f .leaf _ hnp).trans (hg.mono (by omega))
  obtain ⟨hflag, hcnt, hplaced⟩ :=
    hlaid.finished 0 F.leafFlag (g.page p) le_rfl (fun i hi _ => hpage i hi)
  refine ⟨_, ?_, hplaced.read le_rfl hfg hcells⟩
  simp only [Format.view, headerOffset, if_neg (show ¬ p = 1 by omega),
    if_neg (show ¬ p = 0 by omega), Nat.zero_add, hflag, hcnt, if_true]

theorem nodeStored_writePage {Rk : κ → κ' → Prop} {right : Nat} {refs : List (Nat × κ)}
    (hlaid : Laid a 12 cells) (hp : 2 ≤ p) (hnp : n ≤ p) (hright : right < 2 ^ 32)
    (hflags : F.interiorFlag ≠ F.leafFlag) (hcells : List.Forall₂
      (fun r c => CellOk F.interiorCell f n (fun x => r.1 = x.1 ∧ Rk r.2 x.2) c) refs cells) :
    NodeStored F Rk
      (f.writePage .interior p
        ((a.finish 0 F.interiorFlag).memcpy 8 (bigEndian 4 right))) (p + 1) p refs right := by
  refine ⟨⟨by omega, by omega⟩, fun g hg => ?_⟩
  have hpage := page_of_agree hp hg
  have hfg : Agree n f g := (agree_writePage f .interior _ hnp).trans (hg.mono (by omega))
  obtain ⟨hflag, hcnt, hplaced⟩ :=
    hlaid.finished 0 F.interiorFlag (g.page p) (by omega) (by
      intro i hi hout
      rw [hpage i hi]
      exact Memory.memcpy_apply_outside _ _ _ (by rw [length_bigEndian]; omega))
  have hr : (g.page p).getBe 8 4 = right := by
    apply Memory.Holds.getBe_eq _ (by omega)
    apply (Memory.holds_memcpy (a.finish 0 F.interiorFlag) 8 _).congr
    intro i hi
    rw [length_bigEndian] at hi
    exact hpage _ (by omega)
  refine ⟨_, ?_, hplaced.read le_rfl hfg hcells⟩
  simp only [Format.view, headerOffset, if_neg (show ¬ p = 1 by omega),
    if_neg (show ¬ p = 0 by omega), Nat.zero_add, hflag, hcnt, hr, if_neg hflags, if_true]

end Stored

end Sqlite
end CodebaseMemory
