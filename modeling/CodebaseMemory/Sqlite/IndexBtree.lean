import CodebaseMemory.Sqlite.Leaves

/-!
# The index writer loses and duplicates nothing

`write_index_btree` first spills what is too long for a cell, then fills
leaves.  When a cell does not fit, the last cell of the page leaves it and
becomes the separator in the page above, so an entry stands either in a leaf
or in an interior page.

`IndexLoop pb prev items` is the invariant of the cell loop: the builder holds
`items`, and the last cell of the page under construction is `prev`, the cell
`pb_promote_and_flush` is going to copy.  Since a cell has at most 16431 bytes,
a page that is too full for the next cell has more than one, and the flushed
leaf is never empty.
-/

namespace CodebaseMemory
namespace Sqlite

open Lib BTree

def ReadsAs (payload : List UInt8) (x : Option (List UInt8)) : Prop :=
  x = some payload

variable {cell payload : List UInt8}
variable {pb : PageBuilder}
variable {n : Nat}
variable {f : File}
variable {items : List (List UInt8)}

theorem indexLeafCell_eq {g : File} {mem : Memory} {rest : List UInt8} (hn : n < 2 ^ 31)
    (h : mem.Holds 0 (putVarint (n : Int) ++ rest)) :
    indexLeafCell g mem =
      readPayload g indexMaxLocal (mem.shift (putVarint (n : Int)).length) n := by
  have hget := getVarint_length hn h.left
  rw [Memory.shift_zero] at hget
  simp only [indexLeafCell, hget]

/-- A cell the loop below handles, for the payload it is read as. -/
def IndexCellOk (f : File) (n : Nat) (payload cell : List UInt8) : Prop :=
  (0 < cell.length ∧ cell.length ≤ 16431) ∧ CellOk indexLeafCell f n (ReadsAs payload) cell

theorem IndexCellOk.mono {g : File} {m : Nat} (h : IndexCellOk f n payload cell) (hfg : Agree n f g)
    (hnm : n ≤ m) : IndexCellOk g m payload cell :=
  ⟨h.1, h.2.mono hfg hnm⟩

theorem indexCellOk_inline (f : File) (n : Nat) (hlen : payload.length ≤ indexMaxLocal) :
    IndexCellOk f n payload (indexCell payload) := by
  have hmax : indexMaxLocal = 16422 := by decide
  have hsmall : payload.length < 2 ^ 31 := by omega
  have hpos := length_putVarint_pos (payload.length : Int)
  have hle := length_putVarint_le_five hsmall
  refine ⟨?_, fun g _ mem hmem => ?_⟩
  · simp only [indexCell, List.length_append]
    omega
  · rw [ReadsAs, indexLeafCell_eq hsmall hmem]
    apply readPayload_inline hlen
    rw [Memory.holds_shift]
    simpa using hmem.right

theorem indexCell_spilled (f : File) {next loc : Nat} (hnext : 2 ≤ next)
    (hlen : payload.length < 2 ^ 31) (hlong : indexMaxLocal < payload.length)
    (hloc : loc = spillLocal indexMaxLocal payload.length) :
    let cell := putVarint payload.length ++ (payload.take loc ++ bigEndian 4 next)
    (0 < cell.length ∧ cell.length ≤ 16431) ∧
      ((writeOverflowPages f next (payload.drop loc)).2.1 ≤ 2 ^ 32 →
        CellOk indexLeafCell (writeOverflowPages f next (payload.drop loc)).1
          (writeOverflowPages f next (payload.drop loc)).2.1 (ReadsAs payload) cell) := by
  have hmax : indexMaxLocal = 16422 := by decide
  have hpos := length_putVarint_pos (payload.length : Int)
  have hle := length_putVarint_le_five hlen
  have hlocle : loc ≤ 16422 := by
    rw [hloc, hmax]
    exact spillLocal_le _ (by omega)
  refine ⟨?_, fun hbound g hg mem hmem => ?_⟩
  · simp only [List.length_append, length_bigEndian, List.length_take]
    omega
  · rw [ReadsAs, indexLeafCell_eq hlen hmem]
    have hrest := hmem.right
    rw [Nat.zero_add] at hrest
    exact readPayload_spilled hnext (by omega) hlong hloc hbound hg
      ((Memory.holds_shift _ _ _ _).mpr (by simpa using hrest))

theorem split_indexCell (payload : List UInt8) (loc : Nat) :
    ((indexCell payload).drop ((putVarint payload.length).length + loc)).take
        (payload.length - loc) = payload.drop loc ∧
      (indexCell payload).take ((putVarint payload.length).length + loc) =
        putVarint payload.length ++ payload.take loc := by
  constructor
  · rw [indexCell, List.drop_append, List.drop_eq_nil_of_le (by omega), List.nil_append,
      Nat.add_sub_cancel_left]
    exact List.take_of_length_le (by simp)
  · rw [indexCell, List.take_length_add_append]

theorem overflowizeIndexCell_spec (f : File) {next : Nat} (hnext : 2 ≤ next)
    (hlen : payload.length < 2 ^ 31) : let o := overflowizeIndexCell f next (indexCell payload)
    next ≤ o.2.1 ∧ Agree next f o.1 ∧ (0 < o.2.2.length ∧ o.2.2.length ≤ 16431) ∧
      (o.2.1 ≤ 2 ^ 32 → CellOk indexLeafCell o.1 o.2.1 (ReadsAs payload) o.2.2) := by
  have hmax : indexOverflowMaxLocal = indexMaxLocal := by decide
  have hget : getVarint (bufferOf (indexCell payload)) =
      (payload.length, (putVarint payload.length).length) := by
    rw [← (bufferOf (indexCell payload)).shift_zero]
    exact getVarint_length hlen (holds_bufferOf (indexCell payload)).left
  have hsigned : toI64 payload.length = payload.length := by
    rw [toI64, if_pos (by omega)]
  intro o
  by_cases hshort : payload.length ≤ indexMaxLocal
  · have ho : o = (f, next, indexCell payload) := by
      simp only [o, overflowizeIndexCell, hget, hsigned, hmax]
      exact if_pos (by exact_mod_cast hshort)
    rw [ho]
    exact ⟨le_rfl, Agree.refl _ _, (indexCellOk_inline f next hshort).1,
      fun _ => (indexCellOk_inline f next hshort).2⟩
  · obtain ⟨loc, hloc⟩ : ∃ loc, loc = spillLocal indexMaxLocal payload.length := ⟨_, rfl⟩
    have hlocle : loc ≤ indexMaxLocal := by
      rw [hloc]
      exact spillLocal_le _ (by decide)
    have hne : payload.drop loc ≠ [] := by
      rw [← List.length_pos_iff, List.length_drop]
      omega
    obtain ⟨hfirst, hcount, hagree, -⟩ := writeOverflowPages_spec f hnext hne
    obtain ⟨hdata, hfront⟩ := split_indexCell payload loc
    have ho : o = ((writeOverflowPages f next (payload.drop loc)).1,
        (writeOverflowPages f next (payload.drop loc)).2.1,
        putVarint payload.length ++ (payload.take loc ++ bigEndian 4 next)) := by
      have hlong : ¬ (payload.length : Int) ≤ (indexMaxLocal : Int) := by
        exact_mod_cast hshort
      simp only [o, overflowizeIndexCell, hget, hsigned, hmax, if_neg hlong, ← hloc,
        spillIndexCell, hdata, hfront, hfirst, List.append_assoc]
    rw [ho]
    obtain ⟨hsize, hread⟩ := indexCell_spilled f hnext hlen (not_le.mp hshort) hloc
    exact ⟨hcount ▸ Nat.le_add_right _ _, hagree, hsize, hread⟩

theorem overflowizeCells_spec :
    ∀ (payloads : List (List UInt8)) (f : File) (next : Nat), 2 ≤ next →
      (∀ p, p ∈ payloads → p.length < 2 ^ 31) →
      let o := overflowizeCells f next (payloads.map indexCell)
      next ≤ o.2.1 ∧ Agree next f o.1 ∧
        (∀ c, c ∈ o.2.2 → 0 < c.length ∧ c.length ≤ 16431) ∧
        (o.2.1 ≤ 2 ^ 32 → List.Forall₂ (IndexCellOk o.1 o.2.1) payloads o.2.2)
  | [], f, next, _, _ => ⟨le_rfl, Agree.refl _ _, fun _ hc => absurd hc (by simp [overflowizeCells]),
      fun _ => List.Forall₂.nil⟩
  | payload :: payloads, f, next, hnext, hlen => by
      intro o
      obtain ⟨hle, hagree, hsize, hcell⟩ :=
        overflowizeIndexCell_spec f hnext (hlen payload (by simp))
      obtain ⟨hle', hagree', hsizes, hcells⟩ := overflowizeCells_spec payloads
        (overflowizeIndexCell f next (indexCell payload)).1
        (overflowizeIndexCell f next (indexCell payload)).2.1 (le_trans hnext hle)
        (fun p hp => hlen p (List.mem_cons_of_mem _ hp))
      refine ⟨le_trans hle hle', hagree.trans (hagree'.mono hle), ?_, fun hbound => ?_⟩
      · intro c hc
        rcases List.mem_cons.mp hc with rfl | hc
        · exact hsize
        · exact hsizes c hc
      · have hfirst : IndexCellOk _ _ payload _ := ⟨hsize, hcell (le_trans hle' hbound)⟩
        exact List.Forall₂.cons (hfirst.mono hagree' hle') (hcells hbound)

/-- A builder of an index tree that holds `items`, with `cells` on the page
under construction. -/
abbrev IndexGrowing (pb : PageBuilder) (cells items : List (List UInt8)) : Prop :=
  Growing indexFormat ReadsAs ReadsAs (fun _ _ => True) (fun payload => [payload]) true
    pb cells items

/-- Invariant of the cell loop; `prev` is the cell added last. -/
def IndexLoop (pb : PageBuilder) (prev : List UInt8) (items : List (List UInt8)) : Prop :=
  ∃ cells, IndexGrowing pb cells items ∧
    (∀ c, c ∈ cells → 0 < c.length ∧ c.length ≤ 16431) ∧
    ((cells = [] ∧ items = []) ∨ ∃ front, cells = front ++ [prev])

theorem keyOk_index (hlen : cell.length ≤ 16431)
    (hcell : CellOk indexLeafCell f n (ReadsAs payload) cell) (p : Nat) :
    KeyOk indexFormat ReadsAs true f n ⟨p, 0, some cell⟩ payload := by
  refine ⟨?_, fun q hq g hg mem hmem => ?_⟩
  · simp only [buildInteriorCell, if_true, List.length_append, length_bigEndian,
      Option.getD_some]
    omega
  · simp only [buildInteriorCell, if_true, Option.getD_some] at hmem
    refine ⟨(hmem.left.getBe_eq (by omega)).symm, ?_⟩
    apply hcell g hg
    rw [Memory.holds_shift]
    simpa using hmem.right

theorem two_le_of_not_fits {cells : List (List UInt8)} {len : Nat} (hlaid : Laid pb.area 8 cells)
    (hcells : ∀ c, c ∈ cells → c.length ≤ 16431) (hlen : len ≤ 16431)
    (hfit : ¬ pbCellFits pb len = true) : 2 ≤ cells.length := by
  have hptr := hlaid.pointers
  have hcontent := hlaid.content
  have hfull : pb.area.available < len := by
    simpa [pbCellFits] using hfit
  unfold CellArea.available at hfull
  cases cells with
  | nil =>
      simp only [List.length_nil, cellsSize_nil] at hptr hcontent
      omega
  | cons c cells =>
      cases cells with
      | nil =>
          have hc := hcells c (by simp)
          simp only [List.length_singleton, cellsSize_cons, cellsSize_nil] at hptr hcontent
          omega
      | cons c' cells => simp

theorem pbPromoteAndFlush_spec {front : List (List UInt8)} {prev : List UInt8}
    (h : IndexGrowing pb (front ++ [prev]) items) (hfront : front ≠ [])
    (hprev : prev.length ≤ 16431) :
    Agree pb.nextPage pb.fp (pbPromoteAndFlush pb prev).fp ∧
      pb.nextPage < (pbPromoteAndFlush pb prev).nextPage ∧
      IndexGrowing (pbPromoteAndFlush pb prev) [] items := by
  obtain ⟨before, items, rfl, hbefore, hcur⟩ := h.split
  obtain ⟨cur, last, rfl, hrest, hlast⟩ := forall₂_snoc_right hcur
  obtain ⟨hagree, hlt, hgrow, -⟩ := pbFlushLeaf_spec (F := indexFormat)
    { pb with area := { pb.area with
      cellCount := pb.area.cellCount - 1
      contentOffset := pb.area.contentOffset + prev.length
      ptrOffset := pb.area.ptrOffset - 2 } } 0 (some prev)
    (by rfl) h.kind h.plain h.next h.laid.removeLast hfront hbefore hrest trivial
    (keyOk_index hprev hlast)
  rw [List.append_assoc] at hgrow
  exact ⟨hagree, hlt, hgrow⟩

theorem addIndexCell_spec {prev : List UInt8} (h : IndexLoop pb prev items)
    (hcell : IndexCellOk pb.fp pb.nextPage payload cell) :
    Agree pb.nextPage pb.fp (addIndexCell pb prev cell).fp ∧
      pb.nextPage ≤ (addIndexCell pb prev cell).nextPage ∧
      IndexLoop (addIndexCell pb prev cell) cell (items ++ [payload]) := by
  obtain ⟨cells, hgrow, hsizes, hlast⟩ := h
  unfold addIndexCell
  by_cases hfit : pbCellFits pb cell.length = true
  · rw [if_pos hfit]
    refine ⟨Agree.refl _ _, le_rfl, cells ++ [cell], hgrow.add hcell.1.1 hfit hcell.2, ?_,
      Or.inr ⟨cells, rfl⟩⟩
    intro c hc
    rcases List.mem_append.mp hc with hc | hc
    · exact hsizes c hc
    · rw [List.mem_singleton.mp hc]
      exact hcell.1
  · -- the page is too full, so it has a cell to promote and one to keep
    have htwo := two_le_of_not_fits hgrow.laid (fun c hc => (hsizes c hc).2) hcell.1.2 hfit
    obtain ⟨front, rfl⟩ : ∃ front, cells = front ++ [prev] := by
      rcases hlast with ⟨rfl, -⟩ | hlast
      · exact absurd htwo (by simp)
      · exact hlast
    have hfront : front ≠ [] := by
      intro hnil
      rw [hnil] at htwo
      exact absurd htwo (by simp)
    have hcount : pb.area.cellCount > 0 := by
      rw [hgrow.laid.count]
      omega
    obtain ⟨hagree, hlt, hgrow'⟩ :=
      pbPromoteAndFlush_spec hgrow hfront (hsizes prev (by simp)).2
    have hfit' : pbCellFits (pbPromoteAndFlush pb prev) cell.length = true :=
      pbCellFits_of_nil hgrow'.laid (by have := hcell.1.2; omega)
    rw [if_neg hfit, if_pos hcount, if_pos hfit']
    refine ⟨hagree, hlt.le, [] ++ [cell],
      hgrow'.add hcell.1.1 hfit' (hcell.2.mono hagree hlt.le), ?_, Or.inr ⟨[], rfl⟩⟩
    intro c hc
    rw [List.mem_singleton.mp hc]
    exact hcell.1

theorem addIndexCells_spec (payloads : List (List UInt8)) :
    ∀ (cells : List (List UInt8)) (pb : PageBuilder) (prev : List UInt8)
      (items : List (List UInt8)),
      List.Forall₂ (IndexCellOk pb.fp pb.nextPage) payloads cells →
      IndexLoop pb prev items →
      IndexLoop (addIndexCells pb prev cells) (cells.getLastD prev) (items ++ payloads) := by
  induction payloads with
  | nil =>
      intro cells pb prev items hcells h
      cases hcells
      simpa [addIndexCells] using h
  | cons payload payloads ih =>
      intro cells pb prev items hcells h
      obtain ⟨cell, rest, hcell, hrest, rfl⟩ := List.forall₂_cons_left_iff.mp hcells
      obtain ⟨hagree, hle, hloop⟩ := addIndexCell_spec h hcell
      have hnext := ih rest _ cell _ (hrest.imp (fun _ _ hc => hc.mono hagree hle)) hloop
      rw [List.append_assoc] at hnext
      rw [addIndexCells, List.getLastD_cons]
      exact hnext

theorem le_nextPage_addIndexCells (cells : List (List UInt8)) (pb : PageBuilder)
    (prev : List UInt8) : pb.nextPage ≤ (addIndexCells pb prev cells).nextPage :=
  composes_le.entries cells pb prev

theorem le_nextPage_finalizeIndex (pb : PageBuilder) (last : List UInt8) :
    pb.nextPage ≤ (finalizeIndex pb last).2.nextPage :=
  composes_le.finalizedIndex pb last

theorem finalizeIndex_spec {last : List UInt8} (h : IndexLoop pb last items) (hne : items ≠ [])
    (hbound : (finalizeIndex pb last).2.nextPage ≤ 2 ^ 32) :
    ∃ d k, TreeIn indexFormat ReadsAs ReadsAs (fun _ _ => True) (fun payload => [payload])
      (finalizeIndex pb last).2.fp (finalizeIndex pb last).2.nextPage d
      (finalizeIndex pb last).1 k items := by
  obtain ⟨cells, hgrow, hsizes, hlast⟩ := h
  obtain ⟨front, rfl⟩ : ∃ front, cells = front ++ [last] := by
    rcases hlast with ⟨-, hnil⟩ | hlast
    · exact absurd hnil hne
    · exact hlast
  obtain ⟨before, cur, rfl, hbefore, hcur⟩ := hgrow.split
  obtain ⟨cur', item, -, -, hitem⟩ := forall₂_snoc_right hcur
  have hcount : pb.area.cellCount > 0 := by
    rw [hgrow.laid.count]
    simp
  obtain ⟨-, -, hgrow', hlevel⟩ := pbFlushLeaf_spec (F := indexFormat) pb 0
    (some last) (by rfl) hgrow.kind hgrow.plain hgrow.next hgrow.laid (by simp) hbefore hcur trivial
    (keyOk_index (hsizes last (by simp)).2 hitem)
  have hdef : finalizeIndex pb last = pbRoot (pbFlushLeaf pb 0 (some last)) true := by
    rw [finalizeIndex, if_pos hcount]
  rw [hdef] at hbound ⊢
  exact pbRoot_spec rfl (by decide) hgrow'.next hbound hlevel

theorem shows_index :
    Shows (indexFormat.view f) ReadsAs ReadsAs
      (fun p k items => (fun _ _ => True) k items ∧ LeafStored indexFormat ReadsAs f n p items)
      (fun p cells right => NodeStored indexFormat ReadsAs f n p cells right) where
  leaf _ _ _ h := h.2.2 f (Agree.refl _ _)
  node _ _ _ h := h.2 f (Agree.refl _ _)

theorem forall₂_readsAs {payloads : List (List UInt8)} {xs : List (Option (List UInt8))}
    (h : List.Forall₂ ReadsAs payloads xs) : xs = payloads.map some := by
  induction h with
  | nil => rfl
  | cons hx _ ih => rw [List.map_cons, ← ih, hx]

/-- The in-order walk of the index tree that `write_index_btree` writes gives
the payloads of the input cells, in input order, each once. -/
theorem walkIndex_writeIndexBtree (f : File) {next : Nat} {payloads : List (List UInt8)}
    (hne : payloads ≠ []) (hnext : 2 ≤ next)
    (hlen : ∀ p, p ∈ payloads → p.length < 2 ^ 31)
    (hpages : (writeIndexBtree f next (payloads.map indexCell)).2.2 ≤ 2 ^ 32) :
    ∃ depth, ∀ fuel, depth < fuel →
      walkIndex (writeIndexBtree f next (payloads.map indexCell)).2.1 fuel
        (writeIndexBtree f next (payloads.map indexCell)).1 = some (payloads.map some) := by
  obtain ⟨hle, -, -, hcells⟩ := overflowizeCells_spec payloads f next (by omega) hlen
  rcases hspill : overflowizeCells f next (payloads.map indexCell) with ⟨f', next', cells⟩
  rw [hspill] at hle hcells
  simp only at hle hcells
  have hwrite : writeIndexBtree f next (payloads.map indexCell) =
      ((finalizeIndex (addIndexCells (pbInit f' next' true) [] cells) (cells.getLastD [])).1,
        (finalizeIndex (addIndexCells (pbInit f' next' true) [] cells) (cells.getLastD [])).2.fp,
        (finalizeIndex (addIndexCells (pbInit f' next' true) [] cells)
          (cells.getLastD [])).2.nextPage) := by
    simp only [writeIndexBtree, List.map_eq_nil_iff, if_neg hne, hspill]
  rw [hwrite] at hpages ⊢
  simp only at hpages ⊢
  have hbound : next' ≤ 2 ^ 32 :=
    le_trans (le_trans (le_nextPage_addIndexCells cells (pbInit f' next' true) [])
      (le_nextPage_finalizeIndex _ _)) hpages
  have hpage : ¬ next' = 1 := by omega
  have hplain : (pbInit f' next' true).page1Offset = 0 := by
    simp only [pbInit, if_neg hpage]
  have hinit : IndexLoop (pbInit f' next' true) [] [] := by
    refine ⟨[], growing_init rfl hplain (by simp only [pbInit]; omega) ?_ rfl,
      by simp, Or.inl ⟨rfl, rfl⟩⟩
    simp only [pbInit, if_neg hpage, Nat.zero_add]
  have hcells' := hcells hbound
  have hloop := addIndexCells_spec payloads cells (pbInit f' next' true) [] [] hcells' hinit
  obtain ⟨d, k, htree⟩ := finalizeIndex_spec hloop hne hpages
  refine ⟨d, fun fuel hfuel => ?_⟩
  obtain ⟨xs, hwalk, hxs⟩ := exists_walk shows_index
    (fun k k' hk => List.Forall₂.cons hk List.Forall₂.nil) hfuel htree
  rw [walkIndex, hwalk, forall₂_readsAs hxs]
  rfl

/-- Two short entries, from the first page a caller uses. -/
theorem walkIndex_writeIndexBtree_two :
    (writeIndexBtree File.empty 2 ([[1, 2], [3]].map indexCell)).2.2 = 3 ∧
      ∃ depth, ∀ fuel, depth < fuel →
        walkIndex (writeIndexBtree File.empty 2 ([[1, 2], [3]].map indexCell)).2.1 fuel
          (writeIndexBtree File.empty 2 ([[1, 2], [3]].map indexCell)).1 =
          some [some [1, 2], some [3]] :=
  ⟨by decide +kernel,
    walkIndex_writeIndexBtree File.empty (by decide) (by decide)
      (by
        intro p hp
        have : p = [1, 2] ∨ p = [3] := by simpa using hp
        rcases this with rfl | rfl <;> decide)
      (by decide +kernel)⟩

end Sqlite
end CodebaseMemory
