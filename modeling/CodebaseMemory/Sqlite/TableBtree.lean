import CodebaseMemory.Sqlite.Leaves

/-!
# The table writer and its rowids

The table path keeps every row in a leaf; the interior cells carry rowids.
Pages, payloads and chains are right for rows of any size
(`addTableRow_spec`), so what is read back depends on the rowids alone: the
writer's varints are those of the format below `2 ^ 56` only.

All results here carry a proposition `ok`, which stands for "the rowids of this
table are small".  `RowReads ok` and `KeyReads ok` say what a reader gets: the
row and the key itself if `ok` holds, and in any case not the rowid of a row
whose rowid is not small.
-/

namespace CodebaseMemory
namespace Sqlite

open Lib BTree

/-- The rowids whose varint `put_varint` writes as the format has it. -/
def SmallRowid (rowid : Int) : Prop :=
  0 ≤ rowid ∧ rowid < 2 ^ 56

instance (rowid : Int) : Decidable (SmallRowid rowid) :=
  inferInstanceAs (Decidable (_ ∧ _))

def RowReads (ok : Prop) (row : Int × List UInt8) (x : Int × Option (List UInt8)) : Prop :=
  (ok → x = (row.1, some row.2)) ∧ (¬ SmallRowid row.1 → x.1 ≠ row.1)

def KeyReads (ok : Prop) (k k' : Int) : Prop :=
  ok → k = k'

/-- The rows the writer is given: rowids are `int64_t`, record lengths `int`. -/
def RowOk (ok : Prop) (row : Int × List UInt8) : Prop :=
  (-2 ^ 63 ≤ row.1 ∧ row.1 < 2 ^ 63) ∧ (ok → SmallRowid row.1) ∧ row.2.length < 2 ^ 31

variable {ok : Prop}
variable {items rows : List (Int × List UInt8)}
variable {prev rowid : Int}
variable {pb : PageBuilder}
variable {n next : Nat}
variable {row : Int × List UInt8}
variable {f : File}

theorem toU64_lt_of_small (h : SmallRowid rowid) : toU64 rowid < 2 ^ 56 := by
  obtain ⟨h₀, h₁⟩ := h
  rw [toU64_of_nonneg h₀ (by omega)]
  omega

theorem le_toU64_of_not_small {rowid : Int} (h₀ : -2 ^ 63 ≤ rowid) (h₁ : rowid < 2 ^ 63)
    (h : ¬ SmallRowid rowid) : 2 ^ 56 ≤ toU64 rowid := by
  unfold SmallRowid at h
  unfold toU64
  omega

theorem rowid_read {mem : Memory} {off : Nat} (h₀ : -2 ^ 63 ≤ rowid) (h₁ : rowid < 2 ^ 63)
    (hmem : mem.Holds off (putVarint rowid)) :
    (SmallRowid rowid →
      toI64 (getVarint (mem.shift off)).1 = rowid ∧
        (getVarint (mem.shift off)).2 = (putVarint rowid).length) ∧
      (¬ SmallRowid rowid → toI64 (getVarint (mem.shift off)).1 ≠ rowid) := by
  constructor
  · intro hsmall
    rw [getVarint_putVarint (toU64_lt_of_small hsmall) hmem]
    exact ⟨toI64_toU64 h₀ h₁, rfl⟩
  · intro hbig heq
    obtain ⟨hne, hlt⟩ := getVarint_putVarint_ne (le_toU64_of_not_small h₀ h₁ hbig) hmem
    rw [← toI64_toU64 h₀ h₁] at heq
    exact hne (toI64_injective hlt (toU64_lt rowid) heq)

theorem tableLeafCell_reads {g : File} {mem : Memory} {rest : List UInt8} (hrow : RowOk ok row)
    (hmem : mem.Holds 0 (putVarint row.2.length ++ putVarint row.1 ++ rest))
    (hrest : ∀ mem' : Memory, mem'.Holds 0 rest →
      readPayload g tableMaxLocal mem' row.2.length = some row.2) :
    RowReads ok row (tableLeafCell g mem) := by
  obtain ⟨⟨h₀, h₁⟩, hok, hlen⟩ := hrow
  have hfirst := getVarint_length hlen hmem.left.left
  rw [Memory.shift_zero] at hfirst
  have hsecond := hmem.left.right
  rw [Nat.zero_add] at hsecond
  obtain ⟨hsmall, hbig⟩ := rowid_read h₀ h₁ hsecond
  simp only [tableLeafCell, hfirst]
  refine ⟨fun h => ?_, hbig⟩
  obtain ⟨hval, hn⟩ := hsmall (hok h)
  rw [hval, hn, hrest]
  rw [Memory.holds_shift]
  simpa using hmem.right

def TableCellOk (ok : Prop) (f : File) (n : Nat) (row : Int × List UInt8)
    (cell : List UInt8) : Prop :=
  (0 < cell.length ∧ cell.length ≤ 65520) ∧ CellOk tableLeafCell f n (RowReads ok row) cell

theorem tableMaxLocal_eq : tableOverflowMaxLocal = tableMaxLocal := by decide

theorem buildTableCell_ok (f : File) (n : Nat) (hrow : RowOk ok row)
    (hlen : row.2.length ≤ tableMaxLocal) :
    TableCellOk ok f n row (buildTableCell row.1 row.2) := by
  have hmax : tableMaxLocal = 65501 := by decide
  have h₁ := length_putVarint_pos (row.2.length : Int)
  have h₂ := length_putVarint_le_five hrow.2.2
  have h₃ := length_putVarint_le_ten row.1
  refine ⟨?_, fun g _ mem hmem => ?_⟩
  · simp only [buildTableCell, List.length_append]
    omega
  · exact tableLeafCell_reads hrow hmem (fun mem' h => readPayload_inline hlen h)

theorem buildTableCellOverflow_ok (f : File) {loc : Nat} (hrow : RowOk ok row) (hnext : 2 ≤ next)
    (hlong : tableMaxLocal < row.2.length) (hloc : loc = spillLocal tableMaxLocal row.2.length) :
    let cell := buildTableCellOverflow row.1 row.2 loc next
    (0 < cell.length ∧ cell.length ≤ 65520) ∧
      ((writeOverflowPages f next (row.2.drop loc)).2.1 ≤ 2 ^ 32 →
        CellOk tableLeafCell (writeOverflowPages f next (row.2.drop loc)).1
          (writeOverflowPages f next (row.2.drop loc)).2.1 (RowReads ok row) cell) := by
  have hmax : tableMaxLocal = 65501 := by decide
  have h₁ := length_putVarint_pos (row.2.length : Int)
  have h₂ := length_putVarint_le_five hrow.2.2
  have h₃ := length_putVarint_le_ten row.1
  have hlocle : loc ≤ 65501 := by
    rw [hloc, hmax]
    exact spillLocal_le _ (by omega)
  refine ⟨?_, fun hbound g hg mem hmem => ?_⟩
  · simp only [buildTableCellOverflow, List.length_append, length_bigEndian, List.length_take]
    omega
  · rw [buildTableCellOverflow, List.append_assoc] at hmem
    exact tableLeafCell_reads hrow hmem (fun mem' h =>
      readPayload_spilled hnext (by omega) hlong hloc hbound hg h)

/-- The first half of `pb_add_table_cell_with_flush`: only the file and the
page counter change, and there is a cell. -/
theorem pbBuildTableCell_spec (pb : PageBuilder) (hrow : RowOk ok row) (hnext : 2 ≤ pb.nextPage) :
    ∃ f n cell, pbBuildTableCell pb row.1 row.2 =
        ({ pb with fp := f, nextPage := n }, some cell) ∧
      pb.nextPage ≤ n ∧ Agree pb.nextPage pb.fp f ∧
      (0 < cell.length ∧ cell.length ≤ 65520) ∧
      (n ≤ 2 ^ 32 → CellOk tableLeafCell f n (RowReads ok row) cell) := by
  have hmax := tableMaxLocal_eq
  by_cases hshort : row.2.length ≤ tableMaxLocal
  · have hcell := buildTableCell_ok pb.fp pb.nextPage hrow hshort
    refine ⟨pb.fp, pb.nextPage, buildTableCell row.1 row.2, ?_, le_rfl, Agree.refl _ _,
      hcell.1, fun _ => hcell.2⟩
    rw [pbBuildTableCell, hmax, if_neg (by omega)]
  · obtain ⟨loc, hloc⟩ : ∃ loc, loc = spillLocal tableMaxLocal row.2.length := ⟨_, rfl⟩
    have hlocle : loc ≤ tableMaxLocal := by
      rw [hloc]
      exact spillLocal_le _ (by decide)
    have hne : row.2.drop loc ≠ [] := by
      rw [← List.length_pos_iff, List.length_drop]
      omega
    obtain ⟨hfirst, hcount, hagree, -⟩ := writeOverflowPages_spec pb.fp hnext hne
    obtain ⟨hsize, hread⟩ :=
      buildTableCellOverflow_ok pb.fp hrow hnext (not_le.mp hshort) hloc
    refine ⟨(writeOverflowPages pb.fp pb.nextPage (row.2.drop loc)).1,
      (writeOverflowPages pb.fp pb.nextPage (row.2.drop loc)).2.1,
      buildTableCellOverflow row.1 row.2 loc pb.nextPage, ?_, hcount ▸ Nat.le_add_right _ _,
      hagree, hsize, hread⟩
    rw [pbBuildTableCell, hmax, if_pos (not_le.mp hshort), ← hloc]
    simp only [pbSpillTableCell, hfirst, if_neg (show ¬ pb.nextPage = 0 by omega)]

/-- A builder of a table tree that holds `items`, with `cells` on the page
under construction. -/
abbrev TableGrowing (ok : Prop) (pb : PageBuilder) (cells : List (List UInt8))
    (items : List (Int × List UInt8)) : Prop :=
  Growing tableFormat (RowReads ok) (KeyReads ok) (Topped Prod.fst) (fun _ => []) false
    pb cells items

/-- Invariant of the row loop; `prev` is the rowid added last. -/
def TableLoop (ok : Prop) (pb : PageBuilder) (prev : Int)
    (items : List (Int × List UInt8)) : Prop :=
  ∃ cells, TableGrowing ok pb cells items ∧
    ((cells = [] ∧ items = []) ∨ (cells ≠ [] ∧ ∃ front record, items = front ++ [(prev, record)]))

theorem keyOk_table (hrow : (-2 ^ 63 ≤ rowid ∧ rowid < 2 ^ 63) ∧ (ok → SmallRowid rowid))
    (p : Nat) : KeyOk tableFormat (KeyReads ok) false f n ⟨p, rowid, none⟩ rowid := by
  obtain ⟨⟨h₀, h₁⟩, hok⟩ := hrow
  have hlen := length_putVarint_le_ten rowid
  refine ⟨?_, fun q hq g hg mem hmem => ?_⟩
  · simp only [buildInteriorCell, Bool.false_eq_true, if_false, List.length_append,
      length_bigEndian]
    omega
  · simp only [buildInteriorCell, Bool.false_eq_true, if_false] at hmem
    refine ⟨(hmem.left.getBe_eq (by omega)).symm, fun h => ?_⟩
    have hkey := hmem.right
    rw [length_bigEndian, Nat.zero_add] at hkey
    exact (((rowid_read h₀ h₁ hkey).1 (hok h)).1).symm

theorem topped_of_sorted {before cur : List (Int × List UInt8)}
    (hsort : (before ++ (cur ++ [row])).Pairwise (fun a b => a.1 < b.1)) :
    Topped Prod.fst row.1 (cur ++ [row]) := by
  have hcur := (List.pairwise_append.mp hsort).2.1
  refine ⟨fun r hr => ?_, row, by simp, rfl⟩
  rcases List.mem_append.mp hr with hr | hr
  · exact le_of_lt ((List.pairwise_append.mp hcur).2.2 r hr row (by simp))
  · rw [List.mem_singleton.mp hr]

theorem pbFlushLeaf_table {cells : List (List UInt8)} {front : List (Int × List UInt8)}
    {record : List UInt8} (hgrow : TableGrowing ok pb cells (front ++ [(prev, record)]))
    (hne : cells ≠ []) (hsort : (front ++ [(prev, record)]).Pairwise (fun a b => a.1 < b.1))
    (hrow : (-2 ^ 63 ≤ prev ∧ prev < 2 ^ 63) ∧ (ok → SmallRowid prev)) :
    Agree pb.nextPage pb.fp (pbFlushLeaf pb prev none).fp ∧
      pb.nextPage < (pbFlushLeaf pb prev none).nextPage ∧
      TableGrowing ok (pbFlushLeaf pb prev none) [] (front ++ [(prev, record)]) ∧
      Level tableFormat (RowReads ok) (KeyReads ok) (Topped Prod.fst) (fun _ => []) false
        (pbFlushLeaf pb prev none).fp (pbFlushLeaf pb prev none).nextPage 0
        (pbFlushLeaf pb prev none).leaves (front ++ [(prev, record)]) := by
  obtain ⟨before, cur, hitems, hbefore, hcur⟩ := hgrow.split
  -- the last row is on the page, because the page has a cell
  obtain ⟨cur, rfl⟩ : ∃ cur', cur = cur' ++ [(prev, record)] := by
    rcases List.eq_nil_or_concat cur with rfl | ⟨cur', last, rfl⟩
    · exact absurd (List.forall₂_nil_left_iff.mp hcur) hne
    · rw [List.concat_eq_append, ← List.append_assoc] at hitems
      obtain ⟨-, hlast⟩ := List.append_inj' hitems rfl
      exact ⟨cur', by rw [List.concat_eq_append, ← hlast]⟩
  rw [hitems] at hsort ⊢
  have hspec := pbFlushLeaf_spec (F := tableFormat) pb prev none (by rfl) hgrow.kind hgrow.plain hgrow.next hgrow.laid hne hbefore
    hcur (topped_of_sorted hsort) (keyOk_table hrow)
  rwa [List.append_nil] at hspec

/-- The second half of `pb_add_table_cell_with_flush`. -/
def placeTableCell (pb : PageBuilder) (prev : Int) (cell : List UInt8) : PageBuilder :=
  pbAddCell (if !pbCellFits pb cell.length ∧ pb.area.cellCount > 0 then
    pbFlushLeaf pb prev none else pb) cell

theorem pbAddTableCellWithFlush_eq {pb' : PageBuilder} {payload cell : List UInt8}
    (h : pbBuildTableCell pb rowid payload = (pb', some cell)) :
    pbAddTableCellWithFlush pb rowid payload prev = placeTableCell pb' prev cell := by
  simp only [pbAddTableCellWithFlush, h, placeTableCell]

theorem le_nextPage_placeTableCell (pb : PageBuilder) (prev : Int) (cell : List UInt8) :
    pb.nextPage ≤ (placeTableCell pb prev cell).nextPage := by
  simp only [placeTableCell, pbAddCell]
  split
  · exact composes_le.flushLeaf pb prev none
  · exact le_rfl

theorem placeTableCell_spec {cell : List UInt8} (h : TableLoop ok pb prev items)
    (hcell : TableCellOk ok pb.fp pb.nextPage row cell) (hitems : ∀ r, r ∈ items → RowOk ok r)
    (hsort : items.Pairwise (fun a b => a.1 < b.1)) :
    TableLoop ok (placeTableCell pb prev cell) row.1 (items ++ [row]) := by
  obtain ⟨cells, hgrow, hcells⟩ := h
  have hlast : ∃ front record, items ++ [row] = front ++ [(row.1, record)] :=
    ⟨items, row.2, rfl⟩
  by_cases hfit : pbCellFits pb cell.length = true
  · have hplace : placeTableCell pb prev cell = pbAddCell pb cell := by
      rw [placeTableCell, if_neg (by simp [hfit])]
    rw [hplace]
    exact ⟨cells ++ [cell], hgrow.add hcell.1.1 hfit hcell.2, Or.inr ⟨by simp, hlast⟩⟩
  · have hne : cells ≠ [] := by
      rintro rfl
      exact hfit (pbCellFits_of_nil hgrow.laid (by have := hcell.1.2; omega))
    obtain ⟨front, record, rfl⟩ : ∃ front record, items = front ++ [(prev, record)] := by
      rcases hcells with ⟨hnil, -⟩ | ⟨-, hlast⟩
      · exact absurd hnil hne
      · exact hlast
    have hcount : pb.area.cellCount > 0 := by
      rw [hgrow.laid.count]
      exact List.length_pos_iff.mpr hne
    have hplace : placeTableCell pb prev cell = pbAddCell (pbFlushLeaf pb prev none) cell := by
      rw [placeTableCell, if_pos ⟨by simpa using hfit, hcount⟩]
    have hprev := hitems (prev, record) (by simp)
    obtain ⟨hagree, hlt, hgrow', -⟩ := pbFlushLeaf_table hgrow hne hsort ⟨hprev.1, hprev.2.1⟩
    have hfit' : pbCellFits (pbFlushLeaf pb prev none) cell.length = true :=
      pbCellFits_of_nil hgrow'.laid (by have := hcell.1.2; omega)
    rw [hplace]
    exact ⟨[] ++ [cell], hgrow'.add hcell.1.1 hfit' (hcell.2.mono hagree hlt.le),
      Or.inr ⟨by simp, hlast⟩⟩

theorem addTableRow_spec (h : TableLoop ok pb prev items) (hrow : RowOk ok row)
    (hitems : ∀ r, r ∈ items → RowOk ok r) (hsort : items.Pairwise (fun a b => a.1 < b.1))
    (hbound : (pbAddTableCellWithFlush pb row.1 row.2 prev).nextPage ≤ 2 ^ 32) :
    TableLoop ok (pbAddTableCellWithFlush pb row.1 row.2 prev) row.1 (items ++ [row]) := by
  obtain ⟨cells, hgrow, hcells⟩ := h
  have hnext := hgrow.next
  obtain ⟨f, n, cell, hbuild, hle, hagree, hsize, hcell⟩ :=
    pbBuildTableCell_spec pb hrow hnext
  rw [pbAddTableCellWithFlush_eq hbuild] at hbound ⊢
  have hmono := le_nextPage_placeTableCell { pb with fp := f, nextPage := n } prev cell
  exact placeTableCell_spec ⟨cells, hgrow.spill hagree hle, hcells⟩
    ⟨hsize, hcell (le_trans hmono hbound)⟩ hitems hsort

theorem addTableRows_spec (rows : List (Int × List UInt8)) :
    ∀ (pb : PageBuilder) (prev : Int) (items : List (Int × List UInt8)),
      TableLoop ok pb prev items → (∀ r, r ∈ items ++ rows → RowOk ok r) →
      (items ++ rows).Pairwise (fun a b => a.1 < b.1) →
      (addTableRows pb prev rows).nextPage ≤ 2 ^ 32 →
      TableLoop ok (addTableRows pb prev rows) ((rows.map Prod.fst).getLastD prev)
        (items ++ rows) := by
  induction rows with
  | nil =>
      intro pb prev items h _ _ _
      simpa [addTableRows] using h
  | cons row rows ih =>
      intro pb prev items h hrows hsort hbound
      have hstep := addTableRow_spec h (hrows row (by simp))
        (fun r hr => hrows r (by simp [hr])) (List.pairwise_append.mp hsort).1
        (le_trans (composes_le.tableRows rows _ row.1) hbound)
      have hassoc : items ++ row :: rows = items ++ [row] ++ rows := by simp
      rw [hassoc] at hrows hsort ⊢
      rw [List.map_cons, List.getLastD_cons]
      exact ih _ row.1 _ hstep hrows hsort hbound

theorem pbFinalizeTable_spec {last : Int} (h : TableLoop ok pb last items) (hne : items ≠ [])
    (hitems : ∀ r, r ∈ items → RowOk ok r) (hsort : items.Pairwise (fun a b => a.1 < b.1))
    (hbound : (pbFinalizeTable pb last).2.nextPage ≤ 2 ^ 32) :
    ∃ d k, TreeIn tableFormat (RowReads ok) (KeyReads ok) (Topped Prod.fst) (fun _ => [])
      (pbFinalizeTable pb last).2.fp (pbFinalizeTable pb last).2.nextPage d
      (pbFinalizeTable pb last).1 k items := by
  obtain ⟨cells, hgrow, hcells⟩ := h
  obtain ⟨hcne, front, record, rfl⟩ : cells ≠ [] ∧ ∃ front record,
      items = front ++ [(last, record)] := by
    rcases hcells with ⟨-, hnil⟩ | h
    · exact absurd hnil hne
    · exact h
  have hcount : pb.area.cellCount > 0 := by
    rw [hgrow.laid.count]
    exact List.length_pos_iff.mpr hcne
  have hrow := hitems (last, record) (by simp)
  obtain ⟨-, -, hgrow', hlevel⟩ := pbFlushLeaf_table hgrow hcne hsort ⟨hrow.1, hrow.2.1⟩
  have hdef : pbFinalizeTable pb last = pbRoot (pbFlushLeaf pb last none) false := by
    rw [pbFinalizeTable, if_pos hcount]
  rw [hdef] at hbound ⊢
  exact pbRoot_spec rfl (by decide) hgrow'.next hbound hlevel

/-- The path of `pb_add_table_cell_with_flush` and `pb_finalize_table`: the
root page and the builder at the end. -/
def writeRows (f : File) (nextPage : Nat) (rows : List (Int × List UInt8)) :
    Nat × PageBuilder :=
  pbFinalizeTable (addTableRows (pbInit f nextPage false) 0 rows) (lastRowid rows)

/-- A table the path is given: sorted rows within the C types, on pages whose
numbers are `uint32_t`.  Page 1 is not the writer's. -/
structure TableInput (f : File) (next : Nat) (rows : List (Int × List UInt8)) : Prop where
  nonempty : rows ≠ []
  start : 2 ≤ next
  sorted : rows.Pairwise (fun a b => a.1 < b.1)
  rowids : ∀ row, row ∈ rows → -2 ^ 63 ≤ row.1 ∧ row.1 < 2 ^ 63
  lengths : ∀ row, row ∈ rows → row.2.length < 2 ^ 31
  pages : (writeRows f next rows).2.nextPage ≤ 2 ^ 32

theorem tableTree_spec (h : TableInput f next rows)
    (hok : ok → ∀ row, row ∈ rows → SmallRowid row.1) :
    ∃ d k, TreeIn tableFormat (RowReads ok) (KeyReads ok) (Topped Prod.fst) (fun _ => [])
      (writeRows f next rows).2.fp (writeRows f next rows).2.nextPage d
      (writeRows f next rows).1 k rows := by
  have hrows : ∀ r, r ∈ rows → RowOk ok r :=
    fun r hr => ⟨h.rowids r hr, fun hp => hok hp r hr, h.lengths r hr⟩
  have hpage : ¬ next = 1 := by
    have := h.start
    omega
  have hinit : TableLoop ok (pbInit f next false) 0 [] := by
    refine ⟨[], growing_init rfl ?_ h.start ?_ rfl, Or.inl ⟨rfl, rfl⟩⟩
    · simp only [pbInit, if_neg hpage]
    · simp only [pbInit, if_neg hpage, Nat.zero_add]
  have hlast : (rows.map Prod.fst).getLastD 0 = lastRowid rows := by
    rw [lastRowid, List.getLastD_eq_getLast?, List.getLast?_map]
  have hloop := addTableRows_spec rows (pbInit f next false) 0 [] hinit hrows h.sorted
    (le_trans (composes_le.finalizedTable _ (lastRowid rows)) h.pages)
  rw [hlast, List.nil_append] at hloop
  exact pbFinalizeTable_spec hloop h.nonempty hrows h.sorted h.pages

/-- A reader finds the rows: each rowid gives its record, no other rowid gives
one, and the scan lists the rows in order. -/
def RoundTrips (f : File) (root : Nat) (rows : List (Int × List UInt8)) : Prop :=
  ∃ depth, ∀ fuel, depth < fuel →
    (∀ row, row ∈ rows → lookupTable f fuel root row.1 = some (some (row.1, some row.2))) ∧
    (∀ rowid, (∀ row, row ∈ rows → row.1 ≠ rowid) →
      lookupTable f fuel root rowid = some none) ∧
    scanTable f fuel root = some (rows.map (fun row => (row.1, some row.2)))

theorem shows_table :
    Shows (tableFormat.view f) (RowReads ok) (KeyReads ok)
      (fun p k items => Topped Prod.fst k items ∧ LeafStored tableFormat (RowReads ok) f n p items)
      (fun p cells right => NodeStored tableFormat (KeyReads ok) f n p cells right) where
  leaf _ _ _ h := h.2.2 f (Agree.refl _ _)
  node _ _ _ h := h.2 f (Agree.refl _ _)

theorem shows_table_eq (hok : ok) :
    Shows (tableFormat.view f) (RowReads ok) Eq
      (fun p k items => Topped Prod.fst k items ∧ LeafStored tableFormat (RowReads ok) f n p items)
      (fun p cells right => NodeStored tableFormat (KeyReads ok) f n p cells right) where
  leaf _ _ _ h := h.2.2 f (Agree.refl _ _)
  node p cells right h := by
    obtain ⟨cells', hview, hcells⟩ := shows_table.node p cells right h
    exact ⟨cells', hview, hcells.imp (fun _ _ hc => ⟨hc.1, hc.2 hok⟩)⟩

theorem forall₂_rowReads (hok : ok) {xs : List (Int × Option (List UInt8))}
    (h : List.Forall₂ (RowReads ok) rows xs) : xs = rows.map (fun row => (row.1, some row.2)) := by
  induction h with
  | nil => rfl
  | cons hx _ ih => rw [List.map_cons, ← ih, hx.1 hok]

theorem find?_row (hsort : rows.Pairwise (fun a b => a.1 < b.1)) (hrow : row ∈ rows) :
    (rows.map (fun r => (r.1, some r.2))).find? (fun x => x.1 == row.1) =
      some (row.1, some row.2) := by
  induction rows with
  | nil => simp at hrow
  | cons r rows ih =>
      obtain ⟨hr, hsort⟩ := List.pairwise_cons.mp hsort
      rw [List.map_cons, List.find?_cons]
      rcases List.mem_cons.mp hrow with rfl | hrow
      · simp
      · have hne : (r.1 == row.1) = false := by
          simpa using (hr row hrow).ne
        rw [hne]
        exact ih hsort hrow

theorem find?_missing (h : ∀ row, row ∈ rows → row.1 ≠ rowid) :
    (rows.map (fun r => (r.1, some r.2))).find? (fun x => x.1 == rowid) = none := by
  rw [List.find?_eq_none]
  intro x hx
  obtain ⟨row, hrow, rfl⟩ := List.mem_map.mp hx
  simpa using h row hrow

theorem smallRowid_of_roundTrips (h : TableInput f next rows)
    (hread : RoundTrips (writeRows f next rows).2.fp (writeRows f next rows).1 rows) :
    ∀ row, row ∈ rows → SmallRowid row.1 := by
  intro row hrow
  obtain ⟨d, k, htree⟩ := tableTree_spec h (fun hfalse : False => hfalse.elim)
  obtain ⟨depth, hread⟩ := hread
  obtain ⟨-, -, hscan⟩ := hread (max depth d + 1) (by omega)
  obtain ⟨xs, hwalk, hxs⟩ := exists_walk shows_table
    (fun _ _ _ => (List.Forall₂.nil : List.Forall₂ _ [] [])) (show d < max depth d + 1 by omega) htree
  rw [scanTable, hwalk, Option.some_inj] at hscan
  rw [hscan, List.forall₂_map_right_iff] at hxs
  by_contra hbig
  exact (List.forall₂_same.mp hxs row hrow).2 hbig rfl

theorem roundTrips_of_smallRowid (h : TableInput f next rows)
    (hok : ∀ row, row ∈ rows → SmallRowid row.1) :
    RoundTrips (writeRows f next rows).2.fp (writeRows f next rows).1 rows := by
  obtain ⟨d, k, htree⟩ := tableTree_spec h (fun _ : True => hok)
  refine ⟨d, fun fuel hfuel => ?_⟩
  have hread : ∀ rowid, ∃ xs, scanTable (writeRows f next rows).2.fp fuel
        (writeRows f next rows).1 = some xs ∧
      xs = rows.map (fun row => (row.1, some row.2)) ∧
      lookupTable (writeRows f next rows).2.fp fuel (writeRows f next rows).1 rowid =
        some (xs.find? (fun row => row.1 == rowid)) := by
    intro rowid
    have hhits : ∀ (row : Int × List UInt8) (x : Int × Option (List UInt8)),
        RowReads True row x → ((x.1 == rowid) = true ↔ row.1 = rowid) := by
      intro row x hx
      rw [hx.1 trivial, beq_iff_eq]
    obtain ⟨xs, hwalk, hxs, hfind⟩ := exists_walk_descend Prod.fst rowid
      (shows_table_eq trivial) hhits (fun _ _ _ h => h.1) hfuel htree h.sorted
    exact ⟨xs, hwalk, forall₂_rowReads trivial hxs, hfind⟩
  refine ⟨fun row hrow => ?_, fun rowid hmiss => ?_, ?_⟩
  · obtain ⟨xs, -, rfl, hfind⟩ := hread row.1
    rw [hfind, find?_row h.sorted hrow]
  · obtain ⟨xs, -, rfl, hfind⟩ := hread rowid
    rw [hfind, find?_missing hmiss]
  · obtain ⟨xs, hscan, rfl, -⟩ := hread 0
    exact hscan

/-- A table is read back, by search and by scan, if and only if its rowids are
small. -/
theorem roundTrips_iff_smallRowid {f : File} {next : Nat} {rows : List (Int × List UInt8)}
    (h : TableInput f next rows) :
    RoundTrips (writeRows f next rows).2.fp (writeRows f next rows).1 rows ↔
      ∀ row, row ∈ rows → SmallRowid row.1 :=
  ⟨smallRowid_of_roundTrips h, roundTrips_of_smallRowid h⟩

theorem tableInput_two : TableInput File.empty 2 [(1, [7]), (5, [8, 9])] where
  nonempty := by decide
  start := by decide
  sorted := by decide
  rowids := by decide
  lengths := by decide
  pages := by decide +kernel

theorem roundTrips_two :
    RoundTrips (writeRows File.empty 2 [(1, [7]), (5, [8, 9])]).2.fp
      (writeRows File.empty 2 [(1, [7]), (5, [8, 9])]).1 [(1, [7]), (5, [8, 9])] :=
  (roundTrips_iff_smallRowid tableInput_two).mpr (by decide)

/-- The first rowid that is lost: its varint has nine bytes. -/
theorem not_roundTrips_big :
    TableInput File.empty 2 [(2 ^ 56, [7])] ∧
      ¬ RoundTrips (writeRows File.empty 2 [(2 ^ 56, [7])]).2.fp
        (writeRows File.empty 2 [(2 ^ 56, [7])]).1 [(2 ^ 56, [7])] := by
  have hinput : TableInput File.empty 2 [(2 ^ 56, [7])] :=
    { nonempty := by decide
      start := by decide
      sorted := by decide
      rowids := by decide
      lengths := by decide
      pages := by decide +kernel }
  refine ⟨hinput, fun hread => ?_⟩
  have hsmall := smallRowid_of_roundTrips hinput hread (2 ^ 56, [7]) (by simp)
  exact absurd hsmall (by decide)

end Sqlite
end CodebaseMemory
