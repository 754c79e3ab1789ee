import CodebaseMemory.Sqlite.Contents

/-!
# Reading a finished database

`readDatabase` reads a file by the SQLite format and nothing else: the rows of
`sqlite_master` under page 1, then what each of them names under its root page.

The texts of `sqlite_master` are constants, and page 1 has room for them; the
file is never longer than the pages that were handed out, and the padding makes
it as long.
-/

namespace CodebaseMemory
namespace Sqlite

open Lib BTree

/-- What a row of `sqlite_master` names: the columns are type, name, table, root page and SQL. -/
def readObject (f : File) (fuel : Nat) (row : Int × List Value) : Option (CStr × Content) :=
  match row.2 with
  | .text type :: .text name :: .text _ :: .int root :: _ =>
      (readContent f fuel type root.toNat).map (name, ·)
  | _ => none

/-- The tables and indexes of a file, by name. -/
def readDatabase (f : File) (fuel : Nat) : Option (List (CStr × Content)) :=
  (readTable f fuel 1).bind (·.mapM (readObject f fuel))

/-- A row of `sqlite_master`. -/
def masterColumns (e : MasterEntry) : List Value :=
  [.text (bytesOf e.type), .text (bytesOf e.name), .text (bytesOf e.tblName), .int e.rootpage,
    match e.sql with
    | some sql => .text (bytesOf sql)
    | none => .null]

/-- The rows of `sqlite_master`; their rowids count up. -/
def masterRows : Int → List MasterEntry → List (Int × List Value)
  | _, [] => []
  | rowid, e :: es => (rowid, masterColumns e) :: masterRows (rowid + 1) es

theorem buildMasterRecord_eq (e : MasterEntry) :
    buildMasterRecord e = record (masterColumns e) := by
  unfold buildMasterRecord record masterColumns
  cases e.sql with
  | none => rfl
  | some sql => rfl

theorem recordFits_master {e : MasterEntry} (hroot : e.rootpage < 2 ^ 32)
    (hlen : (record (masterColumns e)).length ≤ 65501) : RecordFits (masterColumns e) := by
  have hsplit := congrArg List.length (recFinalize_eq (recAdds (masterColumns e)))
  rw [List.length_append, List.length_append] at hsplit
  unfold record at hlen
  refine ⟨storable_iff.mpr ⟨fun v hv => ?_, by omega, by omega⟩, ?_, by unfold record; omega⟩
  · have hstored := length_stored_le hv
    cases v with
    | null => trivial
    | text bytes =>
        simp only [Value.stored] at hstored
        simp only [Value.Kept]
        omega
    | blob bytes => trivial
    | int i =>
        have hi : i = e.rootpage := by
          unfold masterColumns at hv
          cases hsql : e.sql <;> simpa [hsql] using hv
        simp only [Value.Kept]
        omega
  · unfold masterColumns
    cases e.sql <;> simp

theorem fillMasterPage_spec : ∀ {es : List MasterEntry} {a a' : CellArea} {rowid : Int}
    {cells : List (List UInt8)}, fillMasterPage a rowid es = some a' → Laid a 108 cells →
      0 ≤ rowid → rowid + es.length ≤ 2 ^ 31 → (∀ e ∈ es, e.rootpage < 2 ^ 32) →
      (∀ row ∈ masterRows rowid es, RecordFits row.2) ∧
        ∃ more, Laid a' 108 (cells ++ more) ∧ List.Forall₂
          (fun row c => CellOk tableLeafCell File.empty 0 (RowReads True row) c)
          ((masterRows rowid es).map recordRow) more
  | [], a, a', rowid, cells, hfill, hlaid, _, _, _ => by
      obtain rfl := Option.some.inj hfill
      exact ⟨fun row hrow => absurd hrow List.not_mem_nil, [], by rwa [List.append_nil], .nil⟩
  | e :: es, a, a', rowid, cells, hfill, hlaid, hzero, hcount, hroots => by
      rw [fillMasterPage] at hfill
      simp only [buildMasterRecord_eq] at hfill
      split at hfill
      · exact absurd hfill (by simp)
      · next hroom =>
          have hpointers := hlaid.pointers
          have hcontent := hlaid.content
          have hlen : (record (masterColumns e)).length ≤ 65501 := by
            simp only [buildTableCell, List.length_append, CellArea.available] at hroom
            omega
          simp only [List.length_cons] at hcount
          have hrow : RowOk True (recordRow (rowid, masterColumns e)) := by
            simp only [RowOk, recordRow, SmallRowid]
            omega
          obtain ⟨⟨hpos, -⟩, hcell⟩ := buildTableCell_ok File.empty 0 hrow hlen
          have hcount' : rowid + 1 + es.length ≤ 2 ^ 31 := by
            push_cast at hcount
            omega
          obtain ⟨hfits, more, hlaid', hmore⟩ := fillMasterPage_spec hfill
            (hlaid.add hpos (Int.not_lt.mp hroom)) (by omega) hcount'
            (fun e he => hroots e (List.mem_cons_of_mem _ he))
          refine ⟨?_, _ :: more, ?_, List.Forall₂.cons hcell hmore⟩
          · exact List.forall_mem_cons.mpr
              ⟨recordFits_master (hroots e List.mem_cons_self) hlen, hfits⟩
          · rwa [List.append_assoc] at hlaid'

def MasterEntry.texts (e : MasterEntry) : Nat :=
  e.type.utf8ByteSize + e.name.utf8ByteSize + e.tblName.utf8ByteSize +
    (e.sql.getD "").utf8ByteSize

theorem length_bytesOf_le (s : String) : (bytesOf s).length ≤ s.utf8ByteSize := by
  have h : ∀ l : List Char, l.length ≤ (String.ofList l).utf8ByteSize := by
    intro l
    induction l with
    | nil => exact Nat.zero_le _
    | cons c l ih =>
        have hpos := c.utf8Size_pos
        have hc : (String.ofList [c]).utf8ByteSize = c.utf8Size := String.utf8ByteSize_singleton
        rw [← List.singleton_append, String.ofList_append, String.utf8ByteSize_append, hc,
          List.length_append, List.length_singleton]
        omega
  simpa [bytesOf] using h s.toList

theorem length_header_recAdds_le (vs : List Value) :
    (recAdds vs).header.length ≤ 10 * vs.length := by
  rw [header_recAdds]
  induction vs with
  | nil => exact Nat.zero_le _
  | cons v vs ih =>
      have hvarint := length_putVarint_le_ten v.serialType
      rw [List.flatMap_cons, List.length_append, List.length_cons]
      omega

theorem length_body_master_le (e : MasterEntry) :
    (recAdds (masterColumns e)).body.length ≤ e.texts + 8 := by
  have htype := length_bytesOf_le e.type
  have hname := length_bytesOf_le e.name
  have htblName := length_bytesOf_le e.tblName
  have hint : (Value.int e.rootpage).stored.length ≤ 8 := by
    simp only [Value.stored, putIntBe, length_bigEndian, intStorageBytes]
    split_ifs <;> omega
  rw [body_recAdds, MasterEntry.texts, masterColumns]
  cases e.sql with
  | none =>
      simp only [List.flatMap_cons, List.flatMap_nil, List.length_append, List.length_nil,
        Value.stored] at hint ⊢
      omega
  | some sql =>
      have hsql := length_bytesOf_le sql
      simp only [List.flatMap_cons, List.flatMap_nil, List.length_append, List.length_nil,
        Value.stored, Option.getD_some] at hint ⊢
      omega

theorem length_masterCell_le (rowid : Int) (e : MasterEntry) :
    (buildTableCell rowid (buildMasterRecord e)).length ≤ e.texts + 88 := by
  have hrecord := congrArg List.length (recFinalize_eq (recAdds (masterColumns e)))
  have hheader : (recAdds (masterColumns e)).header.length ≤ 50 :=
    length_header_recAdds_le (masterColumns e)
  have hbody := length_body_master_le e
  have htotal := length_putVarint_le_ten (totalHeader (recAdds (masterColumns e)))
  have hlength := length_putVarint_le_ten (recFinalize (recAdds (masterColumns e))).length
  have hrowid := length_putVarint_le_ten rowid
  rw [List.length_append, List.length_append] at hrecord
  rw [buildTableCell, buildMasterRecord_eq, record, List.length_append, List.length_append]
  omega

theorem exists_fillMasterPage : ∀ (es : List MasterEntry) (a : CellArea) (rowid : Int),
    a.ptrOffset + (es.map fun e => e.texts + 90).sum ≤ a.contentOffset →
      ∃ a', fillMasterPage a rowid es = some a'
  | [], a, _, _ => ⟨a, rfl⟩
  | e :: es, a, rowid, hroom => by
      have hcell := length_masterCell_le rowid e
      rw [List.map_cons, List.sum_cons] at hroom
      rw [fillMasterPage, if_neg (by unfold CellArea.available; omega)]
      exact exists_fillMasterPage es _ _ (by simp only [CellArea.add]; omega)

theorem sum_masterEntries (root : Nat) (data : DataRoots) (md : MetadataRoots)
    (ni : NodeIndexRoots) (ei : EdgeIndexRoots) (auto : AutoRoots) :
    ((masterEntries root data md ni ei auto).map fun e => e.texts + 90).sum ≤ 60000 := by
  simp only [masterEntries, List.map_cons, List.map_nil, MasterEntry.texts, Option.getD_some,
    Option.getD_none]
  decide +kernel

theorem writeSqliteFileHeader_apply (page1 : Memory) (totalPages : Nat) {i : Nat} (hi : 100 ≤ i) :
    writeSqliteFileHeader page1 totalPages i = page1 i := by
  have hfield : ∀ (fields : List (Nat × List UInt8)) (page : Memory),
      (∀ field ∈ fields, field.1 + field.2.length ≤ i) →
      fields.foldl (fun page field => page.memcpy field.1 field.2) page i = page i := by
    intro fields
    induction fields with
    | nil => exact fun _ _ => rfl
    | cons field fields ih =>
        intro page h
        obtain ⟨hfield, hfields⟩ := List.forall_mem_cons.mp h
        rw [List.foldl_cons, ih _ hfields, Memory.memcpy_apply_outside _ _ _ (Or.inr hfield)]
  have htitle : (bytesOf "SQLite format 3" ++ [0]).length = 16 := by decide
  refine hfield _ page1 ?_
  simp only [List.forall_mem_cons, length_bigEndian, htitle, List.length_singleton]
  refine ⟨?_, ?_, ?_, ?_, ?_, ?_, ?_, ?_, ?_, ?_, ?_, ?_, ?_, ?_, ?_, ?_, ?_, ?_, ?_, ?_, ?_, ?_,
    fun _ h => absurd h List.not_mem_nil⟩ <;> omega

theorem File.read_of_size_le (f : File) {pos : Nat} (h : f.size ≤ pos) : f.read pos = 0 := by
  obtain ⟨writes, spills⟩ := f
  simp only [File.size, File.read] at h ⊢
  induction writes with
  | nil => rfl
  | cons w ws ih =>
      rw [List.foldr_cons] at h
      rw [readWrites, if_neg (by omega), ih (by omega)]

theorem read_padFileToPageBoundary (f : File) (n pos : Nat) :
    (padFileToPageBoundary f n).read pos = f.read pos := by
  unfold padFileToPageBoundary
  dsimp only
  split
  · next hshort =>
      by_cases hpos : pos = (n - 1) * 65536 - 1
      · rw [hpos, f.read_of_size_le (by omega)]
        exact f.read_fwrite_inside .padding ((n - 1) * 65536 - 1) 1 Memory.zero Nat.one_pos
      · exact f.read_fwrite_outside _ _ _ _ (by omega)
  · rfl

theorem size_fwrite (f : File) (kind : WriteKind) (off len : Nat) (data : Memory) :
    (f.fwrite kind off len data).size = max f.size (off + len) := rfl

theorem size_writeOverflowLoop (fuel : Nat) :
    ∀ (f : File) (next : Nat) (prev : Option Nat) (data : List UInt8), 2 ≤ next →
      f.size ≤ (next - 1) * 65536 → (∀ off ∈ prev, off + 4 ≤ (next - 1) * 65536) →
      (writeOverflowLoop fuel f next prev data).1.size ≤
        ((writeOverflowLoop fuel f next prev data).2 - 1) * 65536 := by
  induction fuel with
  | zero => exact fun _ _ _ _ _ hsize _ => hsize
  | succ fuel ih =>
      intro f next prev data hnext hsize hprev
      rw [writeOverflowLoop]
      split
      · exact hsize
      · have hpatch : (patchNextPointer f prev next).size ≤ (next - 1) * 65536 := by
          cases prev with
          | none => exact hsize
          | some off => exact max_le hsize (hprev off rfl)
        refine ih _ _ _ _ (by omega) ?_ fun off hoff => ?_
        · rw [File.writePage, size_fwrite]
          omega
        · obtain rfl := Option.some.inj hoff
          omega

theorem composesDb_size : ComposesDb fun f n g m =>
    n ≤ m ∧ (2 ≤ n → f.size ≤ (n - 1) * 65536 → g.size ≤ (m - 1) * 65536) where
  refl f n := ⟨le_rfl, fun _ h => h⟩
  trans h h' := ⟨h.1.trans h'.1, fun hn hf => h'.2 (hn.trans h.1) (h.2 hn hf)⟩
  page f n _ page _ := by
    have hskip := cbmSkipPendingByte_le n
    refine ⟨by omega, fun hn hf => ?_⟩
    rw [File.writePage, size_fwrite]
    omega
  overflow f n data := ⟨le_writeOverflowPages f n data, fun hn hf =>
    size_writeOverflowLoop data.length { f with spills := (n, data.length) :: f.spills } n none data
      hn hf (fun _ h => absurd h (by simp))⟩
  master f n page := by
    refine ⟨le_rfl, fun hn hf => ?_⟩
    rw [size_fwrite]
    omega
  padding f n := by
    refine ⟨le_rfl, fun hn hf => ?_⟩
    unfold padFileToPageBoundary
    dsimp only
    split
    · rw [size_fwrite]
      omega
    · exact hf

theorem readTable_master (f : File) (n : Nat) {master : List MasterEntry}
    (hsum : (master.map fun e => e.texts + 90).sum ≤ 60000) (hcount : master.length < 2 ^ 31)
    (hroots : ∀ e ∈ master, e.rootpage < 2 ^ 32) :
    (finishDb f n master).rc = 0 ∧ Agree n f (finishDb f n master).fp ∧ ∀ fuel, 0 < fuel →
      readTable (finishDb f n master).fp fuel 1 = some (masterRows 1 master) := by
  obtain ⟨a, hfill⟩ := exists_fillMasterPage master (CellArea.empty 108) 1 (by
    simp only [CellArea.empty]
    omega)
  simp only [finishDb, writeMasterPage1, hfill, Option.map_some]
  obtain ⟨hfits, cells, hlaid, hcells⟩ := fillMasterPage_spec hfill
    (laid_empty (by omega)) (by omega) (by omega) hroots
  generalize hpage : writeSqliteFileHeader (a.finish 100 0x0D) (n - 1) = page1
  generalize hg : padFileToPageBoundary (f.fwrite .master 0 65536 page1) n = g
  have hread : ∀ pos, g.read pos = (f.fwrite .master 0 65536 page1).read pos :=
    fun pos => hg ▸ read_padFileToPageBoundary _ n pos
  refine ⟨trivial, fun pos hlow _ => ?_, fun fuel hfuel => readTable_of_scan hfits ?_⟩
  · rw [hread, f.read_fwrite_outside _ _ _ _ (Or.inr (by omega))]
  · obtain ⟨fuel, rfl⟩ : ∃ m, fuel = m + 1 := ⟨fuel - 1, by omega⟩
    have hbytes : ∀ i, i < 65536 → g.page 1 i = page1 i := fun i hi =>
      (hread _).trans (f.page_writePage .master 1 page1 hi)
    obtain ⟨hflag, hcnt, hplaced⟩ := hlaid.finished 100 0x0D (g.page 1) (by omega)
      fun i hi hout => by
        rw [hbytes i hi, ← hpage]
        exact writeSqliteFileHeader_apply _ _ (by omega)
    have hagree : Agree 0 File.empty g := fun pos _ hpos => by omega
    have hxs := hplaced.read le_rfl hagree hcells
    have hview : tableFormat.view g 1 = some (.leaf (pageCells (g.page 1) 108 cells.length
        (tableLeafCell g))) := by
      have hhdr : headerOffset 1 = 100 := rfl
      simp only [Format.view, hhdr, if_neg Nat.one_ne_zero, tableFormat, hflag, hcnt, if_true]
      rfl
    simp only [scanTable, walk, hview]
    exact congrArg some (forall₂_rowReads trivial hxs)

theorem readObject_master {g : File} {n : Nat} {master : List MasterEntry}
    {objects : List (String × Content)} (h : List.Forall₂ (fun e o => e.name = o.1 ∧
      bytesOf e.type = o.2.type ∧ o.2.Stored g n e.rootpage) master objects) :
    ∃ depth, ∀ fuel, depth < fuel → ∀ rowid, (masterRows rowid master).mapM (readObject g fuel) =
      some (objects.map fun o => (bytesOf o.1, o.2)) := by
  induction h with
  | nil => exact ⟨0, fun _ _ _ => rfl⟩
  | @cons e o master objects ho _ ih =>
      obtain ⟨hname, htype, -, hread⟩ := ho
      obtain ⟨depth, hdepth⟩ := hread g (Agree.refl n g)
      obtain ⟨depth', hdepth'⟩ := ih
      refine ⟨max depth depth', fun fuel hfuel rowid => ?_⟩
      have hobject : readObject g fuel (rowid, masterColumns e) = some (bytesOf o.1, o.2) := by
        simp only [readObject, masterColumns, Int.toNat_natCast, htype, hname,
          hdepth fuel (by omega), Option.map_some]
      rw [masterRows, List.mapM_cons, hobject, hdepth' fuel (by omega)]
      rfl

theorem cbmWriteDb_finishes {input : DbInput} (hw : input.Readable)
    (hpages : (cbmWriteDb input).nextPage ≤ 2 ^ 32) :
    ∃ g m master, cbmWriteDb input = finishDb g m master ∧ (finishDb g m master).rc = 0 ∧
      Agree m g (finishDb g m master).fp ∧ (∀ fuel, 0 < fuel →
        readTable (finishDb g m master).fp fuel 1 = some (masterRows 1 master)) ∧
      List.Forall₂ (fun e o => e.name = o.1 ∧ bytesOf e.type = o.2.type ∧
        o.2.Stored g m e.rootpage) master (contents input) := by
  obtain ⟨g, m, root, hwrite, hnodes⟩ := holds_nodes hw
  rw [hwrite] at hpages ⊢
  obtain ⟨g', m', data, md, ni, ei, auto, hfinish, hm, htrees⟩ := stored_afterNodes hnodes hpages
  have hsum := sum_masterEntries root data md ni ei auto
  have hlength : (masterEntries root data md ni ei auto).length < 2 ^ 31 :=
    show 22 < 2 ^ 31 by omega
  have hroots : ∀ e ∈ masterEntries root data md ni ei auto, e.rootpage < 2 ^ 32 :=
    ((List.forall₂_and_left _ _).mp (htrees.imp fun e o ho =>
      ⟨lt_of_lt_of_le ho.2.2.1.2 hm, ho⟩)).1
  obtain ⟨hrc, hagree, hmaster⟩ := readTable_master g' m' hsum hlength hroots
  exact ⟨g', m', _, hfinish, hrc, hagree, hmaster, htrees⟩

theorem rc_cbmWriteDb {input : DbInput} (hw : input.Readable)
    (hpages : (cbmWriteDb input).nextPage ≤ 2 ^ 32) : (cbmWriteDb input).rc = 0 := by
  obtain ⟨g, m, master, hfinish, hrc, -⟩ := cbmWriteDb_finishes hw hpages
  rw [hfinish, hrc]

theorem exists_readDatabase {input : DbInput} (hw : input.Readable)
    (hpages : (cbmWriteDb input).nextPage ≤ 2 ^ 32) :
    ∃ depth, ∀ fuel, depth < fuel → readDatabase (cbmWriteDb input).fp fuel =
      some ((contents input).map fun o => (bytesOf o.1, o.2)) := by
  obtain ⟨g, m, master, hfinish, -, hagree, hmaster, htrees⟩ := cbmWriteDb_finishes hw hpages
  obtain ⟨depth, hdepth⟩ := readObject_master (htrees.imp fun e o ho =>
    ⟨ho.1, ho.2.1, ho.2.2.mono le_rfl hagree⟩)
  refine ⟨depth, fun fuel hfuel => ?_⟩
  rw [hfinish, readDatabase, hmaster fuel (by omega), Option.bind_some, hdepth fuel hfuel]

theorem readDatabase_cbmWriteDb {input : DbInput} (hw : input.Readable)
    (hpages : (cbmWriteDb input).nextPage ≤ 2 ^ 32) :
    (cbmWriteDb input).rc = 0 ∧ ∃ depth, ∀ fuel, depth < fuel →
      readDatabase (cbmWriteDb input).fp fuel =
        some ((contents input).map fun o => (bytesOf o.1, o.2)) :=
  ⟨rc_cbmWriteDb hw hpages, exists_readDatabase hw hpages⟩

instance (vs : List Value) : Decidable (RecordFits vs) :=
  decidable_of_iff (Storable vs ∧ .blob [] ∉ vs ∧ (record vs).length < 2 ^ 31)
    ⟨fun h => ⟨h.1, h.2.1, h.2.2⟩, fun h => ⟨h.storable, h.blobs, h.length⟩⟩

instance : DecidablePred Content.Fits := fun c =>
  match c with
  | .table _ => inferInstanceAs (Decidable (_ ∧ _))
  | .index entries => inferInstanceAs (Decidable (∀ entry ∈ entries, _))

instance (w : DbInput) : Decidable w.Readable :=
  decidable_of_iff ((∀ o ∈ contents w, o.2.Fits) ∧
    (∀ v ∈ w.vectors, v.vectorLen ≤ (v.vector.getD []).length) ∧
    ∀ v ∈ w.tokenVecs, v.vectorLen ≤ (v.vector.getD []).length)
    ⟨fun h => ⟨h.1, h.2.1, h.2.2⟩, fun h => ⟨h.fits, h.vectors, h.tokenVecs⟩⟩

/-- A call between two functions, one of them with a vector. -/
def oneCall : DbInput :=
  { project := some [112]
    rootPath := some [47, 112]
    indexedAt := none
    nodes := [⟨1, some [112], some [70], some [97], some [112, 46, 97], some [97], 1, 2, none⟩,
      ⟨2, some [112], some [70], some [98], some [112, 46, 98], none, 1, 200, none⟩]
    edges := [⟨1, some [112], 1, 2, some [67], none, none⟩]
    vectors := [⟨1, some [112], some [1, 2, 3], 3⟩]
    tokenVecs := [] }

theorem readable_oneCall : oneCall.Readable := by
  decide +kernel

theorem nextPage_oneCall : (cbmWriteDb oneCall).nextPage ≤ 2 ^ 32 := by
  rw [cbmWriteDb_eq oneCall rfl, writeDbAfterNodes]
  dsimp only
  rw [if_neg (by decide +kernel), if_neg (by decide +kernel), finishDb_nextPage]
  decide +kernel

theorem readDatabase_oneCall : (cbmWriteDb oneCall).rc = 0 ∧ ∃ depth, ∀ fuel, depth < fuel →
    readDatabase (cbmWriteDb oneCall).fp fuel =
      some ((contents oneCall).map fun o => (bytesOf o.1, o.2)) :=
  readDatabase_cbmWriteDb readable_oneCall nextPage_oneCall

theorem size_cbmWriteDb {input : DbInput} (hrc : (cbmWriteDb input).rc = 0) :
    (cbmWriteDb input).fp.size = ((cbmWriteDb input).nextPage - 1) * 65536 ∧
      dbSize (cbmWriteDb input).fp = ((cbmWriteDb input).nextPage - 1) % 256 ^ 4 := by
  have hdb := composesDb_size.cbmWriteDb input
  have hle := hdb.2 le_rfl (Nat.zero_le _)
  refine ⟨le_antisymm hle ?_, dbSize_cbmWriteDb hrc⟩
  obtain ⟨g, m, master, hfinish⟩ := exists_finishDb hrc
  rw [hfinish] at hrc ⊢
  rw [finishDb_nextPage]
  unfold finishDb at hrc ⊢
  split at hrc
  · simp at hrc
  · unfold padFileToPageBoundary
    dsimp only
    split
    · rw [size_fwrite]
      omega
    · omega

theorem size_oneCall : (cbmWriteDb oneCall).fp.size = ((cbmWriteDb oneCall).nextPage - 1) * 65536 ∧
    dbSize (cbmWriteDb oneCall).fp = ((cbmWriteDb oneCall).nextPage - 1) % 256 ^ 4 :=
  size_cbmWriteDb (rc_cbmWriteDb readable_oneCall nextPage_oneCall)

end Sqlite
end CodebaseMemory
