import CodebaseMemory.Sqlite.TableBtree

/-!
# Page allocation over a whole database write

Every page that holds B-tree or overflow content gets its number from one
counter.  `Alloc f n g m` says what a piece of the writer has done that found
the file `f` with the counter `n` and left the file `g` with the counter `m`:
it has put content on every page in `[n, m)`, once, with the exception of the
pending-byte page, which has content exactly if an overflow chain runs over it.

`Alloc` composes (`composes_alloc`), so it holds of both tree writers, and the
whole write is a chain of them.
-/

namespace CodebaseMemory
namespace Sqlite

open Lib

/-- A call of `write_overflow_pages`, entered with page counter `spill.1` and
`spill.2` bytes to write, puts a page of its chain on the pending-byte page. -/
def CoversPending (spill : Nat × Nat) : Prop :=
  spill.1 ≤ pendingBytePage ∧ pendingBytePage < spill.1 + chunkCount spill.2

instance (spill : Nat × Nat) : Decidable (CoversPending spill) :=
  inferInstanceAs (Decidable (_ ∧ _))

/-- Content pages and spills that were added between two states. -/
structure Added (f : File) (n : Nat) (g : File) (m : Nat) (new : List Nat)
    (spills : List (Nat × Nat)) : Prop where
  pages : g.contentPages = new ++ f.contentPages
  log : g.spills = spills ++ f.spills
  nodup : new.Nodup
  inside : ∀ s, s ∈ spills → n ≤ s.1 ∧ s.1 + chunkCount s.2 ≤ m
  mem : ∀ p, p ∈ new ↔
    (n ≤ p ∧ p < m) ∧ (p = pendingBytePage → ∃ s, s ∈ spills ∧ CoversPending s)

/-- From `(f, n)` to `(g, m)` the writer has allocated the pages in between. -/
def Alloc (f : File) (n : Nat) (g : File) (m : Nat) : Prop :=
  n ≤ m ∧ (1 ≤ n → ∃ new spills, Added f n g m new spills)

theorem Alloc.refl (f : File) (n : Nat) : Alloc f n f n :=
  ⟨le_rfl, fun _ => ⟨[], [], ⟨rfl, rfl, List.nodup_nil, by simp, fun p => by simp⟩⟩⟩

theorem Alloc.trans {f g h : File} {n m k : Nat} (h₁ : Alloc f n g m) (h₂ : Alloc g m h k) :
    Alloc f n h k := by
  obtain ⟨hnm, h₁⟩ := h₁
  obtain ⟨hmk, h₂⟩ := h₂
  refine ⟨le_trans hnm hmk, fun hn => ?_⟩
  obtain ⟨new₁, spills₁, a₁⟩ := h₁ hn
  obtain ⟨new₂, spills₂, a₂⟩ := h₂ (le_trans hn hnm)
  refine ⟨new₂ ++ new₁, spills₂ ++ spills₁, ?_, ?_, ?_, ?_, ?_⟩
  · rw [a₂.pages, a₁.pages, List.append_assoc]
  · rw [a₂.log, a₁.log, List.append_assoc]
  · refine List.Nodup.append a₂.nodup a₁.nodup ?_
    intro p hp₂ hp₁
    have h₂ := ((a₂.mem p).mp hp₂).1
    have h₁ := ((a₁.mem p).mp hp₁).1
    omega
  · intro s hs
    rcases List.mem_append.mp hs with hs | hs
    · have := a₂.inside s hs
      omega
    · have := a₁.inside s hs
      omega
  · intro p
    rw [List.mem_append, a₁.mem, a₂.mem]
    constructor
    · rintro (⟨hp, hcover⟩ | ⟨hp, hcover⟩)
      · refine ⟨by omega, fun hpend => ?_⟩
        obtain ⟨s, hs, hc⟩ := hcover hpend
        exact ⟨s, by simp [hs], hc⟩
      · refine ⟨by omega, fun hpend => ?_⟩
        obtain ⟨s, hs, hc⟩ := hcover hpend
        exact ⟨s, by simp [hs], hc⟩
    · rintro ⟨hp, hcover⟩
      -- a chain over the pending-byte page lies in the same half as the page
      by_cases hhalf : p < m
      · refine Or.inr ⟨by omega, fun hpend => ?_⟩
        obtain ⟨s, hs, hc⟩ := hcover hpend
        rcases List.mem_append.mp hs with hs | hs
        · have h₁ := a₂.inside s hs
          have h₂ := hc.1
          omega
        · exact ⟨s, hs, hc⟩
      · refine Or.inl ⟨by omega, fun hpend => ?_⟩
        obtain ⟨s, hs, hc⟩ := hcover hpend
        rcases List.mem_append.mp hs with hs | hs
        · exact ⟨s, hs, hc⟩
        · have h₁ := a₁.inside s hs
          have h₂ := hc.2
          omega

theorem Alloc.spills_subset {f g : File} {n m : Nat} (h : Alloc f n g m) (hn : 1 ≤ n) :
    f.spills ⊆ g.spills := by
  obtain ⟨new, spills, a⟩ := h.2 hn
  rw [a.log]
  exact List.subset_append_right _ _

theorem contentPages_writePage (f : File) {kind : WriteKind} {pgno : Nat} (page : Memory)
    (hkind : kind = .leaf ∨ kind = .interior ∨ kind = .overflow) (hpg : 1 ≤ pgno) :
    (f.writePage kind pgno page).contentPages = pgno :: f.contentPages := by
  have hpgno : (pgno - 1) * 65536 / 65536 + 1 = pgno := by omega
  have hcontent : Write.isContent ⟨kind, (pgno - 1) * 65536, 65536, page⟩ = true := by
    rcases hkind with rfl | rfl | rfl <;> rfl
  simp only [File.contentPages, File.writePage, File.fwrite]
  rw [List.filter_cons_of_pos hcontent, List.map_cons, Write.pgno, hpgno]

theorem contentPages_fwrite (f : File) {kind : WriteKind} (off len : Nat) (data : Memory)
    (hkind : kind = .nextPointer ∨ kind = .master ∨ kind = .padding) :
    (f.fwrite kind off len data).contentPages = f.contentPages := by
  have hcontent : ¬ Write.isContent ⟨kind, off, len, data⟩ = true := by
    rcases hkind with rfl | rfl | rfl <;> simp [Write.isContent]
  simp only [File.contentPages, File.fwrite]
  rw [List.filter_cons_of_neg hcontent]

theorem alloc_writePage (f : File) (n : Nat) {kind : WriteKind} (page : Memory)
    (hkind : kind = .leaf ∨ kind = .interior) :
    Alloc f n (f.writePage kind (cbmSkipPendingByte n) page) (cbmSkipPendingByte n + 1) := by
  have hskip := cbmSkipPendingByte_le n
  refine ⟨by omega, fun hn => ⟨[cbmSkipPendingByte n], [], ?_, rfl, by simp, by simp, ?_⟩⟩
  · apply contentPages_writePage f page _ (by omega)
    rcases hkind with rfl | rfl <;> simp
  · intro p
    simp only [List.mem_singleton, List.not_mem_nil, false_and, exists_false, imp_false]
    unfold cbmSkipPendingByte
    split <;> omega

theorem contentPages_writeOverflowLoop :
    ∀ (fuel : Nat) (f : File) (next : Nat) (prev : Option Nat) (data : List UInt8),
      data.length ≤ fuel → 1 ≤ next →
      (writeOverflowLoop fuel f next prev data).2 = next + chunkCount data.length ∧
        (writeOverflowLoop fuel f next prev data).1.spills = f.spills ∧
        (writeOverflowLoop fuel f next prev data).1.contentPages =
          (List.range' next (chunkCount data.length)).reverse ++ f.contentPages := by
  intro fuel
  induction fuel with
  | zero =>
      intro f next prev data hfuel _
      have hnil : data = [] := List.length_eq_zero_iff.mp (by omega)
      subst hnil
      exact ⟨rfl, rfl, rfl⟩
  | succ fuel ih =>
      intro f next prev data hfuel hnext
      by_cases hne : data = []
      · subst hne
        exact ⟨rfl, rfl, rfl⟩
      · have hpos := List.length_pos_iff.mpr hne
        have hdrop : (data.drop 65532).length = data.length - 65532 := by simp
        have hchunks : chunkCount data.length = chunkCount (data.length - 65532) + 1 := by
          simp only [chunkCount]
          omega
        have hpatch : (patchNextPointer f prev next).contentPages = f.contentPages ∧
            (patchNextPointer f prev next).spills = f.spills := by
          cases prev with
          | none => exact ⟨rfl, rfl⟩
          | some off => exact ⟨contentPages_fwrite f _ _ _ (by simp), rfl⟩
        obtain ⟨hcount, hspills, hpages⟩ := ih
          ((patchNextPointer f prev next).writePage .overflow next
            (overflowPage (data.take 65532))) (next + 1) (some ((next - 1) * 65536))
          (data.drop 65532) (by omega) (by omega)
        rw [contentPages_writePage _ _ (by simp) hnext, hpatch.1] at hpages
        rw [writeOverflowLoop, if_neg hne]
        rw [hdrop] at hcount hpages
        refine ⟨by rw [hcount, hchunks]; omega, hspills.trans hpatch.2, ?_⟩
        rw [hpages, hchunks, List.range'_succ, List.reverse_cons]
        simp

theorem spills_writeOverflowPages (f : File) {n : Nat} (data : List UInt8) (hn : 1 ≤ n) :
    (writeOverflowPages f n data).1.spills = (n, data.length) :: f.spills :=
  (contentPages_writeOverflowLoop data.length
    { f with spills := (n, data.length) :: f.spills } n none data le_rfl hn).2.1

theorem alloc_writeOverflowPages (f : File) (n : Nat) (data : List UInt8) :
    Alloc f n (writeOverflowPages f n data).1 (writeOverflowPages f n data).2.1 := by
  refine ⟨le_writeOverflowPages f n data, fun hn => ?_⟩
  have hspills := spills_writeOverflowPages f data hn
  obtain ⟨hcount, -, hpages⟩ := contentPages_writeOverflowLoop data.length
    { f with spills := (n, data.length) :: f.spills } n none data le_rfl hn
  have hcount' : (writeOverflowPages f n data).2.1 = n + chunkCount data.length := hcount
  refine ⟨(List.range' n (chunkCount data.length)).reverse, [(n, data.length)],
    hpages, hspills, ?_, ?_, ?_⟩
  · exact List.nodup_reverse.mpr List.nodup_range'
  · intro s hs
    rw [List.mem_singleton.mp hs, hcount']
    exact ⟨le_rfl, le_rfl⟩
  · intro p
    rw [hcount']
    simp only [List.mem_reverse, List.mem_range'_1, List.mem_singleton, exists_eq_left,
      CoversPending]
    constructor
    · intro hp
      exact ⟨hp, fun hpend => ⟨by omega, by omega⟩⟩
    · exact fun hp => hp.1

theorem composes_alloc : Composes Alloc :=
  ⟨Alloc.refl, Alloc.trans, alloc_writePage, alloc_writeOverflowPages⟩

theorem alloc_pbAddTableCellWithFlush (pb : PageBuilder) (rowid : Int)
    (payload : List UInt8) (prev : Int) :
    Between Alloc pb (pbAddTableCellWithFlush pb rowid payload prev) :=
  composes_alloc.tableRow pb rowid payload prev

theorem alloc_of_eq {f g h : File} {n m : Nat} (hfg : Alloc f n g m)
    (hpages : h.contentPages = g.contentPages) (hspills : h.spills = g.spills) :
    Alloc f n h m := by
  refine ⟨hfg.1, fun hn => ?_⟩
  obtain ⟨new, spills, a⟩ := hfg.2 hn
  exact ⟨new, spills, by rw [hpages, a.pages], by rw [hspills, a.log], a.nodup, a.inside, a.mem⟩

theorem composesDb_alloc : ComposesDb Alloc where
  toComposes := composes_alloc
  master f n page := alloc_of_eq (Alloc.refl f n) (contentPages_fwrite f _ _ _ (by simp)) rfl
  padding f n := by
    unfold padFileToPageBoundary
    dsimp only
    split
    · exact alloc_of_eq (Alloc.refl f n) (contentPages_fwrite f _ _ _ (by simp)) rfl
    · exact Alloc.refl f n

theorem alloc_cbmWriterFinalize {w : DbWriter} (input : DbInput) (h : w.nodeRowsWritten ≠ 0) :
    Alloc w.nodesPb.fp w.nodesPb.nextPage (cbmWriterFinalize w input).fp
      (cbmWriterFinalize w input).nextPage :=
  composesDb_alloc.cbmWriterFinalize input h

theorem alloc_cbmWriteDb (input : DbInput) :
    Alloc File.empty 2 (cbmWriteDb input).fp (cbmWriteDb input).nextPage :=
  composesDb_alloc.cbmWriteDb input

/-- The database size in pages, as the file header has it. -/
def dbSize (f : File) : Nat :=
  (f.page 1).getBe 28 4

theorem holds_writeSqliteFileHeader (page1 : Memory) (totalPages : Nat) :
    (writeSqliteFileHeader page1 totalPages).Holds 28 (bigEndian 4 totalPages) := by
  simp only [writeSqliteFileHeader, List.foldl_cons, List.foldl_nil]
  iterate 12 refine Memory.Holds.memcpy ?_ _ _ (Or.inl (by simp))
  exact Memory.holds_memcpy _ _ _

theorem dbSize_finishDb {f : File} {next : Nat} {master : List MasterEntry}
    (hrc : (finishDb f next master).rc = 0) :
    dbSize (finishDb f next master).fp = (next - 1) % 256 ^ 4 := by
  unfold finishDb at hrc ⊢
  cases hmaster : writeMasterPage1 f master next with
  | none => simp [hmaster] at hrc
  | some g =>
      unfold writeMasterPage1 at hmaster
      obtain ⟨a, -, rfl⟩ := Option.map_eq_some_iff.mp hmaster
      obtain ⟨page, hpage⟩ : ∃ page, page =
        writeSqliteFileHeader (a.finish 100 0x0D) (next - 1) := ⟨_, rfl⟩
      have hheld : page.Holds 28 (bigEndian 4 (next - 1)) := by
        rw [hpage]
        exact holds_writeSqliteFileHeader _ _
      have hpage1 : ((f.fwrite .master 0 65536 page).page 1).Holds 28
          (bigEndian 4 (next - 1)) := by
        apply hheld.congr
        intro i hi
        rw [length_bigEndian] at hi
        exact f.page_writePage .master 1 page (by omega)
      have hpadded : ((padFileToPageBoundary (f.fwrite .master 0 65536 page) next).page 1).Holds
          28 (bigEndian 4 (next - 1)) := by
        unfold padFileToPageBoundary
        dsimp only
        split
        · apply hpage1.congr
          intro i hi
          rw [length_bigEndian] at hi
          exact File.read_fwrite_outside _ _ _ _ _ (Or.inl (by omega))
        · exact hpage1
      rw [← hpage]
      exact hpadded.getBe_eq_mod

theorem dbSize_cbmWriteDb {input : DbInput} (hrc : (cbmWriteDb input).rc = 0) :
    dbSize (cbmWriteDb input).fp = ((cbmWriteDb input).nextPage - 1) % 256 ^ 4 := by
  obtain ⟨g, m, master, hfinish⟩ := exists_finishDb hrc
  rw [hfinish] at hrc ⊢
  rw [dbSize_finishDb hrc, finishDb_nextPage]

/-- Page allocation was sound: no content on the pending-byte page, no page
twice, none below 2, and after a complete write every page up to the size in
the header has content. -/
structure PagesSound (r : DbResult) : Prop where
  not_pending : pendingBytePage ∉ r.fp.contentPages
  distinct : r.fp.contentPages.Nodup
  two_le : ∀ p, p ∈ r.fp.contentPages → 2 ≤ p
  once : r.rc = 0 → ∀ p, 2 ≤ p → p ≤ dbSize r.fp → p ≠ pendingBytePage →
    r.fp.contentPages.count p = 1

theorem added_cbmWriteDb (input : DbInput) :
    Added File.empty 2 (cbmWriteDb input).fp (cbmWriteDb input).nextPage
      (cbmWriteDb input).fp.contentPages (cbmWriteDb input).fp.spills := by
  obtain ⟨new, spills, h⟩ := (alloc_cbmWriteDb input).2 (by omega)
  have hpages : (cbmWriteDb input).fp.contentPages = new :=
    h.pages.trans (List.append_nil new)
  have hlog : (cbmWriteDb input).fp.spills = spills := h.log.trans (List.append_nil spills)
  rw [hpages, hlog]
  exact h

theorem pending_mem_contentPages {input : DbInput} {spill : Nat × Nat}
    (hspill : spill ∈ (cbmWriteDb input).fp.spills) (hcover : CoversPending spill) :
    pendingBytePage ∈ (cbmWriteDb input).fp.contentPages := by
  have h := added_cbmWriteDb input
  have hinside := h.inside spill hspill
  have hlo := hcover.1
  have hhi := hcover.2
  exact (h.mem pendingBytePage).mpr ⟨by omega, fun _ => ⟨spill, hspill, hcover⟩⟩

/-- The page allocation of a database write is sound if and only if no call of
`write_overflow_pages` was entered with a page counter and a byte count that
take its chain over the pending-byte page: the other routines skip the page,
`write_overflow_pages` does not. -/
theorem pagesSound_iff (input : DbInput) :
    PagesSound (cbmWriteDb input) ↔
      ∀ spill, spill ∈ (cbmWriteDb input).fp.spills → ¬ CoversPending spill := by
  have h := added_cbmWriteDb input
  constructor
  · intro hsound spill hspill hcover
    exact hsound.not_pending (pending_mem_contentPages hspill hcover)
  · intro hcover
    refine ⟨?_, h.nodup, ?_, ?_⟩
    · intro hmem
      obtain ⟨spill, hspill, hc⟩ := ((h.mem pendingBytePage).mp hmem).2 rfl
      exact hcover spill hspill hc
    · intro p hp
      exact ((h.mem p).mp hp).1.1
    · intro hrc p hlo hhi hp
      have hsize := dbSize_cbmWriteDb hrc
      have hle := Nat.mod_le ((cbmWriteDb input).nextPage - 1) (256 ^ 4)
      apply List.count_eq_one_of_mem h.nodup
      exact (h.mem p).mpr ⟨⟨hlo, by omega⟩, fun hpend => absurd hpend hp⟩

/-- Properties of a little over one GiB. -/
def bigProperties : CStr :=
  List.replicate 1073700000 120

theorem length_bigProperties : bigProperties.length = 1073700000 :=
  List.length_replicate

/-- A node with such properties. -/
def bigNode : DumpNode :=
  { id := 1, project := none, label := none, name := none, qualifiedName := none,
    filePath := none, startLine := 0, endLine := 0, properties := some bigProperties }

/-- A database with this node only. -/
def bigInput : DbInput :=
  { project := none, rootPath := none, indexedAt := none, nodes := [bigNode], edges := [],
    vectors := [], tokenVecs := [] }

theorem length_buildNodeRecord_bigNode : 1073700000 ≤ (buildNodeRecord bigNode).length := by
  unfold buildNodeRecord
  dsimp only
  refine le_trans ?_ (length_body_le_recFinalize _)
  rw [recAddText, List.length_append]
  have hlen : ((some (bigNode.properties.getD (bytesOf "\x7b\x7d"))).getD []).length =
    1073700000 := length_bigProperties
  rw [hlen]
  exact Nat.le_add_left _ _

theorem mem_spills_pbAddTableCellWithFlush (pb : PageBuilder) (rowid : Int)
    (payload : List UInt8) (prev : Int) (hnext : 1 ≤ pb.nextPage)
    (hlong : payload.length > tableOverflowMaxLocal) :
    ∃ loc, loc ≤ tableOverflowMaxLocal ∧ (pb.nextPage, payload.length - loc) ∈
      (pbAddTableCellWithFlush pb rowid payload prev).fp.spills := by
  have hspilled : ∀ loc, (pb.nextPage, payload.length - loc) ∈
      (pbSpillTableCell pb rowid payload loc).1.fp.spills := by
    intro loc
    rw [pbSpillTableCell, spills_writeOverflowPages pb.fp _ hnext, List.length_drop]
    exact List.mem_cons_self
  have hbuild := composes_alloc.builtCell pb rowid payload
  have hplace := composes_alloc.placedCell pb rowid payload prev
  refine ⟨spillLocal tableOverflowMaxLocal payload.length, spillLocal_le _ (by decide), ?_⟩
  apply hplace.spills_subset (le_trans hnext hbuild.1)
  rw [pbBuildTableCell, if_pos hlong]
  exact hspilled _

/-- The pages of the node's record run from page 2 over page 16385. -/
theorem not_pagesSound_bigInput : ¬ PagesSound (cbmWriteDb bigInput) := by
  have hlen := length_buildNodeRecord_bigNode
  have hopen : cbmWriterOpen.nodesPb.nextPage = 2 := rfl
  have hdb : cbmWriteDb bigInput =
    cbmWriterFinalize (cbmWriterAppendNodes cbmWriterOpen [bigNode]) bigInput := rfl
  obtain ⟨hpb, hrows, -⟩ := cbmWriterAppendNodes_eq [bigNode] cbmWriterOpen
  have hdone := alloc_cbmWriterFinalize (w := cbmWriterAppendNodes cbmWriterOpen [bigNode])
    bigInput (by rw [hrows]; decide)
  rw [← hdb, hpb, List.map_cons, List.map_nil, addTableRows, addTableRows] at hdone
  generalize cbmWriterOpen.nodesPb = pb at hopen hdone
  obtain ⟨loc, hloc, hmem⟩ := mem_spills_pbAddTableCellWithFlush pb bigNode.id
    (buildNodeRecord bigNode) cbmWriterOpen.lastNodeRowid (by omega)
    (lt_of_lt_of_le (by decide) hlen)
  have hnode := alloc_pbAddTableCellWithFlush pb bigNode.id (buildNodeRecord bigNode)
    cbmWriterOpen.lastNodeRowid
  have hspill := hdone.spills_subset (le_trans (by omega) hnode.1) hmem
  have hcover : CoversPending (pb.nextPage, (buildNodeRecord bigNode).length - loc) := by
    simp only [CoversPending, chunkCount, tableOverflowMaxLocal, pendingBytePage] at hloc ⊢
    omega
  intro hsound
  exact hsound.not_pending (pending_mem_contentPages hspill hcover)

end Sqlite
end CodebaseMemory
