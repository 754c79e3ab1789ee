import CodebaseMemory.Artifact.Export

/-!
# An imported artifact (`src/pipeline/artifact.c`)

The file that an import opens as a store is the data that the export read, byte
for byte, as long as its size is an `int` and no byte is lost when a file is
closed.  Opening the store creates the indexes the copy went without, and the
database in the cache is what the store leaves.
-/

namespace CodebaseMemory
namespace Artifact

open Sqlite (CStr toI32)

/-- What zstd documents: a bound for the compressed size, and that decompression
gives the source back where the buffer has room for it. -/
structure Tools.Lossless (tools : Tools) : Prop where
  bound : ∀ src cap level out, tools.zstdCompress src cap level = some out →
    out.length ≤ zstdCompressBound src.length
  decompress : ∀ src cap level out, tools.zstdCompress src cap level = some out →
    ∀ cap', tools.zstdDecompress out cap' = if src.length ≤ cap' then some src else none

/-- The file is opened, takes all bytes and is renamed. -/
def WriteOutcome.Done (w : WriteOutcome) (data : CStr) : Prop :=
  w.opened = true ∧ w.written = data.length ∧ w.renamed = true

/-- Closing the file loses no byte that was accepted. -/
def WriteOutcome.Closes (w : WriteOutcome) : Prop :=
  w.kept = w.written

theorem writeTmp_eq_some {w : WriteOutcome} {data file : CStr} (h : writeTmp w data = some file) :
    w.opened = true ∧ w.written = data.length ∧ file = data.take w.kept := by
  unfold writeTmp at h
  by_cases hopened : w.opened = true
  · by_cases hwritten : w.written = data.length
    · simp only [hopened, hwritten, Bool.not_true, Bool.false_eq_true, if_false, ne_eq,
        not_true_eq_false, Option.some.injEq] at h
      exact ⟨hopened, hwritten, h.symm⟩
    · simp [hopened, hwritten] at h
  · simp [hopened] at h

theorem writeFileAtomic_ok {w : WriteOutcome} {old : Option CStr} {data : CStr}
    (h : (writeFileAtomic w old data).2 = 0) :
    w.Done data ∧ (writeFileAtomic w old data).1 = some (data.take w.kept) := by
  unfold writeFileAtomic at h ⊢
  cases htmp : writeTmp w data with
  | none => simp [htmp] at h
  | some file =>
      obtain ⟨hopened, hwritten, rfl⟩ := writeTmp_eq_some htmp
      by_cases hrenamed : w.renamed = true
      · exact ⟨⟨hopened, hwritten, hrenamed⟩, by simp [hrenamed]⟩
      · simp [htmp, hrenamed] at h

theorem WriteOutcome.Done.take_kept {w : WriteOutcome} {data : CStr} (hdone : w.Done data)
    (hcloses : w.Closes) : data.take w.kept = data := by
  rw [hcloses, hdone.2.1, List.take_length]

theorem toI32_natCast {n : Nat} (h : n < 2 ^ 31) : toI32 n = n := by
  unfold toI32
  omega

theorem toSizeT_natCast {n : Nat} (h : n < 2 ^ 64) : toSizeT n = n := by
  unfold toSizeT
  omega

theorem lt_of_toI32_pos {n : Nat} (hsize : n < 2 ^ 32) (hpos : 0 < toI32 n) : n < 2 ^ 31 := by
  unfold toI32 at hpos
  omega

theorem zstdCompressBound_lt {n : Nat} (h : n < 2 ^ 31) : zstdCompressBound n < 2 ^ 32 := by
  unfold zstdCompressBound
  split <;> omega

section Steps

variable (tools : Tools)

/-- What an export that returns 0 has done. -/
def ExportSteps (o : ExportOutcome) (db : Option CStr) (quality : Quality)
    (data compressed : CStr) : Prop :=
  exportData tools o db quality = some data ∧ o.mallocOk = true ∧
    tools.zstdCompress (data.take (toSizeT (toI32 data.length)))
      (toSizeT (toI32 (cbmZstdCompressBound (toI32 data.length)))) quality.level =
        some compressed ∧
    0 < toI32 compressed.length ∧
    o.artifact.Done (compressed.take (toSizeT (toI32 compressed.length)))

def ReadSteps (o : ImportOutcome) (repo : Repo) (compressed decompressed : CStr) : Prop :=
  (∃ json, readFileAlloc o.metadataOk repo.metadata = some json ∧
    0 ≤ tools.metadataVersion json ∧ tools.metadataVersion json ≤ 1) ∧
  (∃ json, readFileAlloc o.sizeOk repo.metadata = some json ∧
    tools.metadataOriginalSize json ≠ 0 ∧
    tools.zstdDecompress (compressed.take (toSizeT (toI32 compressed.length)))
      (toSizeT (toI32 (tools.metadataOriginalSize json))) = some decompressed) ∧
  readFileAlloc o.artifactOk repo.artifact = some compressed ∧ o.mallocOk = true ∧
  0 < toI32 decompressed.length

/-- What an import has done that has put a store in the cache. -/
def InstallSteps (o : ImportOutcome) (data store : CStr) : Prop :=
  o.write.Done data ∧ tools.openStore (data.take o.write.kept) = some store ∧
    tools.checkIntegrity store = true ∧ o.renamed = true

variable {tools}

theorem compressData_eq_some {o : ExportOutcome} {quality : Quality} {data packed : CStr}
    (h : compressData tools o quality data = some packed) :
    ∃ compressed, o.mallocOk = true ∧
      tools.zstdCompress (data.take (toSizeT (toI32 data.length)))
        (toSizeT (toI32 (cbmZstdCompressBound (toI32 data.length)))) quality.level =
          some compressed ∧
      0 < toI32 compressed.length ∧
      packed = compressed.take (toSizeT (toI32 compressed.length)) := by
  unfold compressData at h
  cases hmalloc : o.mallocOk with
  | false => simp [hmalloc] at h
  | true =>
      cases hz : tools.zstdCompress (data.take (toSizeT (toI32 data.length)))
          (toSizeT (toI32 (cbmZstdCompressBound (toI32 data.length)))) quality.level with
      | none =>
          simp only [hmalloc, cbmZstdCompress, hz, Bool.not_true, Bool.false_eq_true, if_false,
            le_refl, if_true, reduceCtorEq] at h
      | some compressed =>
          by_cases hlen : toI32 compressed.length ≤ 0
          · simp only [hmalloc, cbmZstdCompress, hz, hlen, Bool.not_true, Bool.false_eq_true,
              if_false, if_true, reduceCtorEq] at h
          · simp only [hmalloc, cbmZstdCompress, hz, hlen, Bool.not_true, Bool.false_eq_true,
              if_false, Option.some.injEq] at h
            exact ⟨compressed, rfl, rfl, by omega, h.symm⟩

theorem export_steps {o : ExportOutcome} {db : Option CStr} {quality : Quality} {repo : Repo}
    (h : (cbmArtifactExport tools o db quality repo).2 = 0) :
    ∃ data compressed, ExportSteps tools o db quality data compressed ∧
      (cbmArtifactExport tools o db quality repo).1.artifact =
        some ((compressed.take (toSizeT (toI32 compressed.length))).take o.artifact.kept) := by
  unfold cbmArtifactExport at h ⊢
  cases hdata : exportData tools o db quality with
  | none => simp [hdata] at h
  | some data =>
      cases hpack : compressData tools o quality data with
      | none => simp [hdata, hpack] at h
      | some packed =>
          obtain ⟨compressed, hmalloc, hz, hpos, hpacked⟩ := compressData_eq_some hpack
          by_cases hwrite : (writeFileAtomic o.artifact repo.artifact packed).2 = 0
          · obtain ⟨hdone, hfile⟩ := writeFileAtomic_ok hwrite
            refine ⟨data, compressed, ⟨hdata, hmalloc, hz, hpos, hpacked ▸ hdone⟩, ?_⟩
            rw [← hpacked]
            simp [hpack, hwrite, hfile]
          · simp [hdata, hpack, hwrite] at h

theorem read_steps {o : ImportOutcome} {repo : Repo} {data : CStr}
    (h : readArtifact tools o repo = some data) :
    ∃ compressed decompressed, ReadSteps tools o repo compressed decompressed ∧
      data = decompressed.take (toSizeT (toI32 decompressed.length)) := by
  unfold readArtifact at h
  cases hmeta : readFileAlloc o.metadataOk repo.metadata with
  | none => simp [hmeta] at h
  | some json =>
      by_cases hversion : tools.metadataVersion json < 0 ∨ tools.metadataVersion json > 1
      · simp [hmeta, hversion] at h
      · cases hsize : readFileAlloc o.sizeOk repo.metadata with
        | none => simp [hmeta, hsize] at h
        | some json' =>
            by_cases hzero : tools.metadataOriginalSize json' = 0
            · simp [hmeta, hsize, hzero] at h
            · cases hread : readFileAlloc o.artifactOk repo.artifact with
              | none => simp [hmeta, hsize, hread] at h
              | some compressed =>
                  simp only [hmeta, hversion, hsize, hzero, hread, if_false] at h
                  cases hmalloc : o.mallocOk with
                  | false => simp [hmalloc] at h
                  | true =>
                      cases hz : tools.zstdDecompress
                          (compressed.take (toSizeT (toI32 compressed.length)))
                          (toSizeT (toI32 (tools.metadataOriginalSize json'))) with
                      | none =>
                          simp only [hmalloc, cbmZstdDecompress, hz, Bool.not_true,
                            Bool.false_eq_true, if_false, le_refl, if_true, reduceCtorEq] at h
                      | some decompressed =>
                          by_cases hlen : toI32 decompressed.length ≤ 0
                          · simp only [hmalloc, cbmZstdDecompress, hz, hlen, Bool.not_true,
                              Bool.false_eq_true, if_false, if_true, reduceCtorEq] at h
                          · simp only [hmalloc, cbmZstdDecompress, hz, hlen, Bool.not_true,
                              Bool.false_eq_true, if_false, Option.some.injEq] at h
                            exact ⟨compressed, decompressed, ⟨⟨json, hmeta, by omega, by omega⟩,
                              ⟨json', hsize, hzero, hz⟩, hread, hmalloc, by omega⟩, h.symm⟩

theorem install_steps {o : ImportOutcome} {data : CStr} {cache : Option CStr}
    (h : (installStore tools o data cache).rc = 0) :
    ∃ store, InstallSteps tools o data store ∧
      installStore tools o data cache = ⟨some (data.take o.write.kept), some store, 0⟩ := by
  unfold installStore at h ⊢
  by_cases hwrite : (writeFileAtomic o.write none data).2 = 0
  · obtain ⟨hdone, hfile⟩ := writeFileAtomic_ok hwrite
    simp only [hwrite, hfile, Option.bind_some, ne_eq, not_true_eq_false, if_false] at h ⊢
    cases hopen : tools.openStore (data.take o.write.kept) with
    | none => simp [hopen] at h
    | some store =>
        cases hcheck : tools.checkIntegrity store with
        | false => simp [hopen, hcheck] at h
        | true =>
            cases hrenamed : o.renamed with
            | false => simp [hopen, hcheck, hrenamed] at h
            | true => exact ⟨store, ⟨hdone, hopen, hcheck, hrenamed⟩, by simp [hcheck]⟩
  · simp [hwrite] at h

theorem import_steps {o : ImportOutcome} {repo : Repo} {cache : Option CStr}
    (h : (cbmArtifactImport tools o repo cache).rc = 0) :
    ∃ data store, readArtifact tools o repo = some data ∧ InstallSteps tools o data store ∧
      cbmArtifactImport tools o repo cache = ⟨some (data.take o.write.kept), some store, 0⟩ := by
  unfold cbmArtifactImport at h ⊢
  cases hread : readArtifact tools o repo with
  | none => simp [hread] at h
  | some data =>
      rw [hread] at h
      obtain ⟨store, hsteps, hresult⟩ := install_steps h
      exact ⟨data, store, rfl, hsteps, hresult⟩

end Steps

theorem ExportSteps.artifact {tools : Tools} (htools : tools.Lossless) {o : ExportOutcome}
    {db : Option CStr} {quality : Quality} {data compressed : CStr}
    (hsteps : ExportSteps tools o db quality data compressed) (hsize : data.length < 2 ^ 31)
    (hcloses : o.artifact.Closes) :
    (∃ cap, tools.zstdCompress data cap quality.level = some compressed) ∧
      compressed.length < 2 ^ 31 ∧
      (compressed.take (toSizeT (toI32 compressed.length))).take o.artifact.kept = compressed := by
  obtain ⟨hdata, -, hz, hpos, hdone⟩ := hsteps
  have hall : data.take (toSizeT (toI32 data.length)) = data := by
    rw [toI32_natCast hsize, toSizeT_natCast (by omega), List.take_length]
  rw [hall] at hz
  have hlength : compressed.length < 2 ^ 31 :=
    lt_of_toI32_pos ((htools.bound _ _ _ _ hz).trans_lt (zstdCompressBound_lt hsize)) hpos
  refine ⟨⟨_, hz⟩, hlength, ?_⟩
  rw [hdone.take_kept hcloses, toI32_natCast hlength, toSizeT_natCast (by omega), List.take_length]

theorem ReadSteps.data {tools : Tools} (htools : tools.Lossless) {o : ImportOutcome} {repo : Repo}
    {compressed decompressed data : CStr} {cap : Nat} {level : Int}
    (hsteps : ReadSteps tools o repo compressed decompressed)
    (hz : tools.zstdCompress data cap level = some compressed)
    (hlength : compressed.length < 2 ^ 31) : decompressed = data := by
  obtain ⟨-, ⟨json, -, -, hdec⟩, -, -, -⟩ := hsteps
  rw [toI32_natCast hlength, toSizeT_natCast (by omega), List.take_length,
    htools.decompress _ _ _ _ hz] at hdec
  split at hdec
  · exact (Option.some.inj hdec).symm
  · cases hdec

theorem import_export {tools : Tools} (htools : tools.Lossless) {o : ExportOutcome}
    {o' : ImportOutcome} {db : Option CStr} {quality : Quality} {repo : Repo}
    {cache : Option CStr} {data : CStr} (hdata : exportData tools o db quality = some data)
    (hsize : data.length < 2 ^ 31) (hcloses : o.artifact.Closes) (hcloses' : o'.write.Closes)
    (hexport : (cbmArtifactExport tools o db quality repo).2 = 0)
    (himport : (cbmArtifactImport tools o' (cbmArtifactExport tools o db quality repo).1 cache).rc =
      0) :
    (cbmArtifactImport tools o' (cbmArtifactExport tools o db quality repo).1 cache).written =
      some data ∧
    ∃ store, tools.openStore data = some store ∧
      (cbmArtifactImport tools o' (cbmArtifactExport tools o db quality repo).1 cache).cache =
        some store := by
  obtain ⟨data', compressed, hsteps, hartifact⟩ := export_steps hexport
  obtain rfl : data = data' := Option.some.inj (hdata.symm.trans hsteps.1)
  obtain ⟨⟨cap, hz⟩, hlength, hwhole⟩ := hsteps.artifact htools hsize hcloses
  rw [hwhole] at hartifact
  obtain ⟨read, store, hread, hinstall, hresult⟩ := import_steps himport
  obtain ⟨compressed', decompressed, hreads, hall⟩ := read_steps hread
  have hsame : compressed' = compressed := by
    have hfile := hreads.2.2.1
    rw [hartifact, readFileAlloc] at hfile
    split at hfile
    · exact (Option.some.inj (Option.filter_eq_some_iff.mp hfile).1).symm
    · cases hfile
  subst hsame
  have hsame : decompressed = data := hreads.data htools hz hlength
  rw [hsame, toI32_natCast hsize, toSizeT_natCast (by omega), List.take_length] at hall
  subst hall
  obtain ⟨hdone, hopen, -, -⟩ := hinstall
  rw [hdone.take_kept hcloses'] at hopen hresult
  rw [hresult]
  exact ⟨rfl, store, hopen, rfl⟩

/-- An export and an import that return 0 have passed every check, and the file that
the import opens as a store is the data that the export read. -/
theorem gives_back {tools : Tools} (htools : tools.Lossless) (o : ExportOutcome)
    (o' : ImportOutcome) (db : Option CStr) (quality : Quality) (repo : Repo)
    (cache : Option CStr) :
    ((cbmArtifactExport tools o db quality repo).2 = 0 →
      ∃ data compressed, ExportSteps tools o db quality data compressed) ∧
    (∀ repo', (cbmArtifactImport tools o' repo' cache).rc = 0 →
      ∃ compressed decompressed store, ReadSteps tools o' repo' compressed decompressed ∧
        InstallSteps tools o' (decompressed.take (toSizeT (toI32 decompressed.length))) store) ∧
    ∀ data, exportData tools o db quality = some data → data.length < 2 ^ 31 →
      o.artifact.Closes → o'.write.Closes →
      (cbmArtifactExport tools o db quality repo).2 = 0 →
      (cbmArtifactImport tools o' (cbmArtifactExport tools o db quality repo).1 cache).rc = 0 →
      (cbmArtifactImport tools o' (cbmArtifactExport tools o db quality repo).1 cache).written =
        some data ∧
      ∃ store, tools.openStore data = some store ∧
        (cbmArtifactImport tools o' (cbmArtifactExport tools o db quality repo).1 cache).cache =
          some store := by
  refine ⟨fun hexport => ?_, fun repo' himport => ?_, ?_⟩
  · obtain ⟨data, compressed, hsteps, -⟩ := export_steps hexport
    exact ⟨data, compressed, hsteps⟩
  · obtain ⟨read, store, hread, hinstall, -⟩ := import_steps himport
    obtain ⟨compressed, decompressed, hreads, hall⟩ := read_steps hread
    exact ⟨compressed, decompressed, store, hreads, hall ▸ hinstall⟩
  · intro data hdata hsize hcloses hcloses' hexport himport
    exact import_export htools hdata hsize hcloses hcloses' hexport himport

/-- Compression puts a byte in front; a database is a header and, for its indexes,
the byte 73. -/
def smallTools : Tools where
  zstdCompress := fun src cap _ =>
    if src.length + 1 ≤ cap ∧ src.length < 131072 then some (40 :: src) else none
  zstdDecompress := fun src cap =>
    match src with
    | 40 :: data => if data.length ≤ cap then some data else none
    | _ => none
  vacuum := some
  dropIndexes := List.filter (· ≠ 73)
  openStore := fun db => some (if 73 ∈ db then db else db ++ [73])
  checkIntegrity := fun _ => true
  metadataVersion := fun _ => 1
  metadataOriginalSize := fun json => json.length

theorem smallTools_lossless : smallTools.Lossless where
  bound := by
    intro src cap level out h
    change (if src.length + 1 ≤ cap ∧ src.length < 131072 then some (40 :: src) else none) =
      some out at h
    split at h
    · next hroom =>
        rw [← Option.some.inj h, List.length_cons, zstdCompressBound]
        split <;> omega
    · cases h
  decompress := by
    intro src cap level out h cap'
    change (if src.length + 1 ≤ cap ∧ src.length < 131072 then some (40 :: src) else none) =
      some out at h
    split at h
    · rw [← Option.some.inj h]
      rfl
    · cases h

/-- A run in which nothing fails; the artifact and the metadata have these sizes. -/
def smallExport (artifactSize metadataSize : Nat) : ExportOutcome where
  readOk := true
  strip := ⟨true, true, true⟩
  mallocOk := true
  artifact := ⟨true, artifactSize, artifactSize, true⟩
  metadataText := fun originalSize _ _ => some (List.replicate originalSize 32)
  metadata := ⟨true, metadataSize, metadataSize, true⟩

def smallImport (size : Nat) : ImportOutcome where
  metadataOk := true
  sizeOk := true
  artifactOk := true
  mallocOk := true
  write := ⟨true, size, size, true⟩
  renamed := true

/-- The database `[68, 73]` comes back from a fast export. -/
theorem gives_back_small :
    (cbmArtifactImport smallTools (smallImport 2)
      (cbmArtifactExport smallTools (smallExport 3 2) (some [68, 73]) .fast ⟨none, none⟩).1
        none).written = some [68, 73] :=
  ((gives_back smallTools_lossless (smallExport 3 2) (smallImport 2) (some [68, 73]) .fast
    ⟨none, none⟩ none).2.2 [68, 73] (by decide) (by decide) rfl rfl (by decide) (by decide)).1

/-- After an export of the stripped copy, the database in the cache is not the data
that was read: opening it as a store has created the indexes. -/
theorem not_gives_back_best :
    exportData smallTools (smallExport 2 1) (some [68, 73]) .best = some [68] ∧
    (cbmArtifactExport smallTools (smallExport 2 1) (some [68, 73]) .best ⟨none, none⟩).2 = 0 ∧
    (cbmArtifactImport smallTools (smallImport 1)
      (cbmArtifactExport smallTools (smallExport 2 1) (some [68, 73]) .best ⟨none, none⟩).1
        none).rc = 0 ∧
    (cbmArtifactImport smallTools (smallImport 1)
      (cbmArtifactExport smallTools (smallExport 2 1) (some [68, 73]) .best ⟨none, none⟩).1
        none).cache = some [68, 73] := by
  decide

end Artifact
end CodebaseMemory
