import CodebaseMemory.Sqlite.Record

/-!
# Export and import of an artifact (`src/pipeline/artifact.c`)

An export reads the database, or a copy without its indexes that it makes at a
temporary path, compresses it and writes the artifact and its metadata.  An import
decompresses the artifact to a file beside the cache, opens that file as a store
and renames it.

zstd, SQLite and the JSON of the metadata are parameters.  What the operating
system does in one run, where a step may fail, is data of that run.
-/

namespace CodebaseMemory
namespace Artifact

open Sqlite (CStr toI32)

/-- zstd, SQLite and yyjson. -/
structure Tools where
  /-- `ZSTD_compress`: source, capacity, level; nothing for an error. -/
  zstdCompress : CStr → Nat → Int → Option CStr
  /-- `ZSTD_decompress`: source, capacity. -/
  zstdDecompress : CStr → Nat → Option CStr
  /-- The database that `VACUUM INTO` writes. -/
  vacuum : CStr → Option CStr
  /-- The database after `DROP_INDEXES_SQL` and `VACUUM`. -/
  dropIndexes : CStr → CStr
  /-- The database after `cbm_store_open_path` and `cbm_store_close`. -/
  openStore : CStr → Option CStr
  /-- `cbm_store_check_integrity`. -/
  checkIntegrity : CStr → Bool
  /-- `schema_version` in the text of the metadata, or -1. -/
  metadataVersion : CStr → Int
  /-- `original_size` in the text of the metadata, or 0. -/
  metadataOriginalSize : CStr → Nat

/-- The `size_t` of an `int`. -/
def toSizeT (v : Int) : Nat :=
  (v % 2 ^ 64).toNat

def zstdCompressBound (srcSize : Nat) : Nat :=
  srcSize + srcSize / 256 + if srcSize < 131072 then (131072 - srcSize) / 2048 else 0

section Zstd

variable (tools : Tools)

/-- `cbm_zstd_compress`: the result and what stands in the buffer. -/
def cbmZstdCompress (src : CStr) (srcLen dstCap level : Int) : Int × CStr :=
  match tools.zstdCompress (src.take (toSizeT srcLen)) (toSizeT dstCap) level with
  | none => (0, [])
  | some out => (toI32 out.length, out)

def cbmZstdDecompress (src : CStr) (srcLen dstCap : Int) : Int × CStr :=
  match tools.zstdDecompress (src.take (toSizeT srcLen)) (toSizeT dstCap) with
  | none => (0, [])
  | some out => (toI32 out.length, out)

def cbmZstdCompressBound (inputSize : Int) : Nat :=
  zstdCompressBound (toSizeT inputSize)

end Zstd

/-- `read_file_alloc`; an empty file is an error. -/
def readFileAlloc (ok : Bool) (file : Option CStr) : Option CStr :=
  if ok then file.filter (· ≠ []) else none

/-- What happens in `write_file_atomic`: whether the file is opened, how many bytes
`fwrite` accepts, how many of them are in the file after `fclose`, and whether it
is renamed. -/
structure WriteOutcome where
  opened : Bool
  written : Nat
  kept : Nat
  renamed : Bool

/-- `write_file_atomic` up to `fclose`: the temporary file, if all bytes were
accepted. -/
def writeTmp (w : WriteOutcome) (data : CStr) : Option CStr :=
  if !w.opened then none
  else if w.written ≠ data.length then none
  else some (data.take w.kept)

/-- `write_file_atomic`: the file at the path, and the result. -/
def writeFileAtomic (w : WriteOutcome) (old : Option CStr) (data : CStr) : Option CStr × Int :=
  match writeTmp w data with
  | none => (old, -1)
  | some file => if !w.renamed then (old, -1) else (some file, 0)

/-- What SQLite and the file system do in `prepare_stripped_db`. -/
structure StripOutcome where
  vacuumOk : Bool
  opened : Bool
  readOk : Bool

section Strip

variable (tools : Tools)

/-- `VACUUM INTO`; a file that is there must be empty. -/
def vacuumInto (ok : Bool) (db temp : Option CStr) : Option CStr :=
  if ok ∧ temp.filter (· ≠ []) = none then db.bind tools.vacuum else none

/-- `prepare_stripped_db`, alone at the temporary path. -/
def prepareStrippedDb (o : StripOutcome) (db : Option CStr) : Option CStr :=
  match vacuumInto tools o.vacuumOk db none with
  | none => none
  | some copy => readFileAlloc o.readOk (some (if o.opened then tools.dropIndexes copy else copy))

end Strip

inductive Quality where
  | fast
  | best
deriving DecidableEq

def Quality.level : Quality → Int
  | .fast => 3
  | .best => 9

/-- The two files in `.codebase-memory`. -/
structure Repo where
  artifact : Option CStr
  metadata : Option CStr

/-- What happens in one run of `cbm_artifact_export`; the text of the metadata is
missing when yyjson cannot write it. -/
structure ExportOutcome where
  readOk : Bool
  strip : StripOutcome
  mallocOk : Bool
  artifact : WriteOutcome
  metadataText : (originalSize compressedSize : Nat) → (compressionLevel : Int) → Option CStr
  metadata : WriteOutcome

section Export

variable (tools : Tools)

/-- The data that is read for compression. -/
def exportData (o : ExportOutcome) (db : Option CStr) : Quality → Option CStr
  | .fast => readFileAlloc o.readOk db
  | .best => prepareStrippedDb tools o.strip db

def writeMetadata (o : ExportOutcome) (old : Option CStr) (originalSize compressedSize : Nat)
    (level : Int) : Option CStr × Int :=
  match o.metadataText originalSize compressedSize level with
  | none => (old, -1)
  | some json => writeFileAtomic o.metadata old json

/-- `cbm_artifact_export` from the data to the compressed bytes. -/
def compressData (o : ExportOutcome) (quality : Quality) (dbData : CStr) : Option CStr :=
  let bound := cbmZstdCompressBound (toI32 dbData.length)
  if !o.mallocOk then none
  else
    let (clen, compressed) := cbmZstdCompress tools dbData (toI32 dbData.length) (toI32 bound)
      quality.level
    if clen ≤ 0 then none else some (compressed.take (toSizeT clen))

/-- `cbm_artifact_export`; the result of `write_metadata` is not looked at. -/
def cbmArtifactExport (o : ExportOutcome) (db : Option CStr) (quality : Quality) (repo : Repo) :
    Repo × Int :=
  match exportData tools o db quality with
  | none => (repo, -1)
  | some dbData =>
      match compressData tools o quality dbData with
      | none => (repo, -1)
      | some compressed =>
          let (artifact, wrc) := writeFileAtomic o.artifact repo.artifact compressed
          if wrc ≠ 0 then (⟨artifact, repo.metadata⟩, -1)
          else
            let (metadata, _) := writeMetadata o repo.metadata dbData.length compressed.length
              quality.level
            (⟨artifact, metadata⟩, 0)

end Export

/-- What happens in one run of `cbm_artifact_import`. -/
structure ImportOutcome where
  metadataOk : Bool
  sizeOk : Bool
  artifactOk : Bool
  mallocOk : Bool
  write : WriteOutcome
  renamed : Bool

/-- The result of an import: the file that is opened as a store, the database in
the cache, and the code. -/
structure Imported where
  written : Option CStr
  cache : Option CStr
  rc : Int

section Import

variable (tools : Tools)

/-- `cbm_artifact_import`, up to the decompressed data. -/
def readArtifact (o : ImportOutcome) (repo : Repo) : Option CStr :=
  match readFileAlloc o.metadataOk repo.metadata with
  | none => none
  | some json =>
      if tools.metadataVersion json < 0 ∨ tools.metadataVersion json > 1 then none
      else match readFileAlloc o.sizeOk repo.metadata with
        | none => none
        | some json =>
            if tools.metadataOriginalSize json = 0 then none
            else match readFileAlloc o.artifactOk repo.artifact with
              | none => none
              | some compressed =>
                  if !o.mallocOk then none
                  else
                    let (dlen, decompressed) := cbmZstdDecompress tools compressed
                      (toI32 compressed.length) (toI32 (tools.metadataOriginalSize json))
                    if dlen ≤ 0 then none else some (decompressed.take (toSizeT dlen))

/-- `cbm_artifact_import`, from the decompressed data on. -/
def installStore (o : ImportOutcome) (data : CStr) (cache : Option CStr) : Imported :=
  let (temp, wrc) := writeFileAtomic o.write none data
  if wrc ≠ 0 then ⟨none, cache, -1⟩
  else match temp.bind tools.openStore with
    | none => ⟨temp, cache, -1⟩
    | some store =>
        if !tools.checkIntegrity store then ⟨temp, cache, -1⟩
        else if !o.renamed then ⟨temp, cache, -1⟩
        else ⟨temp, some store, 0⟩

def cbmArtifactImport (o : ImportOutcome) (repo : Repo) (cache : Option CStr) : Imported :=
  match readArtifact tools o repo with
  | none => ⟨none, cache, -1⟩
  | some data => installStore tools o data cache

end Import

end Artifact
end CodebaseMemory
