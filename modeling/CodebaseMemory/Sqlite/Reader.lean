import CodebaseMemory.Lib.BTree
import CodebaseMemory.Sqlite.File
import CodebaseMemory.Sqlite.Varint

/-!
# Reading a database file by the SQLite file format

What a reader of the format does with the pages: B-tree page headers and cell
pointers, payloads with their overflow chains, the in-order traversal of an
index tree, the scan of a table tree and the search for a rowid in it.  Nothing
here is translated from the writer; the thresholds are the formulas of the
format for a page of `U = 65536` usable bytes.

The reader accepts an interior page without cells and follows its right child.
-/

namespace CodebaseMemory
namespace Sqlite

open Lib

/-- Most payload bytes a table leaf cell keeps: `U - 35`. -/
def tableMaxLocal : Nat :=
  65536 - 35

/-- Most payload bytes an index cell keeps: `((U - 12) * 64 / 255) - 23`. -/
def indexMaxLocal : Nat :=
  (65536 - 12) * 64 / 255 - 23

/-- Fewest payload bytes a spilling cell keeps: `((U - 12) * 32 / 255) - 23`. -/
def minLocal : Nat :=
  (65536 - 12) * 32 / 255 - 23

/-- Payload bytes in the cell for a payload of `plen` bytes. -/
def localSize (maxLocal plen : Nat) : Nat :=
  if plen ≤ maxLocal then plen
  else
    let k := minLocal + (plen - minLocal) % (65536 - 4)
    if k ≤ maxLocal then k else minLocal

/-- `n` bytes from the chain of overflow pages that starts at `pgno`. -/
def readOverflow (f : File) : Nat → Nat → Nat → Option (List UInt8)
  | _, _, 0 => some []
  | 0, _, _ + 1 => none
  | fuel + 1, pgno, n + 1 =>
      if pgno = 0 then none
      else
        let page := f.page pgno
        let m := min (n + 1) 65532
        (readOverflow f fuel (page.getBe 0 4) (n + 1 - m)).map (page.bytes 4 m ++ ·)

/-- A payload of `plen` bytes whose cell bytes start at `mem`. -/
def readPayload (f : File) (maxLocal : Nat) (mem : Memory) (plen : Nat) :
    Option (List UInt8) :=
  if plen ≤ maxLocal then some (mem.bytes 0 plen)
  else
    let loc := localSize maxLocal plen
    (readOverflow f plen (mem.getBe loc 4) (plen - loc)).map (mem.bytes 0 loc ++ ·)

/-- The two cell layouts of a kind of B-tree. -/
structure Format (α κ : Type) where
  leafFlag : UInt8
  interiorFlag : UInt8
  leafCell : File → Memory → α
  interiorCell : File → Memory → Nat × κ

def indexLeafCell (f : File) (mem : Memory) : Option (List UInt8) :=
  let (plen, n) := getVarint mem
  readPayload f indexMaxLocal (mem.shift n) plen

/-- Index B-trees: an interior cell is a child and a leaf cell. -/
def indexFormat : Format (Option (List UInt8)) (Option (List UInt8)) where
  leafFlag := 0x0A
  interiorFlag := 0x02
  leafCell := indexLeafCell
  interiorCell f mem := (mem.getBe 0 4, indexLeafCell f (mem.shift 4))

/-- A leaf cell of a table: payload length, rowid, payload. -/
def tableLeafCell (f : File) (mem : Memory) : Int × Option (List UInt8) :=
  let (plen, n) := getVarint mem
  let (rowid, m) := getVarint (mem.shift n)
  (toI64 rowid, readPayload f tableMaxLocal (mem.shift (n + m)) plen)

/-- Table B-trees: an interior cell is a child and a rowid. -/
def tableFormat : Format (Int × Option (List UInt8)) Int where
  leafFlag := 0x0D
  interiorFlag := 0x05
  leafCell := tableLeafCell
  interiorCell _ mem := (mem.getBe 0 4, toI64 (getVarint (mem.shift 4)).1)

/-- Where the B-tree header of a page starts. -/
def headerOffset (pgno : Nat) : Nat :=
  if pgno = 1 then 100 else 0

/-- The cells of a page: `count` pointers from offset `ptr` on. -/
def pageCells {β : Type} (page : Memory) (ptr count : Nat) (cell : Memory → β) : List β :=
  (List.range count).map (fun i => cell (page.shift (page.getBe (ptr + 2 * i) 2)))

/-- Page `pgno` as a B-tree page. -/
def Format.view {α κ : Type} (F : Format α κ) (f : File) (pgno : Nat) :
    Option (Node α κ) :=
  let page := f.page pgno
  let hdr := headerOffset pgno
  let count := page.getBe (hdr + 3) 2
  if pgno = 0 then none
  else if page hdr = F.leafFlag then
    some (.leaf (pageCells page (hdr + 8) count (F.leafCell f)))
  else if page hdr = F.interiorFlag then
    some (.interior (pageCells page (hdr + 12) count (F.interiorCell f))
      (page.getBe (hdr + 8) 4))
  else none

/-- In-order traversal of an index tree: the payloads of its cells (`none`
where a payload cannot be reassembled). -/
def walkIndex (f : File) (fuel root : Nat) : Option (List (Option (List UInt8))) :=
  BTree.walk (indexFormat.view f) (fun payload => [payload]) fuel root

/-- In-order scan of a table tree: rowids with their payloads. -/
def scanTable (f : File) (fuel root : Nat) :
    Option (List (Int × Option (List UInt8))) :=
  BTree.walk (tableFormat.view f) (fun _ => []) fuel root

/-- The row with rowid `rowid`: descend to the first key `≥ rowid`. -/
def lookupTable (f : File) (fuel root : Nat) (rowid : Int) :
    Option (Option (Int × Option (List UInt8))) :=
  BTree.descend (tableFormat.view f) (fun k => decide (rowid ≤ k))
    (fun row => row.1 == rowid) fuel root

end Sqlite
end CodebaseMemory
