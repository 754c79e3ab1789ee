import CodebaseMemory.Lib.Memory

/-!
# The database file

`FILE *fp` is modelled by the list of its `fwrite` calls, newest first, each
with the offset the preceding `fseek` chose.  A byte of the file is the one
the newest write over it put there; a byte no write has reached is zero.

Beside its writes a file keeps a record of the calls of
`write_overflow_pages` (page counter on entry, number of bytes to spill).
The code has no such record; no definition of the writer reads it.

`CBM_PAGE_SIZE` is 65536; page numbers start at 1.
-/

namespace CodebaseMemory
namespace Sqlite

open Lib

/-- What an `fwrite` puts into the file. -/
inductive WriteKind where
  /-- a B-tree leaf page -/
  | leaf
  /-- a B-tree interior page -/
  | interior
  /-- an overflow page -/
  | overflow
  /-- the next-page pointer of an overflow page already written -/
  | nextPointer
  /-- page 1: file header and `sqlite_master` -/
  | master
  /-- the byte that extends the file to a page boundary -/
  | padding
deriving DecidableEq, Repr

/-- One `fwrite`: `len` bytes of `data` at `offset`. -/
structure Write where
  kind : WriteKind
  offset : Nat
  len : Nat
  data : Memory

structure File where
  /-- the `fwrite` calls so far, newest first -/
  writes : List Write
  /-- the calls of `write_overflow_pages` so far, newest first -/
  spills : List (Nat × Nat)

/-- The file `fopen(path, "wb")` returns. -/
def File.empty : File :=
  { writes := [], spills := [] }

/-- The byte at `pos` after a list of writes. -/
@[simp] def readWrites : List Write → Nat → UInt8
  | [], _ => 0
  | w :: ws, pos =>
      if w.offset ≤ pos ∧ pos < w.offset + w.len then w.data (pos - w.offset)
      else readWrites ws pos

/-- The byte at `pos`. -/
def File.read (f : File) (pos : Nat) : UInt8 :=
  readWrites f.writes pos

/-- Page `pgno` of the file. -/
def File.page (f : File) (pgno : Nat) : Memory :=
  fun i => f.read ((pgno - 1) * 65536 + i)

/-- `fseek` to `offset`, then `fwrite`. -/
def File.fwrite (f : File) (kind : WriteKind) (offset len : Nat) (data : Memory) : File :=
  { f with writes := ⟨kind, offset, len, data⟩ :: f.writes }

def File.writePage (f : File) (kind : WriteKind) (pgno : Nat) (page : Memory) : File :=
  f.fwrite kind ((pgno - 1) * 65536) 65536 page

/-- The page number a page-sized write went to. -/
def Write.pgno (w : Write) : Nat :=
  w.offset / 65536 + 1

/-- The writes that put B-tree or overflow content on a page of their own. -/
def Write.isContent (w : Write) : Bool :=
  match w.kind with
  | .leaf | .interior | .overflow => true
  | .nextPointer | .master | .padding => false

/-- The numbers of the content pages written so far, newest first. -/
def File.contentPages (f : File) : List Nat :=
  (f.writes.filter Write.isContent).map Write.pgno

/-- `g` has the same bytes as `f` on the pages from 2 on below `n`; page 1 is
written last. -/
def Agree (n : Nat) (f g : File) : Prop :=
  ∀ pos, 65536 ≤ pos → pos < (n - 1) * 65536 → g.read pos = f.read pos

theorem Agree.refl (n : Nat) (f : File) : Agree n f f :=
  fun _ _ _ => rfl

variable {P : Write → Prop}
variable {f g : File}
variable {i n : Nat}

theorem Agree.trans {h : File} (hfg : Agree n f g) (hgh : Agree n g h) : Agree n f h := by
  intro pos hlow hpos
  rw [hgh pos hlow hpos, hfg pos hlow hpos]

theorem Agree.mono {m : Nat} (hmn : m ≤ n) (h : Agree n f g) : Agree m f g := by
  intro pos hlow hpos
  have hle : (m - 1) * 65536 ≤ (n - 1) * 65536 := Nat.mul_le_mul_right _ (by omega)
  exact h pos hlow (lt_of_lt_of_le hpos hle)

theorem Agree.page_eq (h : Agree n f g) {pgno : Nat} (h₀ : 2 ≤ pgno) (hp : pgno < n)
    (hi : i < 65536) : g.page pgno i = f.page pgno i := by
  apply h <;> omega

/-- `g` is `f` after further writes, all of them in `P`. -/
def Extends (P : Write → Prop) (f g : File) : Prop :=
  ∃ new, g.writes = new ++ f.writes ∧ ∀ w, w ∈ new → P w

theorem extends_iff {new : List Write} (h : g.writes = new ++ f.writes) :
    Extends P f g ↔ ∀ w, w ∈ new → P w := by
  constructor
  · rintro ⟨new', hnew', hP⟩
    rw [h] at hnew'
    rw [List.append_cancel_right hnew']
    exact hP
  · exact fun hP => ⟨new, h, hP⟩

theorem Extends.refl (f : File) : Extends P f f :=
  ⟨[], rfl, by simp⟩

theorem Extends.trans {h : File} (hfg : Extends P f g) (hgh : Extends P g h) : Extends P f h := by
  obtain ⟨new, hnew, hP⟩ := hfg
  obtain ⟨new', hnew', hP'⟩ := hgh
  refine ⟨new' ++ new, by rw [hnew', hnew, List.append_assoc], fun w hw => ?_⟩
  rcases List.mem_append.mp hw with hw | hw
  · exact hP' w hw
  · exact hP w hw

theorem Extends.mono {Q : Write → Prop} (hPQ : ∀ w, P w → Q w) (h : Extends P f g) :
    Extends Q f g := by
  obtain ⟨new, hnew, hP⟩ := h
  exact ⟨new, hnew, fun w hw => hPQ w (hP w hw)⟩

theorem extends_fwrite (f : File) {kind : WriteKind} {off len : Nat} {data : Memory}
    (h : P ⟨kind, off, len, data⟩) : Extends P f (f.fwrite kind off len data) :=
  ⟨[⟨kind, off, len, data⟩], rfl, by simpa using h⟩

theorem File.read_fwrite_inside (f : File) (kind : WriteKind) (off len : Nat) (data : Memory)
    (hi : i < len) : (f.fwrite kind off len data).read (off + i) = data i := by
  have hin : off ≤ off + i ∧ off + i < off + len := by omega
  simp only [read, fwrite, readWrites, if_pos hin, Nat.add_sub_cancel_left]

theorem File.read_fwrite_outside (f : File) (kind : WriteKind) (off len : Nat)
    (data : Memory) {pos : Nat} (h : pos < off ∨ off + len ≤ pos) :
    (f.fwrite kind off len data).read pos = f.read pos := by
  have hout : ¬ (off ≤ pos ∧ pos < off + len) := by omega
  simp only [read, fwrite, readWrites, if_neg hout]

theorem File.page_writePage (f : File) (kind : WriteKind) (pgno : Nat) (page : Memory)
    (hi : i < 65536) : (f.writePage kind pgno page).page pgno i = page i :=
  f.read_fwrite_inside kind _ _ page hi

theorem agree_writePage (f : File) (kind : WriteKind) {pgno : Nat} (page : Memory) (h : n ≤ pgno) :
    Agree n f (f.writePage kind pgno page) := by
  intro pos _ hpos
  exact f.read_fwrite_outside kind _ _ page (by omega)

end Sqlite
end CodebaseMemory
