import CodebaseMemory.Sqlite.Layout

/-!
# Overflow chains

`write_overflow_pages` writes each page of a chain with the pointer 0 and
patches the pointer when the next page is written.  `writeOverflowLoop_spec`
is the invariant of that loop; from it, payloads that were split between a
cell and a chain are read back (`readPayload_spilled`), and so the cells of
both kinds of tree are read as what they were built from.
-/

namespace CodebaseMemory
namespace Sqlite

open Lib

/-- Overflow pages for `n` bytes. -/
def chunkCount (n : Nat) : Nat :=
  (n + 65531) / 65532

theorem holds_bufferOf (bs : List UInt8) : (bufferOf bs).Holds 0 bs := by
  apply List.ext_getElem
  · simp
  · intro i _ hi
    simp [Memory.bytes, bufferOf, hi]

theorem holds_overflowPage (chunk : List UInt8) :
    (overflowPage chunk).Holds 4 chunk :=
  Memory.holds_memcpy _ _ _

theorem agree_patchNextPointer (f : File) {n off : Nat} (pnum : Nat)
    (h : (n - 1) * 65536 ≤ off) : Agree n f (patchNextPointer f (some off) pnum) := by
  intro pos _ hpos
  exact f.read_fwrite_outside _ _ _ _ (by omega)

theorem writeOverflowLoop_spec :
    ∀ (fuel : Nat) (f : File) (next : Nat) (prev : Option Nat) (data : List UInt8),
      data.length ≤ fuel → 2 ≤ next → data ≠ [] →
      (writeOverflowLoop fuel f next prev data).2 = next + chunkCount data.length ∧
      Agree next (patchNextPointer f prev next) (writeOverflowLoop fuel f next prev data).1 ∧
      ((writeOverflowLoop fuel f next prev data).2 ≤ 2 ^ 32 →
        ∀ g, Agree (writeOverflowLoop fuel f next prev data).2
            (writeOverflowLoop fuel f next prev data).1 g →
          ∀ fuel', data.length ≤ fuel' →
            readOverflow g fuel' next data.length = some data) := by
  intro fuel
  induction fuel with
  | zero =>
      intro f next prev data hfuel _ hne
      exact absurd (List.length_eq_zero_iff.mp (by omega)) hne
  | succ fuel ih =>
      intro f next prev data hfuel hnext hne
      have hpos : 0 < data.length := List.length_pos_iff.mpr hne
      obtain ⟨k, hk⟩ : ∃ k, data.length = k + 1 := ⟨data.length - 1, by omega⟩
      have hrest : (data.drop 65532).length = data.length - 65532 := by simp
      -- the page as written, before its pointer is patched
      let f₂ := (patchNextPointer f prev next).writePage .overflow next
        (overflowPage (data.take 65532))
      have hf₂ : Agree next (patchNextPointer f prev next) f₂ :=
        agree_writePage _ _ _ le_rfl
      have hstep : writeOverflowLoop (fuel + 1) f next prev data =
          writeOverflowLoop fuel f₂ (next + 1) (some ((next - 1) * 65536))
            (data.drop 65532) := by
        rw [writeOverflowLoop, if_neg hne]
      rw [hstep]
      by_cases hlast : data.drop 65532 = []
      · -- the last page keeps the pointer 0
        have hdone : writeOverflowLoop fuel f₂ (next + 1) (some ((next - 1) * 65536))
            (data.drop 65532) = (f₂, next + 1) := by
          rw [hlast]
          cases fuel <;> simp [writeOverflowLoop]
        have hle : data.length ≤ 65532 := by
          have := congrArg List.length hlast
          simp at this
          omega
        rw [hdone]
        refine ⟨?_, hf₂, ?_⟩
        · simp only [chunkCount]
          omega
        · intro _ g hg fuel' hfuel'
          obtain ⟨fuel', rfl⟩ : ∃ m, fuel' = m + 1 := ⟨fuel' - 1, by omega⟩
          have hpage := page_of_agree hnext hg
          have hdata : (g.page next).bytes 4 data.length = data := by
            have hh : (g.page next).Holds 4 (data.take 65532) :=
              (holds_overflowPage (data.take 65532)).congr
                (fun i hi => hpage _ (by simp at hi; omega))
            rw [List.take_of_length_le hle] at hh
            exact hh
          rw [hk] at hdata ⊢
          have hmin : min (k + 1) 65532 = k + 1 := Nat.min_eq_left (by omega)
          rw [readOverflow, if_neg (by omega)]
          simp [hmin, hdata, readOverflow]
      · obtain ⟨hcount, hagree, hread⟩ := ih f₂ (next + 1) (some ((next - 1) * 65536))
          (data.drop 65532) (by omega) (by omega) hlast
        have hlt : 65532 < data.length := by
          have := List.length_pos_iff.mpr hlast
          omega
        refine ⟨?_, ?_, ?_⟩
        · rw [hcount, hrest]
          simp only [chunkCount]
          omega
        · exact (hf₂.trans (agree_patchNextPointer f₂ (next + 1) le_rfl)).trans
            (hagree.mono (by omega))
        · intro hbound g hg fuel' hfuel'
          obtain ⟨fuel', rfl⟩ : ∃ m, fuel' = m + 1 := ⟨fuel' - 1, by omega⟩
          rw [hcount, hrest] at hbound
          have hchunks : 1 ≤ chunkCount (data.length - 65532) := by
            simp only [chunkCount]
            omega
          have hgp : Agree (next + 1)
              (patchNextPointer f₂ (some ((next - 1) * 65536)) (next + 1)) g :=
            hagree.trans (hg.mono (by rw [hcount]; omega))
          -- pointer and data of the first page, as every later reader sees them
          have hptr : (g.page next).Holds 0 (bigEndian 4 (next + 1)) := by
            apply (holds_bufferOf (bigEndian 4 (next + 1))).congr
            intro i hi
            rw [length_bigEndian] at hi
            rw [hgp.page_eq hnext (by omega) (by omega), Nat.zero_add]
            exact f₂.read_fwrite_inside .nextPointer ((next - 1) * 65536) 4 _ hi
          have hdata : (g.page next).Holds 4 (data.take 65532) := by
            apply (holds_overflowPage (data.take 65532)).congr
            intro i hi
            have hi' : i < 65532 := by
              simp at hi
              omega
            rw [hgp.page_eq hnext (by omega) (by omega)]
            have houter : (patchNextPointer f₂ (some ((next - 1) * 65536)) (next + 1)).page
                next (4 + i) = f₂.page next (4 + i) :=
              f₂.read_fwrite_outside _ _ _ _ (by omega)
            rw [houter]
            exact File.page_writePage _ _ _ _ (by omega)
          have hchunk : (g.page next).bytes 4 65532 = data.take 65532 := by
            have hlen : (data.take 65532).length = 65532 := by
              rw [List.length_take]
              omega
            have := hdata
            rw [Memory.Holds, hlen] at this
            exact this
          have hnextptr : (g.page next).getBe 0 4 = next + 1 := hptr.getBe_eq (by omega)
          have htail := hread (by rw [hcount, hrest]; exact hbound) g hg fuel'
            (by rw [hrest]; omega)
          rw [hrest] at htail
          have hmin : min (k + 1) 65532 = 65532 := Nat.min_eq_right (by omega)
          rw [hk] at htail ⊢
          rw [readOverflow, if_neg (by omega)]
          simp only [hmin, hchunk, hnextptr, htail, Option.map_some, List.take_append_drop]

theorem le_writeOverflowLoop :
    ∀ (fuel : Nat) (f : File) (next : Nat) (prev : Option Nat) (data : List UInt8),
      next ≤ (writeOverflowLoop fuel f next prev data).2 := by
  intro fuel
  induction fuel with
  | zero =>
      intro f next prev data
      exact le_rfl
  | succ fuel ih =>
      intro f next prev data
      unfold writeOverflowLoop
      split
      · exact le_rfl
      · exact le_trans (Nat.le_succ next) (ih _ _ _ _)

theorem le_writeOverflowPages (f : File) (next : Nat) (data : List UInt8) :
    next ≤ (writeOverflowPages f next data).2.1 :=
  le_writeOverflowLoop _ _ _ _ _

theorem writeOverflowPages_spec (f : File) {next : Nat} {data : List UInt8}
    (hnext : 2 ≤ next) (hne : data ≠ []) :
    (writeOverflowPages f next data).2.2 = next ∧
    (writeOverflowPages f next data).2.1 = next + chunkCount data.length ∧
    Agree next f (writeOverflowPages f next data).1 ∧
    ((writeOverflowPages f next data).2.1 ≤ 2 ^ 32 →
      ∀ g, Agree (writeOverflowPages f next data).2.1 (writeOverflowPages f next data).1 g →
        ∀ fuel, data.length ≤ fuel → readOverflow g fuel next data.length = some data) := by
  obtain ⟨hcount, hagree, hread⟩ := writeOverflowLoop_spec data.length
    { f with spills := (next, data.length) :: f.spills } next none data le_rfl hnext hne
  refine ⟨if_neg hne, hcount, ?_, hread⟩
  exact hagree

theorem localSize_eq_spillLocal {maxLocal plen : Nat} (h : maxLocal < plen) :
    localSize maxLocal plen = spillLocal maxLocal plen := by
  have hmin : minLocal = 8199 := by decide
  simp only [localSize, spillLocal, hmin, if_neg (Nat.not_le.mpr h)]

theorem spillLocal_le {maxLocal : Nat} (plen : Nat) (h : 8199 ≤ maxLocal) :
    spillLocal maxLocal plen ≤ maxLocal := by
  simp only [spillLocal]
  split <;> omega

theorem readPayload_inline {g : File} {maxLocal : Nat} {mem : Memory} {payload : List UInt8}
    (hlen : payload.length ≤ maxLocal) (hmem : mem.Holds 0 payload) :
    readPayload g maxLocal mem payload.length = some payload := by
  rw [readPayload, if_pos hlen]
  exact congrArg some hmem

theorem readPayload_spilled {f g : File} {next maxLocal loc : Nat} {mem : Memory}
    {payload : List UInt8} (hnext : 2 ≤ next) (hmax : 8199 ≤ maxLocal)
    (hlen : maxLocal < payload.length) (hloc : loc = spillLocal maxLocal payload.length)
    (hbound : (writeOverflowPages f next (payload.drop loc)).2.1 ≤ 2 ^ 32)
    (hg : Agree (writeOverflowPages f next (payload.drop loc)).2.1
      (writeOverflowPages f next (payload.drop loc)).1 g)
    (hmem : mem.Holds 0 (payload.take loc ++ bigEndian 4 next)) :
    readPayload g maxLocal mem payload.length = some payload := by
  have hlocle : loc ≤ maxLocal := hloc ▸ spillLocal_le payload.length hmax
  have hdrop : (payload.drop loc).length = payload.length - loc := by simp
  have hne : payload.drop loc ≠ [] := by
    rw [← List.length_pos_iff, hdrop]
    omega
  obtain ⟨-, hcount, -, hread⟩ := writeOverflowPages_spec f hnext hne
  have hchunks : 1 ≤ chunkCount (payload.drop loc).length := by
    simp only [chunkCount, hdrop]
    omega
  have htake : (payload.take loc).length = loc := by
    rw [List.length_take]
    omega
  have hlocal : mem.bytes 0 loc = payload.take loc := by
    have := hmem.left
    rwa [Memory.Holds, htake] at this
  have hptr : mem.getBe loc 4 = next := by
    apply Memory.Holds.getBe_eq _ (by omega)
    have := hmem.right
    rwa [htake, Nat.zero_add] at this
  have htail := hread hbound g hg payload.length (by omega)
  rw [hdrop] at htail
  rw [readPayload, if_neg (by omega)]
  simp only [localSize_eq_spillLocal hlen, ← hloc, hlocal, hptr, htail, Option.map_some,
    List.take_append_drop]

end Sqlite
end CodebaseMemory
