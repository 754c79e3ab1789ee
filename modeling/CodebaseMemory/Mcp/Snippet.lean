import CodebaseMemory.Sqlite.Record
import Mathlib.Data.List.TakeWhile

/-!
# Code snippets (`src/mcp/mcp.c`)

`read_file_lines` reads a file with `fgets` into a buffer of 2048 bytes and counts each read as
a line.
-/

namespace CodebaseMemory
namespace Mcp

open Sqlite (CStr bytesOf)

section Snippet

/-- `CBM_SZ_2K` -/
def lineSize : Nat := 2048

/-- `fgets` into a buffer with room for `n` bytes: what is read, and the rest of the file. -/
def fgets : Nat → CStr → CStr × CStr
  | 0, file => ([], file)
  | _ + 1, [] => ([], [])
  | n + 1, c :: file =>
      if c = 10 then ([c], file) else (c :: (fgets n file).1, (fgets n file).2)

theorem fgets_append (n : Nat) (file : CStr) : (fgets n file).1 ++ (fgets n file).2 = file := by
  induction n generalizing file with
  | zero => rfl
  | succ n ih =>
      cases file with
      | nil => rfl
      | cons c file =>
          rw [fgets]
          split
          · rfl
          · rw [List.cons_append, ih file]

theorem length_fgets_le (n : Nat) (file : CStr) : (fgets n file).1.length ≤ n := by
  induction n generalizing file with
  | zero => exact le_refl _
  | succ n ih =>
      cases file with
      | nil => exact Nat.zero_le _
      | cons c file =>
          rw [fgets]
          split
          · exact Nat.succ_le_succ (Nat.zero_le n)
          · exact Nat.succ_le_succ (ih file)

variable {file line : CStr}

theorem length_rest_lt (n : Nat) (hne : file ≠ []) :
    (fgets (n + 1) file).2.length < file.length := by
  obtain ⟨c, file, rfl⟩ := List.exists_cons_of_ne_nil hne
  have happend := congrArg List.length (fgets_append n file)
  rw [List.length_append] at happend
  rw [fgets]
  split
  · exact Nat.lt_succ_self _
  · rw [List.length_cons]
    dsimp only
    omega

/-- The loop of `read_file_lines`; `strlen` ends at a zero byte. -/
def readLoop (start stop : Nat) (file : CStr) (lineno : Nat) (buf : CStr) : CStr :=
  if _h : file = [] then buf
  else
    let line := (fgets (lineSize - 1) file).1
    let file := (fgets (lineSize - 1) file).2
    if lineno + 1 < start then readLoop start stop file (lineno + 1) buf
    else if stop < lineno + 1 then buf
    else readLoop start stop file (lineno + 1) (buf ++ line.takeWhile (· != 0))
termination_by file.length
decreasing_by
  all_goals exact length_rest_lt _ _h

/-- `read_file_lines`; a file of `none` cannot be opened. -/
def readFileLines (file : Option CStr) (start stop : Nat) : Option CStr :=
  match file with
  | none => none
  | some file =>
      let buf := readLoop start stop file 0 []
      if buf = [] then none else some buf

def fileLines : CStr → List CStr
  | [] => []
  | c :: rest =>
      if c = 10 then [c] :: fileLines rest
      else
        match fileLines rest with
        | [] => [[c]]
        | line :: lines => (c :: line) :: lines

/-- What the calls of `fgets` read. -/
def reads (file : CStr) : List CStr :=
  if _h : file = [] then []
  else (fgets (lineSize - 1) file).1 :: reads (fgets (lineSize - 1) file).2
termination_by file.length
decreasing_by exact length_rest_lt _ _h

/-- The texts with the numbers from `start` to `stop`, counted from 1. -/
def segment (texts : List CStr) (start stop : Nat) : CStr :=
  ((texts.take stop).drop (start - 1)).flatten

/-- The lines with these numbers, or nothing. -/
def snippet (file : CStr) (start stop : Nat) : Option CStr :=
  if segment (fileLines file) start stop = [] then none
  else some (segment (fileLines file) start stop)

def RightSnippets (file : CStr) (stop : Nat) : Prop :=
  ∀ start, 1 ≤ start → start ≤ stop →
    readFileLines (some file) start stop = snippet file start stop

theorem readLoop_eq (hzero : 0 ∉ file) (start stop lineno : Nat) (buf : CStr) :
    readLoop start stop file lineno buf =
      buf ++ (((reads file).take (stop - lineno)).drop (start - 1 - lineno)).flatten := by
  induction hlen : file.length using Nat.strongRecOn generalizing file lineno buf with
  | ind n ih =>
      rw [readLoop, reads]
      split
      · simp
      · next hne =>
          have happend := fgets_append (lineSize - 1) file
          have hline : (fgets (lineSize - 1) file).1.takeWhile (· != 0) =
              (fgets (lineSize - 1) file).1 := by
            refine List.takeWhile_eq_self_iff.mpr fun c hc => bne_iff_ne.mpr ?_
            rintro rfl
            exact hzero (happend ▸ List.mem_append_left _ hc)
          have hrest : (0 : UInt8) ∉ (fgets (lineSize - 1) file).2 := fun h =>
            hzero (happend ▸ List.mem_append_right _ h)
          have hlt := length_rest_lt (lineSize - 2) hne
          rw [hlen] at hlt
          have ih' := fun l b => ih _ hlt hrest l b rfl
          dsimp only
          rw [hline]
          generalize (fgets (lineSize - 1) file).1 = line
          by_cases hskip : lineno + 1 < start
          · rw [if_pos hskip, ih']
            generalize reads (fgets (lineSize - 1) file).2 = rest
            by_cases hstop : stop ≤ lineno
            · have h₁ : stop - lineno = 0 := by omega
              have h₂ : stop - (lineno + 1) = 0 := by omega
              rw [h₁, h₂, List.take_zero, List.take_zero, List.drop_nil, List.drop_nil]
            · obtain ⟨m, rfl⟩ : ∃ m, stop = lineno + 1 + m := ⟨stop - (lineno + 1), by omega⟩
              obtain ⟨k, rfl⟩ : ∃ k, start = lineno + 2 + k := ⟨start - (lineno + 2), by omega⟩
              have h₁ : lineno + 1 + m - lineno = m + 1 := by omega
              have h₂ : lineno + 2 + k - 1 - lineno = k + 1 := by omega
              have h₃ : lineno + 2 + k - 1 - (lineno + 1) = k := by omega
              rw [h₁, h₂, h₃, Nat.add_sub_cancel_left, List.take_succ_cons, List.drop_succ_cons]
          · have h₁ : start - 1 - lineno = 0 := by omega
            have h₂ : start - 1 - (lineno + 1) = 0 := by omega
            rw [if_neg hskip]
            by_cases hstop : stop < lineno + 1
            · have h₃ : stop - lineno = 0 := by omega
              rw [if_pos hstop, h₃, List.take_zero, List.drop_nil, List.flatten_nil,
                List.append_nil]
            · obtain ⟨m, rfl⟩ : ∃ m, stop = lineno + 1 + m := ⟨stop - (lineno + 1), by omega⟩
              have h₃ : lineno + 1 + m - lineno = m + 1 := by omega
              rw [if_neg hstop, ih', h₁, h₂, h₃, Nat.add_sub_cancel_left, List.take_succ_cons,
                List.drop_zero, List.drop_zero, List.flatten_cons, List.append_assoc]

theorem readFileLines_eq (hzero : 0 ∉ file) (start stop : Nat) :
    readFileLines (some file) start stop =
      if segment (reads file) start stop = [] then none
      else some (segment (reads file) start stop) := by
  rw [readFileLines, readLoop_eq hzero, List.nil_append, Nat.sub_zero, Nat.sub_zero]
  rfl

theorem fileLines_ne_nil (hne : file ≠ []) : fileLines file ≠ [] := by
  obtain ⟨c, file, rfl⟩ := List.exists_cons_of_ne_nil hne
  rw [fileLines]
  split
  · exact List.cons_ne_nil _ _
  · split
    · exact List.cons_ne_nil _ _
    · exact List.cons_ne_nil _ _

theorem fileLines_nonempty (hline : line ∈ fileLines file) : line ≠ [] := by
  induction file generalizing line with
  | nil => exact absurd hline List.not_mem_nil
  | cons c file ih =>
      rw [fileLines] at hline
      split at hline
      · rcases List.mem_cons.mp hline with rfl | hline
        · exact List.cons_ne_nil _ _
        · exact ih hline
      · split at hline
        · rw [List.mem_singleton.mp hline]
          exact List.cons_ne_nil _ _
        · next l ls hls =>
            rcases List.mem_cons.mp hline with rfl | hline
            · exact List.cons_ne_nil _ _
            · exact ih (hls ▸ List.mem_cons_of_mem _ hline)

theorem fgets_line {n : Nat} {lines : List CStr} (hlines : fileLines file = line :: lines)
    (hfits : line.length ≤ n) : (fgets n file).1 = line ∧ fileLines (fgets n file).2 = lines := by
  induction n generalizing file line lines with
  | zero =>
      have hne := fileLines_nonempty (hlines ▸ List.mem_cons_self)
      exact absurd (List.length_eq_zero_iff.mp (Nat.le_zero.mp hfits)) hne
  | succ n ih =>
      cases file with
      | nil => exact absurd hlines (by simp [fileLines])
      | cons c file =>
          rw [fileLines] at hlines
          rw [fgets]
          by_cases hc : c = 10
          · rw [if_pos hc] at hlines ⊢
            obtain ⟨rfl, rfl⟩ := List.cons.inj hlines
            exact ⟨rfl, rfl⟩
          · rw [if_neg hc] at hlines ⊢
            cases hrest : fileLines file with
            | nil =>
                have hnil : file = [] := by
                  by_contra hne
                  exact fileLines_ne_nil hne hrest
                rw [hrest] at hlines
                obtain ⟨rfl, rfl⟩ := List.cons.inj hlines
                rw [hnil]
                cases n with
                | zero => exact ⟨rfl, rfl⟩
                | succ n => exact ⟨rfl, rfl⟩
            | cons l ls =>
                rw [hrest] at hlines
                obtain ⟨rfl, rfl⟩ := List.cons.inj hlines
                rw [List.length_cons] at hfits
                obtain ⟨hread, hnext⟩ := ih hrest (by omega)
                dsimp only
                exact ⟨by rw [hread], hnext⟩

theorem take_reads {k : Nat}
    (hfits : ∀ line ∈ (fileLines file).take k, line.length ≤ lineSize - 1) :
    (reads file).take k = (fileLines file).take k := by
  induction k generalizing file with
  | zero => rw [List.take_zero, List.take_zero]
  | succ k ih =>
      rw [reads]
      split
      · next hnil => rw [hnil]; rfl
      · next hne =>
          obtain ⟨line, lines, hlines⟩ := List.exists_cons_of_ne_nil (fileLines_ne_nil hne)
          rw [hlines, List.take_succ_cons] at hfits
          obtain ⟨hread, hnext⟩ := fgets_line hlines (hfits line List.mem_cons_self)
          rw [List.take_succ_cons, hread, hlines, List.take_succ_cons, ih, hnext]
          intro l hl
          rw [hnext] at hl
          exact hfits l (List.mem_cons_of_mem _ hl)

theorem length_reads_le {read : CStr} (h : read ∈ reads file) : read.length ≤ lineSize - 1 := by
  induction hlen : file.length using Nat.strongRecOn generalizing file with
  | ind n ih =>
      rw [reads] at h
      split at h
      · exact absurd h List.not_mem_nil
      · next hne =>
          have hlt := length_rest_lt (lineSize - 2) hne
          rw [hlen] at hlt
          rcases List.mem_cons.mp h with rfl | h
          · exact length_fgets_le _ _
          · exact ih _ hlt h rfl

theorem segment_succ (texts : List CStr) {k stop : Nat} (h : k < stop) :
    segment texts (k + 1) stop = texts.getD k [] ++ segment texts (k + 2) stop := by
  rw [segment, segment, Nat.add_sub_cancel, show k + 2 - 1 = k + 1 by omega]
  by_cases hk : k < texts.length
  · have htake : k < (texts.take stop).length := by
      rw [List.length_take]
      omega
    rw [List.drop_eq_getElem_cons htake, List.flatten_cons, List.getElem_take,
      List.getD_eq_getElem _ _ hk]
  · rw [List.drop_of_length_le, List.drop_of_length_le, List.getD_eq_default _ _ (not_lt.mp hk)]
    · rfl
    · rw [List.length_take]
      omega
    · rw [List.length_take]
      omega

/-- The snippets up to a line are the right ones exactly if each line up to there fits. -/
theorem snippets_iff {file : CStr} (hzero : 0 ∉ file) (stop : Nat) :
    RightSnippets file stop ↔
      ∀ line ∈ (fileLines file).take stop, line.length ≤ lineSize - 1 := by
  constructor
  · intro hright
    have hsegment : ∀ start, 1 ≤ start → segment (reads file) start stop =
        segment (fileLines file) start stop := by
      intro start hstart
      by_cases hle : start ≤ stop
      · have h := hright start hstart hle
        rw [readFileLines_eq hzero, snippet] at h
        split at h
        · next hnil =>
            split at h
            · next hnil' => rw [hnil, hnil']
            · exact absurd h (by simp)
        · split at h
          · exact absurd h (by simp)
          · exact Option.some.inj h
      · rw [segment, segment, List.drop_of_length_le, List.drop_of_length_le]
        · rw [List.length_take]
          omega
        · rw [List.length_take]
          omega
    intro line hline
    obtain ⟨k, hk, rfl⟩ := List.mem_iff_getElem.mp hline
    rw [List.length_take] at hk
    -- the line is as long as the read with its number
    have hlen : ((reads file).getD k []).length = ((fileLines file).getD k []).length := by
      have h₁ := congrArg List.length (hsegment (k + 1) (by omega))
      have h₂ := congrArg List.length (hsegment (k + 2) (by omega))
      have hstop : k < stop := by omega
      rw [segment_succ (reads file) hstop, segment_succ (fileLines file) hstop,
        List.length_append, List.length_append] at h₁
      omega
    rw [List.getElem_take, ← List.getD_eq_getElem _ [] (by omega), ← hlen]
    by_cases hread : k < (reads file).length
    · rw [List.getD_eq_getElem _ _ hread]
      exact length_reads_le (List.getElem_mem hread)
    · rw [List.getD_eq_default _ _ (not_lt.mp hread)]
      exact Nat.zero_le _
  · intro hfits start hstart hle
    rw [readFileLines_eq hzero, snippet, segment, segment, take_reads hfits]

/-- Two lines. -/
theorem snippets_two : RightSnippets (bytesOf "ab\ncd\n") 2 :=
  (snippets_iff (by decide) 2).mpr (by decide)

theorem fgets_replicate {c : UInt8} (hc : c ≠ 10) (n : Nat) (rest : CStr) :
    fgets n (List.replicate n c ++ rest) = (List.replicate n c, rest) := by
  induction n with
  | zero => rfl
  | succ n ih => rw [List.replicate_succ, List.cons_append, fgets, if_neg hc, ih]

theorem fileLines_append (hline : 10 ∉ line) (rest : CStr) :
    fileLines (line ++ 10 :: rest) = (line ++ [10]) :: fileLines rest := by
  induction line with
  | nil => rfl
  | cons c line ih =>
      rw [List.mem_cons, not_or] at hline
      rw [List.cons_append, fileLines, if_neg (Ne.symm hline.1), ih hline.2]
      rfl

/-- A file whose first line has 2048 characters. -/
def longFile : CStr := List.replicate 2047 97 ++ bytesOf "a\nb\n"

/-- The second read is the end of the first line. -/
theorem not_snippets_long : 0 ∉ longFile ∧ ¬ RightSnippets longFile 2 := by
  have hzero : 0 ∉ longFile := by
    rw [longFile, List.mem_append, List.mem_replicate, not_or]
    exact ⟨fun h => absurd h.2 (by decide), by decide⟩
  refine ⟨hzero, fun hright => ?_⟩
  have hfirst : fgets (lineSize - 1) longFile = (List.replicate 2047 97, bytesOf "a\nb\n") :=
    fgets_replicate (by decide) 2047 (bytesOf "a\nb\n")
  have hreads : segment (reads longFile) 2 2 = bytesOf "a\n" := by
    have hne : longFile ≠ [] := List.append_ne_nil_of_right_ne_nil _ (by decide)
    rw [reads, dif_neg hne, hfirst, reads, dif_neg (by decide)]
    rfl
  have hlines : segment (fileLines longFile) 2 2 = bytesOf "b\n" := by
    have hsplit : longFile = (List.replicate 2047 97 ++ [97]) ++ 10 :: bytesOf "b\n" := by
      rw [longFile, List.append_assoc]
      rfl
    rw [hsplit, fileLines_append]
    · rfl
    · rw [List.mem_append, List.mem_replicate, not_or]
      exact ⟨fun h => absurd h.2 (by decide), by decide⟩
  have h := hright 2 (by decide) (le_refl 2)
  rw [readFileLines_eq hzero, snippet, hreads, hlines] at h
  exact absurd h (by decide)

end Snippet

end Mcp
end CodebaseMemory
