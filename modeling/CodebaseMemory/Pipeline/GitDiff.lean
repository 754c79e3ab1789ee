import CodebaseMemory.Cypher.JsonProp
import CodebaseMemory.Cypher.PatternText
import CodebaseMemory.Lib.Capped
import CodebaseMemory.Lib.Text

/-!
# Reading the output of git diff (`src/pipeline/pass_gitdiff.c`)

`cbm_parse_name_status` and `cbm_parse_hunks`, and the two forms that git prints.

Reading aids:
* A text has no zero byte.
* The loops go from line to line; an empty line is passed over, so that it makes no difference
  whether the output ends with a newline.
* `strstr` looks for the end of a range in all that is left of the output.
-/

namespace CodebaseMemory
namespace Pipeline

open Lib
open Sqlite (CStr bytesOf toI32)
open Cypher (afterFirst strtolInt)

def skippedDirs : List CStr :=
  [bytesOf ".git/", bytesOf "node_modules/", bytesOf "vendor/", bytesOf "__pycache__/",
    bytesOf ".cache/"]

def skippedNames : List CStr :=
  [bytesOf "package-lock.json", bytesOf "yarn.lock", bytesOf "pnpm-lock.yaml",
    bytesOf "Cargo.lock", bytesOf "poetry.lock", bytesOf "composer.lock", bytesOf "Gemfile.lock",
    bytesOf "Pipfile.lock"]

def skippedSuffixes : List CStr :=
  [bytesOf ".lock", bytesOf ".sum", bytesOf ".min.js", bytesOf ".min.css", bytesOf ".map",
    bytesOf ".wasm", bytesOf ".png", bytesOf ".jpg", bytesOf ".gif", bytesOf ".ico",
    bytesOf ".svg"]

def cbmIsTrackableFile (path : CStr) : Bool :=
  let base := match splitLast 47 path with
    | some (_, base) => base
    | none => path
  !(skippedDirs.any fun dir => dir.isPrefixOf path) && !(skippedNames.contains base) &&
    !(skippedSuffixes.any fun suffix => suffix.isSuffixOf path)

def cbmParseRange (s : CStr) : Int × Int :=
  if 44 ∈ s then
    (strtolInt ((s.takeWhile (· ≠ 44)).take 31), strtolInt (s.dropWhile (· ≠ 44)).tail)
  else (strtolInt s, 1)

/-- `cbm_changed_file_t` -/
structure ChangedFile where
  status : CStr
  path : CStr
  oldPath : CStr

/-- What a buffer of `CBM_SZ_512` keeps. -/
def inBuffer (s : CStr) : CStr :=
  s.take 511

def parseOneNameStatus (line : CStr) : Option ChangedFile :=
  -- HUNK_LINE_BUF
  match splitFirst 9 (line.take 1535) with
  | none => none
  | some (status, paths) =>
      let path1 := match splitFirst 9 paths with
        | some (path1, _) => path1
        | none => paths
      let path2 := (splitFirst 9 paths).map Prod.snd
      let f : ChangedFile :=
        if status.head? = some 82 then
          { status := [82]
            path := inBuffer (path2.getD path1)
            oldPath := inBuffer path1 }
        else
          { status := status.take 1
            path := inBuffer path1
            oldPath := [] }
      if cbmIsTrackableFile f.path then some f else none

def nameStatusLine (line : CStr) : Option ChangedFile :=
  if line = [] then none else parseOneNameStatus line

def cbmParseNameStatus (output : CStr) (maxOut : Int) : List ChangedFile :=
  collect (some maxOut.toNat) nameStatusLine (output.splitOn 10) []

/-- `cbm_changed_hunk_t` -/
structure ChangedHunk where
  path : CStr
  startLine : Int
  endLine : Int

/-- `parse_hunk_line`; `text` is all that is left of the output. -/
def parseHunkLine (text : CStr) (lineLen : Nat) (currentFile : CStr) : Option ChangedHunk :=
  let line := text.take lineLen
  if 43 ∈ line ∧ line.head? ≠ some 43 then
    let before := (line.takeWhile (· ≠ 43)).length
    let plus := text.drop before
    let rangeLen := match afterFirst (bytesOf " @@") plus with
      | some rest => plus.length - rest.length - 3 - 1
      | none => lineLen - before - 1
    let range := cbmParseRange (plus.tail.take (min rangeLen 63))
    if range.1 ≤ 0 ∨ cbmIsTrackableFile currentFile = false then none
    else
      let last := toI32 (toI32 (range.1 + range.2) - 1)
      some
        { path := inBuffer currentFile
          startLine := range.1
          endLine := if last < range.1 then range.1 else last }
  else none

/-- A `+++ b/` line. -/
def isFileLine (line : CStr) : Bool :=
  decide (6 < line.length) && (bytesOf "+++ b/").isPrefixOf line

/-- What `current_file` is after a line. -/
def nextFile (currentFile line : CStr) : CStr :=
  if isFileLine line then inBuffer (line.drop 6) else currentFile

/-- What a line gives, with the lines behind it. -/
def hunkOfLine (currentFile line : CStr) (rest : List CStr) : Option ChangedHunk :=
  if isFileLine line = false ∧ (bytesOf "@@").isPrefixOf line = true ∧ currentFile ≠ [] then
    parseHunkLine ([10].intercalate (line :: rest)) line.length currentFile
  else none

def cbmParseHunks (output : CStr) (maxOut : Int) : List ChangedHunk :=
  collectWith maxOut.toNat nextFile hunkOfLine (output.splitOn 10) [] []

/-- A path that git prints as it is. -/
structure FilePath where
  text : CStr
  nonempty : text ≠ []
  short : text.length ≤ 255
  no_tab : (9 : UInt8) ∉ text
  no_newline : (10 : UInt8) ∉ text

structure LineText where
  text : CStr
  no_newline : (10 : UInt8) ∉ text

/-- The number behind the letter of a rename or a copy. -/
structure Score where
  text : CStr
  short : text.length ≤ 3
  digits : ∀ c ∈ text, 48 ≤ c ∧ c ≤ 57

inductive Change where
  | added (path : FilePath)
  | modified (path : FilePath)
  | deleted (path : FilePath)
  | renamed (score : Score) (old new : FilePath)
  | copied (score : Score) (old new : FilePath)

def Change.letter : Change → UInt8
  | .added _ => 65
  | .modified _ => 77
  | .deleted _ => 68
  | .renamed _ _ _ => 82
  | .copied _ _ _ => 67

def Change.current : Change → FilePath
  | .added path | .modified path | .deleted path => path
  | .renamed _ _ new | .copied _ _ new => new

/-- The line of a file with `--name-status`. -/
def Change.line : Change → CStr
  | .added path => 65 :: 9 :: path.text
  | .modified path => 77 :: 9 :: path.text
  | .deleted path => 68 :: 9 :: path.text
  | .renamed score old new => 82 :: (score.text ++ 9 :: (old.text ++ 9 :: new.text))
  | .copied score old new => 67 :: (score.text ++ 9 :: (old.text ++ 9 :: new.text))

/-- The header of a hunk: the old range, the new range, of which a count of 1 is not printed,
and what stands behind them. -/
structure Hunk where
  oldStart : Nat
  oldCount : Option Nat
  start : Nat
  count : Nat
  context : LineText

/-- A file with its hunks, of which each has content lines, added or removed ones; the path is
not there if the file was deleted. -/
structure FileDiff where
  path : Option FilePath
  hunks : List (Hunk × List (Bool × LineText))

/-- The lines of `--unified=0`. -/
inductive DiffLine where
  | file (path : Option FilePath)
  | hunk (h : Hunk)
  | content (added : Bool) (text : LineText)

def FileDiff.lines (f : FileDiff) : List DiffLine :=
  .file f.path :: f.hunks.flatMap fun h => .hunk h.1 :: h.2.map fun c => .content c.1 c.2

def Hunk.range (h : Hunk) : CStr :=
  decimalNat h.start ++ if h.count = 1 then [] else 44 :: decimalNat h.count

/-- What stands before the new range. -/
def Hunk.old (h : Hunk) : CStr :=
  bytesOf "@@ -" ++ decimalNat h.oldStart ++
    (match h.oldCount with
      | some count => 44 :: decimalNat count
      | none => []) ++ [32]

/-- A line, without its newline. -/
def DiffLine.line : DiffLine → CStr
  | .file (some path) => bytesOf "+++ b/" ++ path.text
  | .file none => bytesOf "+++ /dev/null"
  | .hunk h => h.old ++ 43 :: (h.range ++ bytesOf " @@" ++ h.context.text)
  | .content added text => (if added then 43 else 45) :: text.text

def printLines (lines : List CStr) : CStr :=
  lines.flatMap fun line => line ++ [10]

/-- The parser gives back the letters and paths of the trackable files, for the files and for
each beginning of them. -/
def StatusBack (changes : List Change) : Prop :=
  ∀ front, front <+: changes → ∀ maxOut : Int,
    (cbmParseNameStatus (printLines (front.map Change.line)) maxOut).map
        (fun f => (f.status, f.path)) =
      ((front.filter fun c => cbmIsTrackableFile c.current.text).map
        fun c => ([c.letter], c.current.text)).take maxOut.toNat

def fileAfter (file : Option FilePath) : DiffLine → Option FilePath
  | .file path => path
  | _ => file

/-- What is to be given back: the range of a hunk that has lines in a trackable file. -/
def wantedOf (file : Option FilePath) : DiffLine → Option ChangedHunk
  | .hunk h =>
      match file with
      | none => none
      | some path =>
          if 1 ≤ h.start ∧ cbmIsTrackableFile path.text = true then
            some
              { path := path.text
                startLine := h.start
                endLine := max (h.start : Int) (h.start + h.count - 1) }
          else none
  | _ => none

/-- The ranges to be given back. -/
def wantedHunks (lines : List DiffLine) : List ChangedHunk :=
  emitted fileAfter (fun file line _ => wantedOf file line) none lines

/-- The parser gives back the ranges, for the files and for each beginning of their lines. -/
def HunksBack (files : List FileDiff) : Prop :=
  ∀ front, front <+: files.flatMap FileDiff.lines → ∀ maxOut : Int,
    cbmParseHunks (printLines (front.map DiffLine.line)) maxOut =
      (wantedHunks front).take maxOut.toNat

/-- If the file was copied, its old path is the new one, or neither is trackable. -/
def Change.Kept : Change → Prop
  | .copied _ old new =>
      old.text = new.text ∨
        cbmIsTrackableFile old.text = false ∧ cbmIsTrackableFile new.text = false
  | _ => True

/-- Nothing is reported for the hunk, if this file was named last. -/
def Hunk.Silent (h : Hunk) (named : CStr) : Prop :=
  named = [] ∨ cbmIsTrackableFile named = false ∨ toI32 (min (h.start : Int) (2 ^ 63 - 1)) ≤ 0

/-- The file that was named last is that of a hunk which is to be given back, and its last line
is an `int`; for another hunk nothing is reported. -/
def Hunk.Kept (h : Hunk) (named : CStr) (file : Option FilePath) : Prop :=
  match file with
  | none => h.Silent named
  | some path =>
      if 1 ≤ h.start ∧ cbmIsTrackableFile path.text = true then
        named = path.text ∧ max (h.start : Int) (h.start + h.count - 1) < 2 ^ 31
      else h.Silent named

theorem take_eq_iff {β : Type} {a b : List β} :
    (∀ maxOut : Int, a.take maxOut.toNat = b.take maxOut.toNat) ↔ a = b := by
  refine ⟨fun h => ?_, fun h maxOut => by rw [h]⟩
  have hall := h (max a.length b.length : Nat)
  rwa [Int.toNat_natCast, List.take_of_length_le (le_max_left _ _),
    List.take_of_length_le (le_max_right _ _)] at hall

theorem splitOn_printLines {lines : List CStr} (h : ∀ line ∈ lines, (10 : UInt8) ∉ line) :
    (printLines lines).splitOn 10 = lines ++ [[]] := by
  have hjoin : printLines lines = [10].intercalate (lines ++ [[]]) := by
    clear h
    induction lines with
    | nil => rfl
    | cons line lines ih =>
        rw [printLines, List.flatMap_cons, ← printLines, ih]
        cases lines with
        | nil => simp [List.intercalate_cons_cons]
        | cons next rest =>
            rw [List.cons_append, List.cons_append, List.cons_append, List.intercalate_cons_cons]
  rw [hjoin, List.splitOn_intercalate 10 _ (by simp)]
  intro line hline
  rcases List.mem_append.mp hline with hmem | hlast
  · exact h line hmem
  · rw [List.mem_singleton.mp hlast]
    exact List.not_mem_nil

theorem Score.no_tab (score : Score) : (9 : UInt8) ∉ score.text := fun h =>
  absurd (score.digits 9 h).1 (by decide)

theorem FilePath.inBuffer_text (path : FilePath) : inBuffer path.text = path.text :=
  List.take_of_length_le (path.short.trans (by decide))

/-- The path that the parser takes. -/
def Change.taken : Change → FilePath
  | .copied _ old _ => old
  | c => c.current

def Change.oldPath : Change → CStr
  | .renamed _ old _ => old.text
  | _ => []

theorem Change.no_newline (c : Change) : (10 : UInt8) ∉ c.line := by
  have hscore : ∀ score : Score, (10 : UInt8) ∉ score.text := fun score h =>
    absurd (score.digits 10 h).1 (by decide)
  cases c <;> simp [Change.line, FilePath.no_newline, hscore]

theorem Change.length_line (c : Change) : c.line.length ≤ 1535 := by
  cases c with
  | added path | modified path | deleted path =>
      have := path.short
      simp only [Change.line, List.length_cons]
      omega
  | renamed score old new | copied score old new =>
      have := score.short
      have := old.short
      have := new.short
      simp only [Change.line, List.length_cons, List.length_append]
      omega

theorem nameStatusLine_line (c : Change) : nameStatusLine c.line =
    if cbmIsTrackableFile c.taken.text = true then
      some
        { status := [c.letter]
          path := c.taken.text
          oldPath := c.oldPath }
    else none := by
  have hne : c.line ≠ [] := by cases c <;> exact List.cons_ne_nil _ _
  have hone : ∀ (letter : UInt8) (path : FilePath), letter ≠ 9 →
      splitFirst 9 (letter :: 9 :: path.text) = some ([letter], path.text) := by
    intro letter path h
    refine splitFirst_append (a := [letter]) ?_ path.text
    rw [List.mem_singleton]
    exact Ne.symm h
  have htwo : ∀ (letter : UInt8) (score : Score) (old new : FilePath), letter ≠ 9 →
      splitFirst 9 (letter :: (score.text ++ 9 :: (old.text ++ 9 :: new.text))) =
        some (letter :: score.text, old.text ++ 9 :: new.text) := by
    intro letter score old new h
    refine splitFirst_append (a := letter :: score.text) ?_ _
    rw [List.mem_cons, not_or]
    exact ⟨Ne.symm h, score.no_tab⟩
  rw [nameStatusLine, if_neg hne, parseOneNameStatus, List.take_of_length_le c.length_line]
  cases c with
  | added path | modified path | deleted path =>
      rw [Change.line, hone _ _ (by decide)]
      dsimp only
      rw [splitFirst_eq_none path.no_tab]
      simp only [Change.taken, Change.current, Change.letter, Change.oldPath, path.inBuffer_text,
        List.head?_cons, List.take_succ_cons, List.take_zero]
      rfl
  | renamed score old new =>
      rw [Change.line, htwo _ _ _ _ (by decide)]
      dsimp only
      rw [splitFirst_append old.no_tab]
      simp only [Change.taken, Change.current, Change.letter, Change.oldPath, old.inBuffer_text,
        new.inBuffer_text, List.head?_cons, Option.map_some, Option.getD_some, if_true]
      rfl
  | copied score old new =>
      rw [Change.line, htwo _ _ _ _ (by decide)]
      dsimp only
      rw [splitFirst_append old.no_tab]
      simp only [Change.taken, Change.letter, Change.oldPath, old.inBuffer_text,
        List.head?_cons, List.take_succ_cons, List.take_zero]
      rfl

/-- The letter and the path that the parser gives for a file. -/
def Change.given (c : Change) : Option (CStr × CStr) :=
  if cbmIsTrackableFile c.taken.text = true then some ([c.letter], c.taken.text) else none

/-- The letter and the path that are to be given back. -/
def Change.wanted (c : Change) : Option (CStr × CStr) :=
  if cbmIsTrackableFile c.current.text = true then some ([c.letter], c.current.text) else none

theorem cbmParseNameStatus_eq (changes : List Change) (maxOut : Int) :
    (cbmParseNameStatus (printLines (changes.map Change.line)) maxOut).map
        (fun f => (f.status, f.path)) =
      (changes.filterMap Change.given).take maxOut.toNat := by
  have hlines : ∀ line ∈ changes.map Change.line, (10 : UInt8) ∉ line := by
    intro line hline
    obtain ⟨c, -, rfl⟩ := List.mem_map.mp hline
    exact c.no_newline
  have hgiven : ∀ c : Change, (nameStatusLine c.line).map (fun f => (f.status, f.path)) =
      c.given := by
    intro c
    rw [nameStatusLine_line, Change.given]
    split <;> rfl
  rw [cbmParseNameStatus, collect_eq, splitOn_printLines hlines, List.nil_append, takeRoom,
    List.length_nil, Nat.sub_zero, List.map_take, List.filterMap_append, List.filterMap_map,
    List.map_append, List.map_filterMap]
  have hlast : [([] : CStr)].filterMap nameStatusLine = [] := rfl
  rw [hlast, List.map_nil, List.append_nil]
  exact congrArg (List.take _) (congrArg (List.filterMap · changes) (funext hgiven))

theorem Change.given_eq_wanted_iff (c : Change) : c.given = c.wanted ↔ c.Kept := by
  cases c with
  | copied score old new =>
      rw [Change.given, Change.wanted, Change.Kept, Change.taken, Change.current]
      cases hold : cbmIsTrackableFile old.text <;> cases hnew : cbmIsTrackableFile new.text
      · simp
      · simp only [Bool.false_eq_true, if_false, if_true, reduceCtorEq, and_false, or_false,
          false_iff]
        rintro heq
        rw [heq, hnew] at hold
        exact Bool.noConfusion hold
      · simp only [Bool.false_eq_true, if_false, if_true, reduceCtorEq, false_and, or_false,
          false_iff]
        rintro heq
        rw [heq, hnew] at hold
        exact Bool.noConfusion hold
      · simp
  | added path | modified path | deleted path | renamed score old new =>
      exact iff_of_true rfl trivial

theorem status_back_iff (changes : List Change) :
    StatusBack changes ↔ ∀ c ∈ changes, c.Kept := by
  have hwanted : ∀ front : List Change,
      (front.filter fun c => cbmIsTrackableFile c.current.text).map
        (fun c => ([c.letter], c.current.text)) = front.filterMap Change.wanted := by
    intro front
    induction front with
    | nil => rfl
    | cons c front ih =>
        rw [List.filter_cons, List.filterMap_cons, Change.wanted]
        split
        · rw [List.map_cons, ih]
        · exact ih
  simp only [StatusBack, cbmParseNameStatus_eq, hwanted, take_eq_iff]
  rw [forall_filterMap_eq_iff]
  exact forall₂_congr fun c _ => c.given_eq_wanted_iff

section Numbers

theorem decimalNat_digits (n : Nat) : ∀ c ∈ decimalNat n, 48 ≤ c ∧ c ≤ 57 := fun _ hc =>
  Cypher.decimalNat_byte hc

theorem strtolInt_digits {s : CStr} (hs : s ≠ []) (h : ∀ c ∈ s, 48 ≤ c ∧ c ≤ 57) :
    strtolInt s = toI32 (min (digitsValue 0 s : Int) (2 ^ 63 - 1)) := by
  have hhead : s.head? ≠ some 45 := by
    intro hhead
    exact absurd (h 45 (List.mem_of_mem_head? hhead)).1 (by decide)
  have hdigits : Cypher.looksNumeric s = true := by
    rw [Cypher.looksNumeric, if_neg hhead, Bool.and_eq_true, List.all_eq_true]
    refine ⟨decide_eq_true hs, fun c hc => ?_⟩
    rw [Bool.and_eq_true]
    exact ⟨decide_eq_true (h c hc).1, decide_eq_true (h c hc).2⟩
  have hvalue : Cypher.decimalValue s = digitsValue 0 s := by
    rw [Cypher.decimalValue, if_neg hhead]
    exact Cypher.foldl_digits s 0 h
  rw [Cypher.strtolInt_of_looksNumeric hdigits, if_neg hhead, hvalue, toI32]

theorem digitsValue_bounds {s : CStr} (v : Nat) (h : ∀ c ∈ s, 48 ≤ c ∧ c ≤ 57) :
    v * 10 ^ s.length ≤ digitsValue v s ∧ digitsValue v s < (v + 1) * 10 ^ s.length := by
  induction s generalizing v with
  | nil => exact ⟨by simp [digitsValue], by simp [digitsValue]⟩
  | cons c s ih =>
      obtain ⟨hc, hs⟩ := List.forall_mem_cons.mp h
      have hlow : 48 ≤ c.toNat := UInt8.le_iff_toNat_le.mp hc.1
      have hhigh : c.toNat ≤ 57 := UInt8.le_iff_toNat_le.mp hc.2
      obtain ⟨hle, hlt⟩ := ih (v * 10 + (c.toNat - 48)) hs
      rw [digitsValue, if_pos hc, List.length_cons, pow_succ]
      constructor
      · calc v * (10 ^ s.length * 10) = v * 10 * 10 ^ s.length := by ring
          _ ≤ (v * 10 + (c.toNat - 48)) * 10 ^ s.length :=
            Nat.mul_le_mul_right _ (Nat.le_add_right _ _)
          _ ≤ _ := hle
      · calc digitsValue (v * 10 + (c.toNat - 48)) s
            < (v * 10 + (c.toNat - 48) + 1) * 10 ^ s.length := hlt
          _ ≤ (v + 1) * 10 * 10 ^ s.length := Nat.mul_le_mul_right _ (by omega)
          _ = (v + 1) * (10 ^ s.length * 10) := by ring

theorem digitsValue_append {s : CStr} (h : ∀ c ∈ s, 48 ≤ c ∧ c ≤ 57) (v : Nat) (t : CStr) :
    digitsValue v (s ++ t) = digitsValue (digitsValue v s) t := by
  induction s generalizing v with
  | nil => rfl
  | cons c s ih =>
      obtain ⟨hc, hs⟩ := List.forall_mem_cons.mp h
      rw [List.cons_append, digitsValue, if_pos hc, digitsValue, if_pos hc, ih hs]

theorem strtolInt_take (n : Nat) {k : Nat} (hk : 20 ≤ k) :
    strtolInt ((decimalNat n).take k) = toI32 (min (n : Int) (2 ^ 63 - 1)) := by
  have hdigits := decimalNat_digits n
  have hfront : ∀ c ∈ (decimalNat n).take k, 48 ≤ c ∧ c ≤ 57 := fun c hc =>
    hdigits c (List.mem_of_mem_take hc)
  have hback : ∀ c ∈ (decimalNat n).drop k, 48 ≤ c ∧ c ≤ 57 := fun c hc =>
    hdigits c (List.mem_of_mem_drop hc)
  have hne : (decimalNat n).take k ≠ [] := by
    rw [Ne, List.take_eq_nil_iff, not_or]
    exact ⟨by omega, decimalNat_ne_nil n⟩
  rw [strtolInt_digits hne hfront]
  by_cases hshort : (decimalNat n).length ≤ k
  · rw [List.take_of_length_le hshort, digitsValue_decimalNat]
  · -- both values are too large
    have hvalue :
        digitsValue (digitsValue 0 ((decimalNat n).take k)) ((decimalNat n).drop k) = n := by
      rw [← digitsValue_append hfront, List.take_append_drop, digitsValue_decimalNat]
    obtain ⟨hle, hlt⟩ := digitsValue_bounds (digitsValue 0 ((decimalNat n).take k)) hback
    rw [hvalue, List.length_drop] at hle hlt
    generalize digitsValue 0 ((decimalNat n).take k) = v at hle hlt
    have hlow : 10 ^ ((decimalNat n).length - 1) ≤ n := by
      refine Nat.le_of_not_lt fun h => ?_
      have hlength := (Nat.length_toDigits_le_iff (by decide) (by omega)).mpr h
      rw [decimalNat, List.length_map] at hshort hlength
      omega
    have hsplit : 10 ^ ((decimalNat n).length - 1) =
        10 ^ (k - 1) * 10 ^ ((decimalNat n).length - k) := by
      rw [← pow_add]
      congr 1
      omega
    have hpow : (10 : Nat) ^ 19 ≤ 10 ^ (k - 1) := Nat.pow_le_pow_right (by decide) (by omega)
    have hv : 10 ^ (k - 1) < v + 1 := by
      refine Nat.lt_of_mul_lt_mul_right (a := 10 ^ ((decimalNat n).length - k)) ?_
      rw [← hsplit]
      exact Nat.lt_of_le_of_lt hlow hlt
    have hvn : v ≤ n := (Nat.le_mul_of_pos_right v (Nat.pow_pos (by decide))).trans hle
    rw [min_eq_right (by omega), min_eq_right (by omega)]

theorem toI32_lt (v : Int) : toI32 v < 2 ^ 31 := by
  rw [toI32]
  omega

end Numbers

namespace Hunk

variable (h : Hunk)

theorem comma_not_mem_decimal (n : Nat) : (44 : UInt8) ∉ decimalNat n := fun hc =>
  absurd (decimalNat_digits n 44 hc).1 (by decide)

theorem parseRange_start :
    (cbmParseRange (h.range.take 63)).1 = toI32 (min (h.start : Int) (2 ^ 63 - 1)) := by
  have hcomma := comma_not_mem_decimal h.start
  have hall : ∀ c ∈ decimalNat h.start, decide (c ≠ 44) = true := fun c hc =>
    decide_eq_true fun heq => hcomma (heq ▸ hc)
  rw [range]
  by_cases hone : h.count = 1
  · rw [if_pos hone, List.append_nil, cbmParseRange,
      if_neg fun hc => hcomma (List.mem_of_mem_take hc)]
    exact strtolInt_take h.start (by decide)
  · rw [if_neg hone, List.take_append]
    by_cases hlong : 63 ≤ (decimalNat h.start).length
    · rw [Nat.sub_eq_zero_of_le hlong, List.take_zero, List.append_nil, cbmParseRange,
        if_neg fun hc => hcomma (List.mem_of_mem_take hc)]
      exact strtolInt_take h.start (by decide)
    · obtain ⟨k, hk⟩ : ∃ k, 63 - (decimalNat h.start).length = k + 1 :=
        ⟨62 - (decimalNat h.start).length, by omega⟩
      rw [hk, List.take_succ_cons, List.take_of_length_le (l := decimalNat h.start) (by omega),
        cbmParseRange, if_pos (List.mem_append_right _ List.mem_cons_self),
        List.takeWhile_append_of_pos hall, List.takeWhile_cons_of_neg (by simp), List.append_nil]
      exact strtolInt_take h.start (by decide)

theorem parseRange_eq (hstart : h.start < 2 ^ 31) (hcount : h.count < 2 ^ 31) :
    cbmParseRange (h.range.take 63) = ((h.start : Int), (h.count : Int)) := by
  have hshort : ∀ {n : Nat}, n < 2 ^ 31 → (decimalNat n).length ≤ 19 := fun hn =>
    length_decimalNat_le (by omega)
  have hrange : h.range.length ≤ 63 := by
    have := hshort hstart
    have := hshort hcount
    rw [range, List.length_append]
    split
    · rw [List.length_nil]
      omega
    · rw [List.length_cons]
      omega
  have hfirst : (cbmParseRange (h.range.take 63)).1 = h.start := by
    rw [parseRange_start, toI32]
    omega
  refine Prod.ext hfirst ?_
  have hcomma := comma_not_mem_decimal h.start
  have hall : ∀ c ∈ decimalNat h.start, decide (c ≠ 44) = true := fun c hc =>
    decide_eq_true fun heq => hcomma (heq ▸ hc)
  rw [List.take_of_length_le hrange, range]
  by_cases hone : h.count = 1
  · rw [if_pos hone, List.append_nil, cbmParseRange, if_neg hcomma, hone]
    rfl
  · rw [if_neg hone, cbmParseRange, if_pos (List.mem_append_right _ List.mem_cons_self),
      List.dropWhile_append_of_pos hall, List.dropWhile_cons_of_neg (by simp), List.tail_cons]
    exact Cypher.strtolInt_decimalNat hcount

/-- What is reported for the hunk, if this file was named last. -/
def read (named : CStr) : Option ChangedHunk :=
  let range := cbmParseRange (h.range.take 63)
  if named = [] ∨ range.1 ≤ 0 ∨ cbmIsTrackableFile named = false then none
  else
    let last := toI32 (toI32 (range.1 + range.2) - 1)
    some
      { path := inBuffer named
        startLine := range.1
        endLine := if last < range.1 then range.1 else last }

theorem read_eq_none_iff (named : CStr) : h.read named = none ↔ h.Silent named := by
  rw [read, Silent, h.parseRange_start]
  dsimp only
  split
  · next hnone =>
      refine iff_of_true rfl ?_
      tauto
  · next hsome =>
      refine iff_of_false (Option.some_ne_none _) ?_
      tauto

variable {named : CStr}

theorem read_eq (hne : named ≠ []) (htrack : cbmIsTrackableFile named = true)
    (hlength : named.length ≤ 511) (hstart : 1 ≤ h.start)
    (hlast : max (h.start : Int) (h.start + h.count - 1) < 2 ^ 31) :
    h.read named = some
      { path := named
        startLine := h.start
        endLine := max (h.start : Int) (h.start + h.count - 1) } := by
  obtain ⟨hs, hsn⟩ := max_lt_iff.mp hlast
  have hrange := h.parseRange_eq (by omega) (by omega)
  have hsum : toI32 (toI32 ((h.start : Int) + h.count) - 1) = h.start + h.count - 1 := by
    rw [toI32, toI32]
    omega
  have hmax : (if (h.start : Int) + h.count - 1 < h.start then (h.start : Int)
      else h.start + h.count - 1) = max (h.start : Int) (h.start + h.count - 1) := by
    split
    · exact (max_eq_left (by omega)).symm
    · exact (max_eq_right (by omega)).symm
  rw [read, hrange]
  dsimp only
  rw [if_neg, hsum, hmax, inBuffer, List.take_of_length_le hlength]
  rw [htrack]
  simp only [hne, false_or, not_or]
  exact ⟨by omega, Bool.noConfusion⟩

theorem endLine_lt {r : ChangedHunk} (hr : h.read named = some r) : r.endLine < 2 ^ 31 := by
  rw [read] at hr
  dsimp only at hr
  split at hr
  · exact absurd hr (by simp)
  · rw [← Option.some.inj hr]
    dsimp only
    split
    · rw [h.parseRange_start]
      exact toI32_lt _
    · exact toI32_lt _

theorem path_of_read {r : ChangedHunk} (hr : h.read named = some r) : r.path = inBuffer named := by
  rw [read] at hr
  dsimp only at hr
  split at hr
  · exact absurd hr (by simp)
  · rw [← Option.some.inj hr]

theorem read_eq_wantedOf_iff (hlength : named.length ≤ 511) (file : Option FilePath) :
    h.read named = wantedOf file (.hunk h) ↔ h.Kept named file := by
  cases file with
  | none => exact h.read_eq_none_iff named
  | some path =>
      rw [wantedOf, Kept]
      split
      · next hwanted =>
          constructor
          · intro hread
            have hpath := h.path_of_read hread
            have hend := h.endLine_lt hread
            rw [inBuffer, List.take_of_length_le hlength] at hpath
            exact ⟨hpath.symm, hend⟩
          · rintro ⟨rfl, hlast⟩
            exact h.read_eq path.nonempty hwanted.2 hlength hwanted.1 hlast
      · exact h.read_eq_none_iff named

theorem no_plus_old : (43 : UInt8) ∉ h.old := by
  have hdigits : ∀ n : Nat, (43 : UInt8) ∉ decimalNat n := fun n hc =>
    absurd (decimalNat_digits n 43 hc).1 (by decide)
  rw [old]
  cases h.oldCount with
  | none => simp [hdigits, bytesOf]
  | some count => simp [hdigits, bytesOf]

theorem no_blank_range : (32 : UInt8) ∉ h.range := by
  have hdigits : ∀ n : Nat, (32 : UInt8) ∉ decimalNat n := fun n hc =>
    absurd (decimalNat_digits n 32 hc).1 (by decide)
  rw [range]
  split <;> simp [hdigits]

theorem afterFirst_range {s : CStr} (hs : (32 : UInt8) ∉ s) (t : CStr) :
    afterFirst (bytesOf " @@") (s ++ (bytesOf " @@" ++ t)) = some t := by
  induction s with
  | nil => exact Cypher.afterFirst_cons_of_prefix rfl
  | cons c s ih =>
      rw [List.mem_cons, not_or] at hs
      rw [List.cons_append, Cypher.afterFirst_cons_of_not_start, ih hs.2]
      intro hstart
      exact hs.1 (List.cons_prefix_cons.mp hstart).1

theorem parseHunkLine_line (named more : CStr) (hne : named ≠ []) :
    parseHunkLine ((DiffLine.hunk h).line ++ more) (DiffLine.hunk h).line.length named =
      h.read named := by
  have hline : (DiffLine.hunk h).line =
      h.old ++ 43 :: (h.range ++ (bytesOf " @@" ++ h.context.text)) := by
    rw [DiffLine.line, List.append_assoc]
  have hold : ∀ c ∈ h.old, decide (c ≠ 43) = true := fun c hc =>
    decide_eq_true fun heq => h.no_plus_old (heq ▸ hc)
  have hhead : ((DiffLine.hunk h).line).head? ≠ some 43 := by
    rw [hline, old]
    simp [bytesOf]
  have hplus : (43 : UInt8) ∈ (DiffLine.hunk h).line := by
    rw [hline]
    exact List.mem_append_right _ List.mem_cons_self
  rw [parseHunkLine, List.take_left]
  dsimp only
  rw [if_pos ⟨hplus, hhead⟩, read]
  have hbefore : (DiffLine.hunk h).line.takeWhile (fun c => decide (c ≠ 43)) = h.old := by
    rw [hline, List.takeWhile_append_of_pos hold, List.takeWhile_cons_of_neg (by simp),
      List.append_nil]
  have hdrop : ((DiffLine.hunk h).line ++ more).drop h.old.length =
      43 :: (h.range ++ (bytesOf " @@" ++ (h.context.text ++ more))) := by
    rw [hline, List.append_assoc, List.drop_left, List.cons_append, List.append_assoc,
      List.append_assoc]
  have hafter : afterFirst (bytesOf " @@")
      (43 :: (h.range ++ (bytesOf " @@" ++ (h.context.text ++ more)))) =
        some (h.context.text ++ more) := by
    rw [← List.cons_append]
    refine afterFirst_range ?_ _
    rw [List.mem_cons, not_or]
    exact ⟨by decide, h.no_blank_range⟩
  have hpattern : (bytesOf " @@").length = 3 := rfl
  have hlen : (43 :: (h.range ++ (bytesOf " @@" ++ (h.context.text ++ more)))).length -
      (h.context.text ++ more).length - 3 - 1 = h.range.length := by
    rw [List.length_cons, List.length_append, List.length_append, hpattern]
    omega
  have htake : (h.range ++ (bytesOf " @@" ++ (h.context.text ++ more))).take
      (min h.range.length 63) = h.range.take 63 := by
    rw [min_comm, ← List.take_take, List.take_left]
  rw [hbefore, hdrop, hafter]
  simp only [hlen, List.tail_cons, htake, hne, false_or]

end Hunk

/-- What the parser reports for a line. -/
def givenOf (named : CStr) : DiffLine → Option ChangedHunk
  | .hunk h => h.read named
  | _ => none

theorem DiffLine.no_newline (l : DiffLine) : (10 : UInt8) ∉ l.line := by
  have hdigits : ∀ n : Nat, (10 : UInt8) ∉ decimalNat n := fun n hc =>
    absurd (decimalNat_digits n 10 hc).1 (by decide)
  cases l with
  | file path =>
      cases path with
      | none => decide
      | some path =>
          rw [DiffLine.line, List.mem_append, not_or]
          exact ⟨by decide, path.no_newline⟩
  | hunk h =>
      have hrange : (10 : UInt8) ∉ h.range := by
        rw [Hunk.range]
        split <;> simp [hdigits]
      have hold : (10 : UInt8) ∉ h.old := by
        rw [Hunk.old]
        cases h.oldCount <;> simp [hdigits, bytesOf]
      simp [DiffLine.line, hold, hrange, h.context.no_newline, bytesOf]
  | content added text =>
      cases added <;> simp [DiffLine.line, text.no_newline]

theorem intercalate_cons (line : CStr) (rest : List CStr) :
    ∃ more, [10].intercalate (line :: rest) = line ++ more := by
  cases rest with
  | nil => exact ⟨[], by rw [List.intercalate_singleton, List.append_nil]⟩
  | cons next rest => exact ⟨[10] ++ [10].intercalate (next :: rest), by
      rw [List.intercalate_cons_cons, List.append_assoc]⟩

theorem hunkOfLine_line (named : CStr) (l : DiffLine) (rest : List CStr) :
    hunkOfLine named l.line rest = givenOf named l := by
  have hother : ∀ {c : UInt8} {text : CStr}, c ≠ 64 →
      hunkOfLine named (c :: text) rest = none := by
    intro c text hc
    refine if_neg fun h => ?_
    exact hc (List.cons_prefix_cons.mp (List.isPrefixOf_iff_prefix.mp h.2.1)).1.symm
  cases l with
  | file path =>
      cases path with
      | none => exact hother (c := 43) (by decide)
      | some path => exact hother (c := 43) (by decide)
  | content added text =>
      cases added with
      | false => exact hother (c := 45) (by decide)
      | true => exact hother (c := 43) (by decide)
  | hunk h =>
      have hstart : (bytesOf "@@").isPrefixOf (DiffLine.hunk h).line = true := rfl
      have hfile : isFileLine (DiffLine.hunk h).line = false := by
        rw [isFileLine, Bool.and_eq_false_iff]
        exact Or.inr rfl
      obtain ⟨more, hmore⟩ := intercalate_cons (DiffLine.hunk h).line rest
      rw [hunkOfLine, hmore, givenOf]
      by_cases hne : named = []
      · rw [if_neg fun hall => hall.2.2 hne, Hunk.read]
        exact (if_pos (Or.inl hne)).symm
      · rw [if_pos ⟨hfile, hstart, hne⟩, h.parseHunkLine_line named more hne]

theorem emitted_lines (named : CStr) (lines : List DiffLine) :
    emitted nextFile hunkOfLine named (lines.map DiffLine.line ++ [[]]) =
      emitted (fun named (l : DiffLine) => nextFile named l.line) (fun named l _ => givenOf named l)
        named lines := by
  induction lines generalizing named with
  | nil => rfl
  | cons l lines ih =>
      rw [List.map_cons, List.cons_append, emitted, emitted, hunkOfLine_line, ih]

theorem cbmParseHunks_eq (lines : List DiffLine) (maxOut : Int) :
    cbmParseHunks (printLines (lines.map DiffLine.line)) maxOut =
      (emitted (fun named (l : DiffLine) => nextFile named l.line)
        (fun named l _ => givenOf named l) [] lines).take maxOut.toNat := by
  have hlines : ∀ line ∈ lines.map DiffLine.line, (10 : UInt8) ∉ line := by
    intro line hline
    obtain ⟨l, -, rfl⟩ := List.mem_map.mp hline
    exact l.no_newline
  rw [cbmParseHunks, collectWith_eq, splitOn_printLines hlines, emitted_lines, List.nil_append,
    List.length_nil, Nat.sub_zero]

/-- The file that the parser takes for the current one behind these lines. -/
def namedLast (front : List DiffLine) : CStr :=
  front.foldl (fun named l => nextFile named l.line) []

def fileLast (front : List DiffLine) : Option FilePath :=
  front.foldl fileAfter none

theorem length_namedLast (front : List DiffLine) : (namedLast front).length ≤ 511 := by
  induction front using List.reverseRecOn with
  | nil => exact Nat.zero_le _
  | append_singleton front l ih =>
      rw [namedLast, List.foldl_append, ← namedLast, List.foldl_cons, List.foldl_nil, nextFile]
      split
      · exact List.length_take_le _ _
      · exact ih

theorem hunks_back_iff (files : List FileDiff) :
    HunksBack files ↔ ∀ front h, front ++ [.hunk h] <+: files.flatMap FileDiff.lines →
      h.Kept (namedLast front) (fileLast front) := by
  simp only [HunksBack, cbmParseHunks_eq, wantedHunks, take_eq_iff]
  rw [forall_emitted_eq_iff]
  constructor
  · intro hall front h hprefix
    exact (h.read_eq_wantedOf_iff (length_namedLast front) _).mp (hall front _ hprefix)
  · intro hall front l hprefix
    cases l with
    | hunk h =>
        exact (h.read_eq_wantedOf_iff (length_namedLast front) _).mpr (hall front h hprefix)
    | file path => rfl
    | content added text => rfl

/-- When the two outputs are read back. -/
theorem git_diff_iff (changes : List Change) (files : List FileDiff) :
    (StatusBack changes ↔ ∀ c ∈ changes, c.Kept) ∧
      (HunksBack files ↔ ∀ front h, front ++ [.hunk h] <+: files.flatMap FileDiff.lines →
        h.Kept (namedLast front) (fileLast front)) :=
  ⟨status_back_iff changes, hunks_back_iff files⟩

/-- `a.c` is copied to `b.c`; and a line `++ b/x.c` is added to `a.c`, before another hunk. -/
theorem not_git_diff :
    ∃ changes files, ¬ StatusBack changes ∧ ¬ HunksBack files := by
  let a : FilePath :=
    { text := bytesOf "a.c"
      nonempty := by decide
      short := by decide
      no_tab := by decide
      no_newline := by decide }
  let b : FilePath :=
    { text := bytesOf "b.c"
      nonempty := by decide
      short := by decide
      no_tab := by decide
      no_newline := by decide }
  let hunkAt (start : Nat) : Hunk :=
    { oldStart := 1
      oldCount := none
      start := start
      count := 1
      context := ⟨[], by decide⟩ }
  refine ⟨[.copied ⟨bytesOf "100", by decide, by decide +kernel⟩ a b],
    [⟨some a, [(hunkAt 1, [(true, ⟨bytesOf "++ b/x.c", by decide⟩)]), (hunkAt 3, [])]⟩],
    fun h => ?_, fun h => ?_⟩
  · have hall := h _ (List.prefix_refl _) 1
    exact absurd hall (by decide)
  · have hall := congrArg (List.map ChangedHunk.path) (h _ (List.prefix_refl _) 2)
    exact absurd hall (by decide)

end Pipeline
end CodebaseMemory
