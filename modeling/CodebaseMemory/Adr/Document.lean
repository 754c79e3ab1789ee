import CodebaseMemory.Adr.Sections
import CodebaseMemory.Lib.Text

/-!
# What the sections of a document are

A document is cut at its header lines, without any bounds: what stands before the first
one, and for each header its name and the lines behind it.  `cbm_adr_parse_sections` gives
these sections as far as they fit.
-/

namespace CodebaseMemory
namespace Adr

open Lib
open Sqlite (CStr bytesOf)

section Document

/-- The lines before the first header, and the sections behind it. -/
def groupLines : List CStr → List CStr × List (CStr × List CStr)
  | [] => ([], [])
  | line :: lines =>
      match adrTrySectionHeader line with
      | some key => ([], (key, (groupLines lines).1) :: (groupLines lines).2)
      | none => (line :: (groupLines lines).1, (groupLines lines).2)

/-- The text of some lines, without blanks and newlines at its ends. -/
def textOf (lines : List CStr) : CStr :=
  trim isBlank (join newline lines)

/-- The text before the first header. -/
def preamble (content : CStr) : CStr :=
  textOf (groupLines (splitLines content)).1

def documentSections (content : CStr) : List (CStr × List CStr) :=
  (groupLines (splitLines content)).2

theorem groupLines_header {line key : CStr} (h : adrTrySectionHeader line = some key)
    (lines : List CStr) :
    groupLines (line :: lines) = ([], (key, (groupLines lines).1) :: (groupLines lines).2) := by
  rw [groupLines, h]

theorem groupLines_line {line : CStr} (h : adrTrySectionHeader line = none)
    (lines : List CStr) :
    groupLines (line :: lines) = (line :: (groupLines lines).1, (groupLines lines).2) := by
  rw [groupLines, h]

theorem groupLines_append {rest : List CStr} (hrest : (groupLines rest).1 = [])
    (lines : List CStr) :
    groupLines (lines ++ rest) =
      ((groupLines lines).1, (groupLines lines).2 ++ (groupLines rest).2) := by
  induction lines with
  | nil => rw [List.nil_append, groupLines, List.nil_append, ← hrest]
  | cons line lines ih =>
      rw [List.cons_append]
      cases hline : adrTrySectionHeader line with
      | some key => rw [groupLines_header hline, groupLines_header hline, ih, List.cons_append]
      | none => rw [groupLines_line hline, groupLines_line hline, ih]

theorem groupLines_of_none {lines : List CStr}
    (h : ∀ line ∈ lines, adrTrySectionHeader line = none) : groupLines lines = (lines, []) := by
  induction lines with
  | nil => rfl
  | cons line lines ih =>
      rw [groupLines_line (h line List.mem_cons_self),
        ih fun line' hline => h line' (List.mem_cons_of_mem _ hline)]

theorem isCanonical_of_header {line key : CStr} (h : adrTrySectionHeader line = some key) :
    isCanonicalSection key = true := by
  rw [adrTrySectionHeader] at h
  split at h
  · exact absurd h (by simp)
  · dsimp only at h
    split at h
    · next hkey => exact Option.some.inj h ▸ hkey
    · exact absurd h (by simp)

theorem isCanonical_of_mem_groupLines {lines : List CStr} {g : CStr × List CStr}
    (hg : g ∈ (groupLines lines).2) : isCanonicalSection g.1 = true := by
  induction lines with
  | nil => exact absurd hg List.not_mem_nil
  | cons line lines ih =>
      cases hline : adrTrySectionHeader line with
      | some key =>
          rw [groupLines_header hline] at hg
          rcases List.mem_cons.mp hg with rfl | hg
          · exact isCanonical_of_header hline
          · exact ih hg
      | none =>
          rw [groupLines_line hline] at hg
          exact ih hg

end Document

section Lines

variable {s : CStr}

theorem splitLines_splitOn (s : CStr) :
    splitLines s = s.splitOn newline ∨ splitLines s ++ [[]] = s.splitOn newline := by
  induction s with
  | nil => exact Or.inr rfl
  | cons c rest ih =>
      rw [splitLines, List.splitOn_cons_eq_if_modifyHead]
      by_cases hc : c = newline
      · rw [if_pos hc, if_pos (beq_iff_eq.mpr hc), List.cons_append]
        exact ih.imp (congrArg _) (congrArg _)
      · rw [if_neg hc, if_neg (mt beq_iff_eq.mp hc)]
        cases hrest : splitLines rest with
        | nil =>
            rw [hrest] at ih
            rcases ih with ih | ih
            · exact absurd ih.symm (List.splitOn_ne_nil newline rest)
            · exact Or.inl (by rw [← ih]; rfl)
        | cons line lines =>
            rw [hrest] at ih
            exact ih.imp (fun h => by rw [← h]; rfl) fun h => by rw [← h]; rfl

theorem textOf_append_nil (lines : List CStr) : textOf (lines ++ [[]]) = textOf lines := by
  rw [textOf, join_append_singleton]
  split
  · next h => rw [h]; rfl
  · exact trim_append_right fun c hc => by rw [List.mem_singleton.mp hc]; rfl

def named (g : CStr × List CStr) : CStr × CStr := (g.1, textOf g.2)

theorem groupLines_append_nil (lines : List CStr) :
    ((groupLines (lines ++ [[]])).1 = (groupLines lines).1 ∨
      (groupLines (lines ++ [[]])).1 = (groupLines lines).1 ++ [[]]) ∧
    (groupLines (lines ++ [[]])).2.map named = (groupLines lines).2.map named := by
  induction lines with
  | nil => exact ⟨Or.inr rfl, rfl⟩
  | cons line lines ih =>
      obtain ⟨hpre, hsections⟩ := ih
      rw [List.cons_append]
      cases hline : adrTrySectionHeader line with
      | some key =>
          rw [groupLines_header hline, groupLines_header hline, List.map_cons, List.map_cons,
            hsections]
          refine ⟨Or.inl rfl, congrArg (· :: _) ?_⟩
          rcases hpre with hpre | hpre
          · rw [hpre]
          · rw [named, hpre, textOf_append_nil, named]
      | none =>
          rw [groupLines_line hline, groupLines_line hline]
          exact ⟨hpre.imp (congrArg (line :: ·)) (congrArg (line :: ·)), hsections⟩

theorem preamble_splitOn (content : CStr) :
    preamble content = textOf (groupLines (content.splitOn newline)).1 := by
  rw [preamble]
  rcases splitLines_splitOn content with h | h
  · rw [h]
  · rw [← h]
    rcases (groupLines_append_nil (splitLines content)).1 with hpre | hpre
    · rw [hpre]
    · rw [hpre, textOf_append_nil]

theorem documentSections_splitOn (content : CStr) :
    (documentSections content).map named =
      (groupLines (content.splitOn newline)).2.map named := by
  rw [documentSections]
  rcases splitLines_splitOn content with h | h
  · rw [h]
  · rw [← h, (groupLines_append_nil (splitLines content)).2]

end Lines

section Buffer

/-- The buffer when the next line is added. -/
def startOf (content : CStr) : CStr :=
  if content = [] then [] else content ++ [newline]

/-- What `adr_append_line` leaves in the buffer of a section. -/
def storeLine (content line : CStr) : CStr :=
  if (startOf content).length + line.length < contentSize - 1 then startOf content ++ line
  else startOf content

def bufferOf (content : CStr) (lines : List CStr) : CStr :=
  lines.foldl storeLine content

theorem parseLine_header {s : Parse} {line key : CStr} (h : adrTrySectionHeader line = some key) :
    parseLine s line = some ⟨adrSaveSection s.result s.currentSection s.currentContent,
      some key, []⟩ := by
  rw [parseLine, h]

theorem parseLine_line {s t : Parse} {line : CStr} (hline : adrTrySectionHeader line = none)
    (h : parseLine s line = some t) :
    t.result = s.result ∧ t.currentSection = s.currentSection ∧
      t.currentContent = if s.currentSection.isSome then storeLine s.currentContent line
        else s.currentContent := by
  rw [parseLine, hline] at h
  dsimp only at h
  split at h
  · next hcond =>
      obtain ⟨c, hc, rfl⟩ := Option.map_eq_some_iff.mp h
      rw [adrAppendLine] at hc
      split at hc
      · exact absurd hc (by simp)
      · rw [if_pos hcond.1]
        exact ⟨rfl, rfl, (Option.some.inj hc).symm⟩
  · next hcond =>
      obtain rfl := Option.some.inj h
      refine ⟨rfl, rfl, ?_⟩
      split
      · next hsome =>
          -- an empty line at the beginning of a section
          have hnil : s.currentContent = [] ∧ line = [] := by
            by_contra hne
            rw [not_and_or] at hne
            exact hcond ⟨hsome, hne⟩
          rw [hnil.1, hnil.2]
          rfl
      · rfl

/-- A section as the code stores it. -/
def stored (g : CStr × List CStr) : CStr × CStr :=
  (g.1, trim isBlank (bufferOf [] g.2))

/-- The section that is being read, once it is read up to the next header. -/
def openSection (s : Parse) (lines : List CStr) : Sections :=
  match s.currentSection with
  | none => []
  | some name => [(name, trim isBlank (bufferOf s.currentContent (groupLines lines).1))]

theorem adrSaveSection_eq (s : Parse) (hroom : s.result.length ≤ maxSections) :
    adrSaveSection s.result s.currentSection s.currentContent =
      (s.result ++ openSection s []).take maxSections := by
  rw [openSection]
  cases hcur : s.currentSection with
  | none => rw [adrSaveSection, List.append_nil, List.take_of_length_le hroom]
  | some name =>
      rw [adrSaveSection]
      split
      · next hfull =>
          rw [List.take_append_of_le_length hfull, List.take_of_length_le hroom]
      · next hfree =>
          rw [List.take_of_length_le]
          · rfl
          · rw [List.length_append, List.length_singleton]
            omega

theorem take_append_take {α : Type} (n : Nat) (l l' : List α) :
    (l.take n ++ l').take n = (l ++ l').take n := by
  rw [List.take_append, List.take_append, List.take_take, min_self, List.length_take]
  by_cases h : n ≤ l.length
  · rw [min_eq_left h, Nat.sub_self, Nat.sub_eq_zero_of_le h]
  · rw [min_eq_right (by omega)]

theorem parse_run {s t : Parse} {lines : List CStr} (h : lines.foldlM parseLine s = some t)
    (hroom : s.result.length ≤ maxSections) :
    adrSaveSection t.result t.currentSection t.currentContent =
      (s.result ++ (openSection s lines ++ (groupLines lines).2.map stored)).take
        maxSections := by
  induction lines generalizing s with
  | nil =>
      obtain rfl := Option.some.inj h
      rw [groupLines, List.map_nil, List.append_nil, adrSaveSection_eq s hroom]
  | cons line lines ih =>
      rw [List.foldlM_cons, Option.bind_eq_bind, Option.bind_eq_some_iff] at h
      obtain ⟨s', hs', h⟩ := h
      cases hline : adrTrySectionHeader line with
      | some key =>
          obtain rfl := Option.some.inj ((parseLine_header hline).symm.trans hs')
          have hsave := adrSaveSection_eq s hroom
          rw [ih h (by rw [hsave]; exact List.length_take_le _ _), hsave, take_append_take,
            groupLines_header hline, List.map_cons, List.append_assoc]
          cases hcur : s.currentSection with
          | none => simp only [openSection, hcur]; rfl
          | some name => simp only [openSection, hcur, groupLines_header hline]; rfl
      | none =>
          obtain ⟨hresult, hcurrent, hcontent⟩ := parseLine_line hline hs'
          rw [ih h (by rw [hresult]; exact hroom), hresult, groupLines_line hline]
          cases hcur : s.currentSection with
          | none => simp only [openSection, hcurrent, hcur]
          | some name =>
              rw [hcur, Option.isSome_some, if_pos rfl] at hcontent
              simp only [openSection, hcurrent, hcur, hcontent, groupLines_line hline,
                bufferOf, List.foldl_cons]

/-- `cbm_adr_parse_sections` returns the first sections of the document, each as it is left in
its buffer. -/
theorem parse_eq {content : CStr} {sections : Sections}
    (h : cbmAdrParseSections content = some sections) :
    sections = ((documentSections content).map stored).take maxSections := by
  obtain ⟨t, ht, rfl⟩ := Option.map_eq_some_iff.mp h
  exact parse_run ht (Nat.zero_le _)

theorem length_startOf_le (content : CStr) : (startOf content).length ≤ content.length + 1 := by
  rw [startOf]
  split
  · exact Nat.zero_le _
  · rw [List.length_append, List.length_singleton]

theorem length_storeLine_le (content line : CStr) :
    (storeLine content line).length ≤ content.length + (line.length + 1) := by
  have hstart := length_startOf_le content
  rw [storeLine]
  split
  · rw [List.length_append]
    omega
  · omega

theorem parse_isSome {s : Parse} {lines : List CStr}
    (h : s.currentContent.length + (lines.map fun line => line.length + 1).sum ≤ contentSize) :
    (lines.foldlM parseLine s).isSome := by
  induction lines generalizing s with
  | nil => rfl
  | cons line lines ih =>
      rw [List.map_cons, List.sum_cons] at h
      rw [List.foldlM_cons, Option.bind_eq_bind]
      cases hline : adrTrySectionHeader line with
      | some key =>
          rw [parseLine_header hline, Option.bind_some]
          refine ih ?_
          rw [List.length_nil]
          omega
      | none =>
          have hfree : ¬ (s.currentContent ≠ [] ∧ contentSize ≤ s.currentContent.length) := by
            rintro ⟨-, hfull⟩
            omega
          have hparse : (parseLine s line).isSome := by
            rw [parseLine, hline]
            dsimp only
            split
            · rw [adrAppendLine, if_neg hfree]
              rfl
            · rfl
          obtain ⟨s', hs'⟩ := Option.isSome_iff_exists.mp hparse
          rw [hs', Option.bind_some]
          refine ih ?_
          rw [(parseLine_line hline hs').2.2]
          split
          · have hlen := length_storeLine_le s.currentContent line
            omega
          · omega

end Buffer

section Keeps

/-- Some character of the line is no blank. -/
def HasText (line : CStr) : Prop :=
  ∃ c ∈ line, ¬ isBlank c = true

/-- Where the next line begins in a buffer that holds `n` bytes. -/
def lineStart (n : Nat) : Nat :=
  if n = 0 then 0 else n + 1

/-- The number of bytes in the buffer after some lines; a line that does not fit leaves its
newline only. -/
def usedBytes (lines : List CStr) : Nat :=
  lines.foldl (fun n line =>
    if lineStart n + line.length < contentSize - 1 then lineStart n + line.length
    else lineStart n) 0

/-- From the first line with text to the last one, every line fits into the buffer. -/
def KeepsLines (lines : List CStr) : Prop :=
  ∀ front line back, lines = front ++ line :: back → line ≠ [] →
    (∃ l ∈ front ++ [line], HasText l) → (∃ l ∈ line :: back, HasText l) →
      lineStart (usedBytes front) + line.length < contentSize - 1

theorem length_startOf (content : CStr) : (startOf content).length = lineStart content.length := by
  cases content with
  | nil => rfl
  | cons c rest =>
      rw [startOf, if_neg (List.cons_ne_nil c rest), List.length_append, List.length_singleton]
      rfl

theorem bufferOf_append_singleton (content : CStr) (lines : List CStr) (line : CStr) :
    bufferOf content (lines ++ [line]) = storeLine (bufferOf content lines) line := by
  rw [bufferOf, List.foldl_append, List.foldl_cons, List.foldl_nil, bufferOf]

theorem bufferOf_append_cons (content : CStr) (front : List CStr) (line : CStr)
    (back : List CStr) : bufferOf content (front ++ line :: back) =
      bufferOf (storeLine (bufferOf content front) line) back := by
  rw [bufferOf, List.foldl_append, List.foldl_cons, bufferOf, bufferOf]

theorem length_bufferOf (lines : List CStr) : (bufferOf [] lines).length = usedBytes lines := by
  induction lines using List.reverseRecOn with
  | nil => rfl
  | append_singleton lines line ih =>
      rw [bufferOf_append_singleton, usedBytes, List.foldl_append, List.foldl_cons,
        List.foldl_nil, ← usedBytes, ← ih, storeLine, length_startOf]
      split
      · rw [List.length_append, length_startOf]
      · rw [length_startOf]

variable {line : CStr}
variable {lines : List CStr}

theorem storeLine_of_not_fits {content : CStr}
    (h : ¬ (startOf content).length + line.length < contentSize - 1) :
    storeLine content line = storeLine content [] := by
  rw [storeLine, if_neg h, storeLine, List.append_nil, ite_self]

theorem bufferOf_sublist_join (lines : List CStr) :
    (bufferOf [] lines).Sublist (join newline lines) := by
  induction lines using List.reverseRecOn with
  | nil => exact List.nil_sublist _
  | append_singleton lines line ih =>
      have hstart : (startOf (bufferOf [] lines) ++ line).Sublist
          (join newline (lines ++ [line])) := by
        rw [join_append_singleton, startOf]
        split
        · split
          · exact List.Sublist.refl _
          · exact (List.sublist_cons_self newline line).trans (List.sublist_append_right _ _)
        · next hne =>
            rw [if_neg fun hnil => hne (by rw [hnil]; rfl), List.append_assoc,
              List.singleton_append]
            exact ih.append (List.Sublist.refl _)
      rw [bufferOf_append_singleton, storeLine]
      split
      · exact hstart
      · exact (List.sublist_append_left _ _).trans hstart

theorem isBlank_newline : isBlank newline = true := rfl

theorem isBlank_of_mem_join (h : ¬ ∃ l ∈ lines, HasText l) :
    ∀ c ∈ join newline lines, isBlank c = true := by
  induction lines using List.reverseRecOn with
  | nil => exact fun c hc => absurd hc List.not_mem_nil
  | append_singleton lines line ih =>
      have hline : ∀ c ∈ line, isBlank c = true := fun c hc => by
        by_contra hblank
        exact h ⟨line, by simp, c, hc, hblank⟩
      have hlines := ih fun ⟨l, hl, htext⟩ => h ⟨l, List.mem_append_left _ hl, htext⟩
      intro c hc
      rw [join_append_singleton] at hc
      split at hc
      · exact hline c hc
      · rcases List.mem_append.mp hc with hc | hc
        · exact hlines c hc
        · rcases List.mem_cons.mp hc with rfl | hc
          · exact isBlank_newline
          · exact hline c hc

theorem dropWhile_append_congr {α : Type} {p : α → Bool} {l l' : List α}
    (h : l.dropWhile p = l'.dropWhile p) (s : List α) :
    (l ++ s).dropWhile p = (l' ++ s).dropWhile p := by
  rw [List.dropWhile_append, List.dropWhile_append, h]

theorem dropWhile_bufferOf (h : ∀ front line back, lines = front ++ line :: back → line ≠ [] →
      (∃ l ∈ front ++ [line], HasText l) →
        lineStart (usedBytes front) + line.length < contentSize - 1) :
    (bufferOf [] lines).dropWhile isBlank = (join newline lines).dropWhile isBlank := by
  induction lines using List.reverseRecOn with
  | nil => rfl
  | append_singleton lines line ih =>
      have hlines := ih fun front l back hsplit => h front l (back ++ [line]) (by
        rw [hsplit, List.append_assoc, List.cons_append])
      by_cases hblank : ¬ ∃ l ∈ lines ++ [line], HasText l
      · have hjoin := isBlank_of_mem_join hblank
        rw [List.dropWhile_eq_nil_iff.mpr hjoin, List.dropWhile_eq_nil_iff.mpr
          fun c hc => hjoin c ((bufferOf_sublist_join _).mem hc)]
      · -- the line is added in full
        have hfits : storeLine (bufferOf [] lines) line = startOf (bufferOf [] lines) ++ line := by
          by_cases hnil : line = []
          · rw [hnil, storeLine, List.append_nil, ite_self]
          · rw [storeLine, if_pos]
            rw [length_startOf, length_bufferOf]
            exact h lines line [] rfl hnil (not_not.mp hblank)
        rw [bufferOf_append_singleton, hfits, join_append_singleton]
        split
        · next hnil => rw [hnil]; rfl
        · rw [← List.singleton_append, ← List.append_assoc]
          refine dropWhile_append_congr ?_ line
          rw [startOf]
          split
          · next hempty =>
              rw [hempty, List.dropWhile_nil] at hlines
              rw [List.dropWhile_append_of_pos (List.dropWhile_eq_nil_iff.mp hlines.symm)]
              rfl
          · exact dropWhile_append_congr hlines [newline]

theorem textOf_append_blank (lines : List CStr) (h : ¬ HasText line) :
    textOf (lines ++ [line]) = textOf lines := by
  have hline : ∀ c ∈ line, isBlank c = true := fun c hc => by
    by_contra hblank
    exact h ⟨c, hc, hblank⟩
  rw [textOf, join_append_singleton]
  split
  · next hnil => rw [hnil]; exact trim_of_all hline
  · exact trim_append_right fun c hc => (List.mem_cons.mp hc).elim
      (fun heq => by rw [heq, isBlank_newline]) (hline c)

theorem trim_storeLine_blank (content : CStr) (h : ¬ HasText line) :
    trim isBlank (storeLine content line) = trim isBlank content := by
  have hline : ∀ c ∈ line, isBlank c = true := fun c hc => by
    by_contra hblank
    exact h ⟨c, hc, hblank⟩
  have hstart : trim isBlank (startOf content) = trim isBlank content := by
    rw [startOf]
    split
    · next hnil => rw [hnil]
    · exact trim_append_right fun c hc => by rw [List.mem_singleton.mp hc, isBlank_newline]
  rw [storeLine]
  split
  · rw [trim_append_right hline, hstart]
  · exact hstart

theorem KeepsLines.of_append (h : KeepsLines (lines ++ [line])) : KeepsLines lines := by
  rintro front l back rfl hne hfront ⟨l', hl', htext⟩
  exact h front l (back ++ [line]) (by rw [List.append_assoc, List.cons_append]) hne hfront
    ⟨l', by rw [← List.cons_append]; exact List.mem_append_left _ hl', htext⟩

theorem keepsLines_iff (lines : List CStr) :
    trim isBlank (bufferOf [] lines) = textOf lines ↔ KeepsLines lines := by
  constructor
  · rintro heq front line back rfl hne ⟨l₁, hl₁, htext₁⟩ ⟨l₂, hl₂, htext₂⟩
    by_contra hfits
    -- without the line the buffer is the same, but the text is shorter
    rw [← length_bufferOf, ← length_startOf] at hfits
    have hbuffer : bufferOf [] (front ++ line :: back) = bufferOf [] (front ++ [] :: back) := by
      rw [bufferOf_append_cons, bufferOf_append_cons, storeLine_of_not_fits hfits]
    obtain ⟨a, b, hjoin, ha, hb⟩ := exists_join_append_cons newline front back
    have hle := (trim_sublist_trim (p := isBlank)
      (bufferOf_sublist_join (front ++ [] :: back))).length_le
    rw [← hbuffer, heq, textOf, hjoin, hjoin, List.nil_append] at hle
    refine absurd hle (not_le.mpr (length_trim_lt hne ?_ ?_))
    · obtain ⟨c, hc, hblank⟩ := htext₁
      refine ⟨c, ?_, hblank⟩
      rcases List.mem_append.mp hl₁ with hl₁ | hl₁
      · exact List.mem_append_left _ (ha l₁ hl₁ hc)
      · exact List.mem_append_right _ (List.mem_singleton.mp hl₁ ▸ hc)
    · obtain ⟨c, hc, hblank⟩ := htext₂
      refine ⟨c, ?_, hblank⟩
      rcases List.mem_cons.mp hl₂ with rfl | hl₂
      · exact List.mem_append_left _ hc
      · exact List.mem_append_right _ (hb l₂ hl₂ hc)
  · intro hkeeps
    induction lines using List.reverseRecOn with
    | nil => rfl
    | append_singleton lines line ih =>
        by_cases htext : HasText line
        · have hdrop := dropWhile_bufferOf fun front l back hsplit hne hfront =>
            hkeeps front l back hsplit hne hfront ?_
          · rw [← trim_dropWhile, hdrop, trim_dropWhile, textOf]
          · -- the last line is at `l` or behind it
            refine ⟨line, ?_, htext⟩
            have hlast := congrArg List.getLast? hsplit
            rw [List.getLast?_append_of_ne_nil _ (List.cons_ne_nil l back),
              List.getLast?_append_of_ne_nil _ (List.cons_ne_nil line [])] at hlast
            exact List.mem_of_getLast? hlast.symm
        · rw [bufferOf_append_singleton, trim_storeLine_blank _ htext, textOf_append_blank _ htext]
          exact ih hkeeps.of_append

end Keeps

end Adr
end CodebaseMemory
