import CodebaseMemory.Lib.Cursor
import CodebaseMemory.Cypher.Parser
import CodebaseMemory.Adr.Document
import CodebaseMemory.CrossRepo.Match

/-!
# Texts in buffers of a fixed size

Where `parse_unwind_clause` (`src/cypher/cypher.c`), `adr_append_line`, `adr_render_section` and
`cbm_adr_render` (`src/store/store.c`) and `build_cross_props` (`src/pipeline/pass_cross_repo.c`)
write into their buffers.  Each of them moves on by the length of the text that it wants to
write, and only `adr_append_line` asks for room, for the line but not for the newline before
it.
-/

namespace CodebaseMemory
namespace Foundation

open Lib
open Sqlite (CStr bytesOf)
open Cypher (TokenType unwindText)
open Adr

section Unwind

/-- `sizeof(buf)` of `parse_unwind_clause`. -/
def unwindSize : Nat := 2048

/-- The tokens with which the rounds of the loop begin; `after` a round a comma is passed over. -/
def unwindRounds : Bool → List (Token TokenType) → List (Token TokenType)
  | _, [] => []
  | after, t :: rest =>
      if after ∧ t.type = .tokComma then unwindRounds false rest
      else if t.type = .tokRbracket ∨ t.type = .tokEof then []
      else t :: unwindRounds true rest

/-- What a round prints; a token that is no literal leaves nothing. -/
def unwindLiteral (t : Token TokenType) : CStr :=
  if t.type = .tokString then 34 :: t.text ++ [34]
  else if t.type = .tokNumber then t.text
  else []

def unwindRound (blen : Nat) (t : Token TokenType) : List Put :=
  (if blen > 1 then [.store 1] else []) ++
    if t.type = .tokString ∨ t.type = .tokNumber then [.print (unwindLiteral t).length] else []

/-- The writes of the loop, and those of the bracket and the zero behind it. -/
def unwindPuts : Nat → List (Token TokenType) → List Put
  | _, [] => [.store 1, .store 1]
  | blen, t :: rounds =>
      unwindRound blen t ++ unwindPuts (blen + total (unwindRound blen t)) rounds

/-- The writes of `parse_unwind_clause`, for the tokens behind the opening bracket. -/
def unwindPlaces (tokens : List (Token TokenType)) : List (Nat × Put) :=
  places 1 (unwindPuts 1 (unwindRounds false tokens))

/-- Every write is inside, and what is left for `snprintf` is positive. -/
def UnwindInside (tokens : List (Token TokenType)) : Prop :=
  ∀ w ∈ unwindPlaces tokens, Inside unwindSize w ∧
    ∀ len, w.2 = .print len → 0 < (unwindSize : Int) - w.1

/-- The list as a text, whatever its length. -/
def unwindList (tokens : List (Token TokenType)) : CStr :=
  unwindText ((unwindRounds false tokens).map unwindLiteral)

theorem total_unwindRound (buf : CStr) (t : Token TokenType) :
    buf.length + total (unwindRound buf.length t) =
      ((if buf.length > 1 then buf ++ [44] else buf) ++ unwindLiteral t).length := by
  have hnone : ¬ (t.type = .tokString ∨ t.type = .tokNumber) → unwindLiteral t = [] := by
    intro h
    rw [not_or] at h
    rw [unwindLiteral, if_neg h.1, if_neg h.2]
  rw [unwindRound, total_append, List.length_append]
  by_cases hlit : t.type = .tokString ∨ t.type = .tokNumber
  · rw [if_pos hlit]
    split
    · simp [Put.len]
      omega
    · simp [Put.len]
  · rw [if_neg hlit, hnone hlit]
    split
    · simp [Put.len]
    · rfl

theorem unwindPuts_eq (rounds : List (Token TokenType)) (buf : CStr) :
    ∃ ps, unwindPuts buf.length rounds = ps ++ [.store 1] ∧
      buf.length + total ps = ((rounds.map unwindLiteral).foldl
        (fun buf value => (if buf.length > 1 then buf ++ [44] else buf) ++ value) buf).length +
          1 := by
  induction rounds generalizing buf with
  | nil => exact ⟨[.store 1], rfl, rfl⟩
  | cons t rounds ih =>
      have hround := total_unwindRound buf t
      obtain ⟨ps, hps, htotal⟩ := ih ((if buf.length > 1 then buf ++ [44] else buf) ++
        unwindLiteral t)
      refine ⟨unwindRound buf.length t ++ ps, ?_, ?_⟩
      · rw [unwindPuts, hround, hps, List.append_assoc]
      · rw [total_append, ← Nat.add_assoc, hround, htotal, List.map_cons, List.foldl_cons]

theorem unwindInside_iff (tokens : List (Token TokenType)) :
    UnwindInside tokens ↔ (unwindList tokens).length < unwindSize := by
  obtain ⟨ps, hps, htotal⟩ := unwindPuts_eq (unwindRounds false tokens) [91]
  change unwindPuts 1 _ = _ at hps
  rw [List.length_singleton] at htotal
  have hlen : (unwindList tokens).length = 1 + total ps := by
    rw [htotal, unwindList, unwindText, List.length_append, List.length_singleton]
  have hinside : (∀ w ∈ places 1 (ps ++ [.store 1]), Inside unwindSize w) ↔
      1 + total ps + 1 ≤ unwindSize := inside_stored_iff ps Nat.one_pos
  rw [UnwindInside, unwindPlaces, hps, hlen]
  constructor
  · intro h
    exact hinside.mp fun w hw => (h w hw).1
  · intro h w hw
    refine ⟨hinside.mpr h w hw, fun len hlen => ?_⟩
    rw [places_append] at hw
    rcases List.mem_append.mp hw with hw | hw
    · have hlt := lt_of_mem_places hw h
      omega
    · rw [List.mem_singleton.mp hw] at hlen
      exact absurd hlen (by simp)

end Unwind

section Parse

/-- The length of the content after `adr_append_line`. -/
def appendLen (len : Nat) (line : CStr) : Nat :=
  if lineStart len + line.length < contentSize - 1 then lineStart len + line.length
  else lineStart len

/-- The writes of `adr_append_line`: the newline, and the line with its zero if it fits. -/
def appendPlaces (len : Nat) (line : CStr) : List (Nat × Put) :=
  (if len > 0 then [(len, .store 1)] else []) ++
    if lineStart len + line.length < contentSize - 1 then
      [(lineStart len, .store (line.length + 1))]
    else []

/-- The writes of the loop of `cbm_adr_parse_sections`; `content` is the length of the content of
the current section, if there is one. -/
def parsePlaces : Option Nat → List CStr → List (Nat × Put)
  | _, [] => []
  | content, line :: lines =>
      match adrTrySectionHeader line, content with
      | some _, _ => parsePlaces (some 0) lines
      | none, none => parsePlaces none lines
      | none, some len =>
          if len > 0 ∨ line.length > 0 then
            appendPlaces len line ++ parsePlaces (some (appendLen len line)) lines
          else parsePlaces (some len) lines

/-- `adr_append_line` stays inside of `current_content`. -/
def ParseInside (content : CStr) : Prop :=
  ∀ w ∈ parsePlaces none (splitLines content), Inside contentSize w

/-- Before each of the lines, the content is shorter than the buffer. -/
def KeepsRoom : Nat → List CStr → Prop
  | _, [] => True
  | len, line :: lines => len < contentSize ∧ KeepsRoom (appendLen len line) lines

theorem inside_append_iff (len : Nat) (line : CStr) :
    (∀ w ∈ appendPlaces len line, Inside contentSize w) ↔ len < contentSize := by
  have hline : ∀ w ∈ if lineStart len + line.length < contentSize - 1 then
      [(lineStart len, Put.store (line.length + 1))] else [], Inside contentSize w := by
    split
    · next hfits =>
        intro w hw
        rw [List.mem_singleton.mp hw]
        exact inside_of_le (by rw [Put.needed]; omega)
    · exact fun w hw => absurd hw List.not_mem_nil
  rw [appendPlaces, List.forall_mem_append]
  by_cases hlen : len > 0
  · rw [if_pos hlen, List.forall_mem_singleton, inside_store_iff Nat.one_pos]
    exact ⟨fun h => h.1, fun h => ⟨h, hline⟩⟩
  · rw [if_neg hlen]
    exact ⟨fun _ => by rw [contentSize]; omega,
      fun _ => ⟨fun w hw => absurd hw List.not_mem_nil, hline⟩⟩

theorem inside_parse_iff (lines : List CStr) (content : Option Nat) :
    (∀ w ∈ parsePlaces content lines, Inside contentSize w) ↔
      (∀ len, content = some len → KeepsRoom len (groupLines lines).1) ∧
        ∀ g ∈ (groupLines lines).2, KeepsRoom 0 g.2 := by
  induction lines generalizing content with
  | nil => simp [parsePlaces, groupLines, KeepsRoom]
  | cons line lines ih =>
      cases hheader : adrTrySectionHeader line with
      | some key =>
          rw [groupLines_header hheader, List.forall_mem_cons]
          simp only [parsePlaces, hheader, ih, Option.some.injEq, forall_eq', KeepsRoom, implies_true, true_and]
      | none =>
          rw [groupLines_line hheader]
          cases content with
          | none => simp only [parsePlaces, hheader, ih, reduceCtorEq, false_implies, implies_true, true_and]
          | some len =>
              simp only [parsePlaces, hheader, Option.some.injEq, forall_eq', KeepsRoom]
              split
              · rw [List.forall_mem_append, inside_append_iff, ih]
                simp only [Option.some.injEq, forall_eq', and_assoc]
              · next hempty =>
                  -- nothing is written for an empty line at the beginning
                  have hzero : len = 0 ∧ line.length = 0 := by omega
                  have hsame : appendLen len line = len := by
                    rw [appendLen, hzero.1, hzero.2]
                    rfl
                  have hroom : len < contentSize := by
                    rw [hzero.1, contentSize]
                    omega
                  rw [ih, hsame]
                  simp only [Option.some.injEq, forall_eq', hroom, true_and]

theorem parseInside_iff (content : CStr) :
    ParseInside content ↔ ∀ g ∈ documentSections content, KeepsRoom 0 g.2 := by
  rw [ParseInside, inside_parse_iff]
  exact ⟨fun h => h.2, fun h => ⟨fun len hlen => absurd hlen (by simp), h⟩⟩

end Parse

section Render

/-- The length of `## `, the key, a newline and the value. -/
def sectionLen (s : CStr × CStr) : Nat :=
  s.1.length + s.2.length + 4

/-- The writes of `adr_render_section`. -/
def renderSection (pos : Nat) (s : CStr × CStr) : List Put :=
  (if pos > 0 then [.print 2] else []) ++ [.print (sectionLen s)]

/-- The writes of some of its calls in a row. -/
def renderPuts : Nat → Sections → List Put
  | _, [] => []
  | pos, s :: sections =>
      renderSection pos s ++ renderPuts (pos + total (renderSection pos s)) sections

/-- No write of `cbm_adr_render` is outside, and what is left for `snprintf` is not negative. -/
def RenderInside (sections : Sections) : Prop :=
  ∀ w ∈ places 0 (renderPuts 0 (renderOrder sections)), Inside renderSize w ∧
    ∀ len, w.2 = .print len → 0 ≤ (renderSize : Int) - w.1

/-- The sections before the last one, each with the empty line behind it. -/
def renderedBefore (sections : Sections) : Nat :=
  ((renderOrder sections).dropLast.map fun s => sectionLen s + 2).sum

theorem renderPuts_concat {pos : Nat} (hpos : 0 < pos) (front : Sections) (last : CStr × CStr) :
    ∃ ps, renderPuts pos (front ++ [last]) = ps ++ [.print (sectionLen last)] ∧
      total ps = (front.map fun s => sectionLen s + 2).sum + 2 := by
  induction front generalizing pos with
  | nil =>
      refine ⟨[.print 2], ?_, rfl⟩
      rw [List.nil_append, renderPuts, renderSection, if_pos hpos]
      rfl
  | cons s front ih =>
      have hnext : 0 < pos + total (renderSection pos s) := by omega
      obtain ⟨ps, hps, htotal⟩ := ih hnext
      refine ⟨renderSection pos s ++ ps, ?_, ?_⟩
      · rw [List.cons_append, renderPuts, hps, List.append_assoc]
      · rw [total_append, htotal, List.map_cons, List.sum_cons, renderSection, if_pos hpos]
        simp only [List.cons_append, List.nil_append, total_cons, total_nil, Put.len]
        omega

theorem renderInside_iff (sections : Sections) :
    RenderInside sections ↔ renderedBefore sections ≤ renderSize := by
  have hroom : RenderInside sections ↔
      ∀ w ∈ places 0 (renderPuts 0 (renderOrder sections)), Inside renderSize w := by
    refine ⟨fun h w hw => (h w hw).1, fun h w hw => ⟨h w hw, ?_⟩⟩
    obtain ⟨pos, p⟩ := w
    rintro len rfl
    have hle := (inside_print_iff len).mp (h _ hw)
    dsimp only
    omega
  rw [hroom, renderedBefore]
  rcases List.eq_nil_or_concat' (renderOrder sections) with hnil | ⟨front, last, hlast⟩
  · rw [hnil]
    simp [renderPuts, places]
  · rw [hlast, List.dropLast_concat]
    cases front with
    | nil =>
        simp only [List.nil_append, List.map_nil, List.sum_nil, Nat.zero_le, iff_true]
        exact (inside_printed_iff [] (sectionLen last)).mpr (Nat.zero_le _)
    | cons s front =>
        have hnext : 0 < 0 + total (renderSection 0 s) := by
          simp [renderSection, Put.len, sectionLen]
        obtain ⟨ps, hps, htotal⟩ := renderPuts_concat hnext front last
        rw [List.cons_append, renderPuts, hps, ← List.append_assoc, inside_printed_iff,
          total_append, htotal, List.map_cons, List.sum_cons]
        simp only [renderSection, Nat.lt_irrefl, if_false, List.nil_append, total_cons, total_nil,
          Put.len, gt_iff_lt]
        omega

end Render

section CrossProps

/-- The arguments of `build_cross_props`; `none` is NULL. -/
structure CrossArgs where
  targetProject : Option CStr
  targetFunction : Option CStr
  targetFile : Option CStr
  urlOrChannel : Option CStr
  extraKey : Option CStr
  extraVal : Option CStr

/-- A member behind the first three, if its text is not empty. -/
def crossMember (key : CStr) (value : Option CStr) : List CStr :=
  if value.getD [] = [] then []
  else [bytesOf ",\"" ++ key ++ bytesOf "\":\"" ++ value.getD [] ++ bytesOf "\""]

/-- The texts of the calls of `snprintf` before the last one, which prints the brace. -/
def crossTexts (a : CrossArgs) : List CStr :=
  [bytesOf "\x7b\"target_project\":\"" ++ a.targetProject.getD [] ++
    bytesOf "\",\"target_function\":\"" ++ a.targetFunction.getD [] ++
    bytesOf "\",\"target_file\":\"" ++ a.targetFile.getD [] ++ bytesOf "\""] ++
  crossMember (a.extraKey.getD (bytesOf "url_path")) a.urlOrChannel ++
  crossMember (if a.extraKey.isSome then bytesOf "transport" else bytesOf "method") a.extraVal

/-- No write of `build_cross_props` is outside of the buffer. -/
def CrossPropsInside (bufsz : Nat) (a : CrossArgs) : Prop :=
  ∀ w ∈ places 0 ((crossTexts a).map (fun text => .print text.length) ++ [.print 1]),
    Inside bufsz w

theorem crossPropsInside_iff (bufsz : Nat) (a : CrossArgs) :
    CrossPropsInside bufsz a ↔ (crossTexts a).flatten.length ≤ bufsz := by
  have htotal : total ((crossTexts a).map fun text => .print text.length) =
      (crossTexts a).flatten.length := by
    rw [total, List.map_map, List.length_flatten]
    rfl
  rw [CrossPropsInside, inside_printed_iff, htotal, Nat.zero_add]

end CrossProps

/-- When each of the four stays in its buffer. -/
theorem accumulators_inside_iff (tokens : List (Token TokenType)) (content : CStr)
    (sections : Sections) (bufsz : Nat) (a : CrossArgs) :
    (UnwindInside tokens ↔ (unwindList tokens).length < unwindSize) ∧
      (ParseInside content ↔ ∀ g ∈ documentSections content, KeepsRoom 0 g.2) ∧
      (RenderInside sections ↔ renderedBefore sections ≤ renderSize) ∧
      (CrossPropsInside bufsz a ↔ (crossTexts a).flatten.length ≤ bufsz) :=
  ⟨unwindInside_iff tokens, parseInside_iff content, renderInside_iff sections,
    crossPropsInside_iff bufsz a⟩

def stringList (text : CStr) : List (Token TokenType) :=
  [{ type := .tokString
     text := text
     pos := 8 },
   { type := .tokRbracket
     text := [93]
     pos := text.length + 10 }]

theorem mem_unwindPlaces_stringList (text : CStr) :
    (text.length + 3, .store 1) ∈ unwindPlaces (stringList text) := by
  simp [stringList, unwindPlaces, unwindRounds, unwindPuts, unwindRound, unwindLiteral, places,
    Put.len, Nat.add_comm 1]

/-- With 2048 letters, the bracket is stored at 2051. -/
theorem not_unwindInside_long : ¬ UnwindInside (stringList (List.replicate 2048 97)) := by
  intro h
  have hbracket := (h _ (mem_unwindPlaces_stringList _)).1 0 (Nat.one_pos)
  dsimp only at hbracket
  rw [List.length_replicate, unwindSize] at hbracket
  omega

end Foundation
end CodebaseMemory
