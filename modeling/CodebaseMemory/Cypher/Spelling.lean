import CodebaseMemory.Cypher.Lexer

/-!
# Written tokens are read back

A list of tokens is written as a text with white space where one likes; it is needed
only between two words, between `<` and `>`, and between two dashes.
-/

namespace CodebaseMemory
namespace Cypher

open Lib
open Sqlite (CStr bytesOf)
open TokenType

structure IsIdent (s : CStr) : Prop where
  head : ∃ c rest, s = c :: rest ∧ (isAlpha c || c = 95) = true
  word : ∀ c ∈ s, isWordByte c = true
  no_keyword : keywordLookup (s.take (wordRoom - 1)) = tokIdent

/-- A character as it stands in a literal. -/
def escapeByte (quote c : UInt8) : CStr :=
  if c = quote ∨ c = 92 then [92, c]
  else if c = 10 then [92, 110]
  else if c = 9 then [92, 116]
  else [c]

/-- A text as a literal, with backslashes before the quote and the backslash, and with escapes
for the newline and the tab. -/
def literal (quote : UInt8) (s : CStr) : CStr :=
  quote :: (s.flatMap (escapeByte quote) ++ [quote])

/-- The characters that are tokens: brackets, `-`, `>`, `<`, `:`, `*`, `,` and `|`. -/
def punctuation : CStr :=
  [40, 41, 91, 93, 123, 125, 45, 62, 60, 58, 42, 44, 124]

/-- The words of a token of this type with this text. -/
inductive Spelling : TokenType → CStr → CStr → Prop
  | punct {c : UInt8} (h : c ∈ punctuation) : Spelling (lexSingleChar c) [c] [c]
  | dotdot : Spelling tokDotdot (bytesOf "..") (bytesOf "..")
  | ident {s : CStr} (h : IsIdent s) : Spelling tokIdent s s
  | number {s : CStr} (hne : s ≠ []) (h : ∀ c ∈ s, isDigit c = true) : Spelling tokNumber s s
  | string {quote : UInt8} {s : CStr} (hquote : quote = 34 ∨ quote = 39)
      (hroom : s.length ≤ literalRoom) : Spelling tokString s (literal quote s)

/-- Identifiers and numbers. -/
def IsWord (k : TokenType) : Prop :=
  k = tokIdent ∨ k = tokNumber

/-- What can stand right behind the word of a token. -/
structure Clear (k : TokenType) (rest : CStr) : Prop where
  eq : rest.head? ≠ some 61
  gt : k = tokLt → rest.head? ≠ some 62
  dash : k = tokDash → rest.head? ≠ some 45
  word : IsWord k → ∀ c ∈ rest.head?, isWordByte c = false
  dot : rest.head? = some 46 → rest.tail.head? = some 46

section Literals

variable {quote : UInt8}

theorem literalChars_quote (text : CStr) : literalChars quote (quote :: text) = ([], text) := by
  cases text with
  | nil => rw [literalChars, if_pos rfl]
  | cons d text => rw [literalChars, if_pos rfl]

theorem literalChars_plain {c : UInt8} (hquote : c ≠ quote) (hback : c ≠ 92) (text : CStr) :
    literalChars quote (c :: text) =
      (c :: (literalChars quote text).1, (literalChars quote text).2) := by
  cases text with
  | nil => exact if_neg hquote
  | cons d text => rw [literalChars, if_neg hquote, if_neg hback]

theorem literalChars_escaped (hquote : 92 ≠ quote) (c : UInt8) (text : CStr) :
    literalChars quote (92 :: c :: text) =
      (unescape c :: (literalChars quote text).1, (literalChars quote text).2) := by
  rw [literalChars, if_neg hquote, if_pos rfl]

theorem literalChars_literal (hquote : quote = 34 ∨ quote = 39) (s rest : CStr) :
    literalChars quote (s.flatMap (escapeByte quote) ++ quote :: rest) = (s, rest) := by
  have hback : 92 ≠ quote := by
    rcases hquote with rfl | rfl <;> decide
  have hplain : unescape quote = quote := by
    rcases hquote with rfl | rfl <;> decide
  induction s with
  | nil => exact literalChars_quote rest
  | cons c s ih =>
      rw [List.flatMap_cons, List.append_assoc, escapeByte]
      split
      next hc =>
        have hsame : unescape c = c := by
          rcases hc with rfl | rfl
          · exact hplain
          · rfl
        rw [List.cons_append, List.singleton_append, literalChars_escaped hback, ih, hsame]
      next hc =>
        obtain ⟨hcquote, hcback⟩ := not_or.mp hc
        split
        next hnewline =>
          rw [List.cons_append, List.singleton_append, literalChars_escaped hback, ih, hnewline]
          rfl
        split
        next htab =>
          rw [List.cons_append, List.singleton_append, literalChars_escaped hback, ih, htab]
          rfl
        next => rw [List.singleton_append, literalChars_plain hcquote hcback, ih]

theorem lexStep_literal (hquote : quote = 34 ∨ quote = 39) (s rest : CStr) (pos : Nat) :
    lexStep pos quote (s.flatMap (escapeByte quote) ++ [quote] ++ rest) =
      (some { type := tokString, text := s.take literalRoom, pos := pos }, rest) := by
  have hskip : ∀ text, lexSkipWhitespaceComments quote text = none := by
    intro text
    rcases hquote with rfl | rfl <;> cases text <;> rfl
  have hq : (quote = 34 || quote = 39) = true := by
    rcases hquote with rfl | rfl <;> rfl
  rw [List.append_assoc, List.singleton_append, lexStep, hskip]
  dsimp only
  rw [if_pos hq, literalChars_literal hquote]

theorem cbmLex_literal (hquote : quote = 34 ∨ quote = 39) (s : CStr) :
    cbmLex (literal quote s) =
      [{ type := tokString, text := s.take literalRoom, pos := 0 },
        { type := tokEof, text := [], pos := (literal quote s).length }] := by
  have hstep := lexStep_literal hquote s [] 0
  have hrun := @Scanner.run_word _ _ lexer 0 quote _ [] _ hstep
  rw [List.append_nil] at hrun
  rw [cbmLex, literal, hrun]
  rfl

end Literals

section Words

variable {c : UInt8} {rest : CStr}

theorem lexSkip_eq_none (hspace : isSpace c = false) (hslash : c ≠ 47)
    (hdash : c = 45 → rest.head? ≠ some 45) : lexSkipWhitespaceComments c rest = none := by
  unfold lexSkipWhitespaceComments
  rw [hspace, if_neg Bool.false_ne_true]
  cases rest with
  | nil => rfl
  | cons d rest =>
      dsimp only
      rw [if_neg fun h => hslash h.1, if_neg, if_neg fun h => hslash h.1]
      rintro ⟨hc, rfl⟩
      exact hdash hc rfl

theorem isSpace_word (hc : isWordByte c = true) : isSpace c = false := by
  rw [isSpace, Bool.or_eq_false_iff, Bool.and_eq_false_iff]
  constructor
  · refine decide_eq_false ?_
    rintro rfl
    exact absurd hc (by decide)
  · simp only [isWordByte, isAlpha, isDigit, UInt8.le_iff_toNat_le, Bool.or_eq_true,
      Bool.and_eq_true, decide_eq_true_eq] at hc
    refine Or.inr (decide_eq_false ?_)
    rw [UInt8.le_iff_toNat_le]
    rcases hc with (hc | hc) | rfl
    · rcases hc with hc | hc
      · exact fun h => absurd (hc.1.trans h) (by decide)
      · exact fun h => absurd (hc.1.trans h) (by decide)
    · exact fun h => absurd (hc.1.trans h) (by decide)
    · decide

theorem lexSkip_word (hc : isWordByte c = true) (rest : CStr) :
    lexSkipWhitespaceComments c rest = none := by
  refine lexSkip_eq_none (isSpace_word hc) ?_ ?_
  · rintro rfl
    exact absurd hc (by decide)
  · rintro rfl
    exact absurd hc (by decide)

theorem not_quote_word (hc : isWordByte c = true) : (c = 34 || c = 39) = false := by
  rw [Bool.or_eq_false_iff]
  constructor
  · refine decide_eq_false ?_
    rintro rfl
    exact absurd hc (by decide)
  · refine decide_eq_false ?_
    rintro rfl
    exact absurd hc (by decide)

theorem isWordByte_digit (hc : isDigit c = true) : isWordByte c = true := by
  rw [isWordByte, hc, Bool.or_true, Bool.true_or]

theorem isWordByte_start (hc : (isAlpha c || c = 95) = true) : isWordByte c = true := by
  rw [isWordByte, Bool.or_right_comm, hc, Bool.true_or]

theorem isDigit_start (hc : (isAlpha c || c = 95) = true) : isDigit c = false := by
  rw [isDigit, Bool.and_eq_false_iff]
  simp only [isAlpha, UInt8.le_iff_toNat_le, Bool.or_eq_true, Bool.and_eq_true,
    decide_eq_true_eq] at hc
  refine Or.inr (decide_eq_false ?_)
  rw [UInt8.le_iff_toNat_le]
  rcases hc with (hc | hc) | rfl
  · exact fun h => absurd (hc.1.trans h) (by decide)
  · exact fun h => absurd (hc.1.trans h) (by decide)
  · decide

theorem span_word {w : CStr} (hw : ∀ c ∈ w, isWordByte c = true)
    (hrest : ∀ c ∈ rest.head?, isWordByte c = false) :
    (w ++ rest).takeWhile isWordByte = w ∧ (w ++ rest).dropWhile isWordByte = rest := by
  rw [List.takeWhile_append_of_pos hw, List.dropWhile_append_of_pos hw]
  cases rest with
  | nil => exact ⟨List.append_nil w, rfl⟩
  | cons d rest =>
      have hd : ¬ isWordByte d = true := Bool.eq_false_iff.mp (hrest d rfl)
      rw [List.takeWhile_cons_of_neg hd, List.dropWhile_cons_of_neg hd, List.append_nil]
      exact ⟨rfl, rfl⟩

theorem numberChars_digits {s : CStr} (h : ∀ c ∈ s, isDigit c = true)
    (hword : ∀ c ∈ rest.head?, isWordByte c = false)
    (hdot : rest.head? = some 46 → rest.tail.head? = some 46) :
    numberChars (s ++ rest) = (s, rest) := by
  induction s with
  | nil =>
      cases rest with
      | nil => rfl
      | cons d rest =>
          have hdigit : isDigit d = false := by
            by_contra hd
            exact absurd (isWordByte_digit (Bool.not_eq_false _ ▸ hd))
              (Bool.eq_false_iff.mp (hword d rfl))
          rw [List.nil_append, numberChars, hdigit, Bool.false_or, if_neg]
          rw [Bool.and_eq_true, decide_eq_true_eq]
          rintro ⟨rfl, hnext⟩
          have htwo : rest.head? = some 46 := hdot rfl
          rw [htwo] at hnext
          exact absurd hnext (by decide)
  | cons c s ih =>
      obtain ⟨hc, hs⟩ := List.forall_mem_cons.mp h
      rw [List.cons_append, numberChars, hc, Bool.true_or, if_pos rfl, ih hs]

theorem lexTryTwoChar_eq_none (h33 : c ≠ 33) (h61 : c ≠ 61) (h46 : c ≠ 46)
    (heq : rest.head? ≠ some 61) (hgt : c = 60 → rest.head? ≠ some 62) :
    lexTryTwoChar c rest = none := by
  cases rest with
  | nil => rfl
  | cons d rest =>
      have hd : d ≠ 61 := fun h => heq (congrArg some h)
      have hlt : ¬ (60 = c ∧ 62 = d) := fun h => hgt h.1.symm (congrArg some h.2.symm)
      have hpairs : pairs = [([33, 61], tokNeq), ([60, 62], tokNeq), ([61, 126], tokEqtilde),
          ([62, 61], tokGte), ([60, 61], tokLte), ([46, 46], tokDotdot)] := by decide
      rw [lexTryTwoChar, hpairs, List.find?_eq_none]
      simp [h33.symm, h61.symm, h46.symm, hd.symm, hlt]

theorem punctuation_byte (h : c ∈ punctuation) :
    isSpace c = false ∧ isDigit c = false ∧ (isAlpha c || c = 95) = false ∧
      (c = 34 || c = 39) = false ∧ c ≠ 47 ∧ c ≠ 33 ∧ c ≠ 61 ∧ c ≠ 46 ∧
      lexSingleChar c ≠ tokEof := by
  simp only [punctuation, List.mem_cons, List.not_mem_nil, or_false] at h
  rcases h with rfl | rfl | rfl | rfl | rfl | rfl | rfl | rfl | rfl | rfl | rfl | rfl | rfl <;>
    decide

theorem lexStep_word {k : TokenType} {s w : CStr} (h : Spelling k s w) (hclear : Clear k rest)
    (pos : Nat) :
    ∃ c w', w = c :: w' ∧
      lexStep pos c (w' ++ rest) = (some { type := k, text := s, pos := pos }, rest) := by
  cases h with
  | @punct c h =>
      refine ⟨c, [], rfl, ?_⟩
      obtain ⟨hspace, hdigit, halpha, hquote, h47, h33, h61, h46, hsingle⟩ := punctuation_byte h
      have hskip : lexSkipWhitespaceComments c rest = none :=
        lexSkip_eq_none hspace h47 fun hc => hclear.dash (by rw [hc]; rfl)
      have htwo : lexTryTwoChar c rest = none :=
        lexTryTwoChar_eq_none h33 h61 h46 hclear.eq fun hc => hclear.gt (by rw [hc]; rfl)
      have hnumber : startsNumber c rest = false := by
        rw [startsNumber, hdigit, decide_eq_false h46]
        rfl
      rw [List.nil_append, lexStep, hskip]
      dsimp only
      rw [hquote, hnumber, halpha, htwo]
      exact if_pos hsingle
  | dotdot => exact ⟨46, [46], by decide, rfl⟩
  | @ident s h =>
      obtain ⟨⟨c, w, rfl, hstart⟩, hword, hkeyword⟩ := h
      obtain ⟨hc, hw⟩ := List.forall_mem_cons.mp hword
      refine ⟨c, w, rfl, ?_⟩
      have hnumber : startsNumber c (w ++ rest) = false := by
        rw [startsNumber, isDigit_start hstart, decide_eq_false, Bool.false_and, Bool.or_false]
        rintro rfl
        exact absurd hc (by decide)
      obtain ⟨htake, hdrop⟩ := span_word hw (hclear.word (Or.inl rfl))
      rw [lexStep, lexSkip_word hc]
      dsimp only
      rw [not_quote_word hc, hnumber, hstart, htake, hdrop, hkeyword]
      rfl
  | @number s hne h =>
      obtain ⟨c, w, rfl⟩ := List.exists_cons_of_ne_nil hne
      obtain ⟨hc, hw⟩ := List.forall_mem_cons.mp h
      have hchars := numberChars_digits h (hclear.word (Or.inr rfl)) hclear.dot
      refine ⟨c, w, rfl, ?_⟩
      rw [lexStep, lexSkip_word (isWordByte_digit hc)]
      dsimp only
      rw [not_quote_word (isWordByte_digit hc), startsNumber, hc, ← List.cons_append, hchars]
      rfl
  | @string quote s hquote hroom =>
      refine ⟨_, _, rfl, ?_⟩
      rw [lexStep_literal hquote, List.take_of_length_le hroom]

end Words

/-- Without white space the second token would go on with the first one. -/
def NeedsGap (k k' : TokenType) : Prop :=
  (k = tokDash ∧ k' = tokDash) ∨ (k = tokLt ∧ k' = tokGt) ∨ (IsWord k ∧ IsWord k')

/-- The texts of a list of tokens that stands at a place, with white space where one likes and
where it is needed. -/
inductive Writes : Nat → List (Token TokenType) → CStr → Prop
  | nil {pos : Nat} {gap : CStr} (hgap : ∀ c ∈ gap, isSpace c = true) : Writes pos [] gap
  | cons {pos : Nat} {gap w text : CStr} {t : Token TokenType} {toks : List (Token TokenType)}
      (hgap : ∀ c ∈ gap, isSpace c = true) (hpos : t.pos = pos + gap.length)
      (hw : Spelling t.type t.text w) (h : Writes (t.pos + w.length) toks text)
      (hapart : ∀ t' ∈ toks.head?, NeedsGap t.type t'.type →
        ∃ c ∈ text.head?, isSpace c = true) : Writes pos (t :: toks) (gap ++ (w ++ text))

section Texts

variable {k k' : TokenType} {rest : CStr}

theorem Writes.next {t : Token TokenType} {toks : List (Token TokenType)} {w text : CStr}
    (hw : Spelling t.type t.text w) (h : Writes (t.pos + w.length) toks text)
    (hapart : ∀ t' ∈ toks.head?, ¬ NeedsGap t.type t'.type) :
    Writes t.pos (t :: toks) (w ++ text) :=
  @Writes.cons t.pos [] w text t toks (by simp) rfl hw h fun t' ht hneeds => absurd hneeds (hapart t' ht)

theorem clear_nil (k : TokenType) : Clear k [] where
  eq := by simp
  gt := by simp
  dash := by simp
  word := by simp
  dot := by simp

theorem clear_space {c : UInt8} (hc : isSpace c = true) (k : TokenType) (text : CStr) :
    Clear k (c :: text) where
  eq h := by
    obtain rfl := Option.some.inj h
    exact absurd hc (by decide)
  gt _ h := by
    obtain rfl := Option.some.inj h
    exact absurd hc (by decide)
  dash _ h := by
    obtain rfl := Option.some.inj h
    exact absurd hc (by decide)
  word _ d hd := by
    obtain rfl := Option.some.inj hd
    by_contra hword
    exact absurd hc (Bool.eq_false_iff.mp (isSpace_word (Bool.not_eq_false _ ▸ hword)))
  dot h := by
    obtain rfl := Option.some.inj h
    exact absurd hc (by decide)

theorem Spelling.start {s w : CStr} (h : Spelling k s w) :
    ∃ c w', w = c :: w' ∧ c ≠ 61 ∧ (c = 62 → k = tokGt) ∧ (c = 45 → k = tokDash) ∧
      (isWordByte c = true → IsWord k) ∧ (c = 46 → w'.head? = some 46) := by
  have hword : ∀ c : UInt8, isWordByte c = true → c ≠ 61 ∧ c ≠ 62 ∧ c ≠ 45 ∧ c ≠ 46 := by
    intro c hc
    refine ⟨?_, ?_, ?_, ?_⟩ <;>
      · rintro rfl
        exact absurd hc (by decide)
  cases h with
  | @punct c h =>
      obtain ⟨-, hdigit, halpha, -, -, -, h61, h46, -⟩ := punctuation_byte h
      refine ⟨c, [], rfl, h61, fun hc => by rw [hc]; rfl, fun hc => by rw [hc]; rfl,
        fun hc => ?_, fun hc => absurd hc h46⟩
      rw [isWordByte, Bool.or_right_comm, halpha, hdigit] at hc
      cases hc
  | dotdot =>
      exact ⟨46, [46], by decide, by decide, by decide, by decide,
        fun hc => absurd hc (by decide), fun _ => rfl⟩
  | ident h =>
      obtain ⟨⟨c, w, rfl, hstart⟩, -, -⟩ := h
      obtain ⟨h61, h62, h45, h46⟩ := hword c (isWordByte_start hstart)
      exact ⟨c, w, rfl, h61, fun hc => absurd hc h62, fun hc => absurd hc h45,
        fun _ => Or.inl rfl, fun hc => absurd hc h46⟩
  | number hne h =>
      obtain ⟨c, w, rfl⟩ := List.exists_cons_of_ne_nil hne
      obtain ⟨h61, h62, h45, h46⟩ := hword c (isWordByte_digit (h c List.mem_cons_self))
      exact ⟨c, w, rfl, h61, fun hc => absurd hc h62, fun hc => absurd hc h45,
        fun _ => Or.inr rfl, fun hc => absurd hc h46⟩
  | @string quote s hquote hroom =>
      refine ⟨quote, _, rfl, ?_, ?_, ?_, ?_, ?_⟩
      all_goals rcases hquote with rfl | rfl
      all_goals first
        | decide
        | exact fun hc => absurd hc (by decide)

theorem clear_word {s w : CStr} (h : Spelling k' s w) (hgap : ¬ NeedsGap k k') (text : CStr) :
    Clear k (w ++ text) := by
  obtain ⟨c, w', rfl, h61, h62, h45, hword, h46⟩ := h.start
  refine ⟨fun hc => h61 (Option.some.inj hc), fun hk hc => ?_, fun hk hc => ?_,
    fun hk d hd => ?_, fun hc => ?_⟩
  · exact hgap (Or.inr (Or.inl ⟨hk, h62 (Option.some.inj hc)⟩))
  · exact hgap (Or.inl ⟨hk, h45 (Option.some.inj hc)⟩)
  · obtain rfl := Option.some.inj hd
    by_contra hc
    exact hgap (Or.inr (Or.inr ⟨hk, hword (Bool.not_eq_false _ ▸ hc)⟩))
  · obtain ⟨u, hu⟩ := List.head?_eq_some_iff.mp (h46 (Option.some.inj hc))
    rw [hu]
    rfl

theorem Writes.clear {pos : Nat} {toks : List (Token TokenType)} {text : CStr}
    (h : Writes pos toks text)
    (hapart : ∀ t' ∈ toks.head?, NeedsGap k t'.type → ∃ c ∈ text.head?, isSpace c = true) :
    Clear k text := by
  cases h with
  | nil hgap =>
      cases text with
      | nil => exact clear_nil k
      | cons c text => exact clear_space (hgap c List.mem_cons_self) k text
  | @cons _ gap w text t toks hgap _ hw _ _ =>
      cases gap with
      | cons c gap => exact clear_space (hgap c List.mem_cons_self) k _
      | nil =>
          by_cases hneeds : NeedsGap k t.type
          · obtain ⟨c, hc, hspace⟩ := hapart t rfl hneeds
            obtain ⟨text', htext⟩ := List.head?_eq_some_iff.mp hc
            rw [htext]
            exact clear_space hspace k text'
          · exact clear_word hw hneeds text

theorem run_writes {pos : Nat} {toks : List (Token TokenType)} {text : CStr}
    (h : Writes pos toks text) : lexer.run pos text = toks := by
  have hskip : ∀ gap : CStr, (∀ c ∈ gap, isSpace c = true) → ∀ c ∈ gap, ∀ pos text,
      lexer.step pos c text = (none, text) := by
    intro gap hgap c hc pos text
    have hspace : lexSkipWhitespaceComments c text = some text := by
      unfold lexSkipWhitespaceComments
      exact if_pos (hgap c hc)
    change lexStep pos c text = _
    rw [lexStep, hspace]
  induction h with
  | @nil pos gap hgap =>
      rw [← List.append_nil gap, Scanner.run_gap (hskip gap hgap), Scanner.run_nil]
  | @cons pos gap w text t toks hgap hpos hw h hapart ih =>
      obtain ⟨c, w', rfl, hstep⟩ := lexStep_word hw (h.clear hapart) t.pos
      rw [Scanner.run_gap (hskip gap hgap), ← hpos, Scanner.run_word hstep, ih]

theorem cbmLex_writes {toks : List (Token TokenType)} {text : CStr} (h : Writes 0 toks text) :
    cbmLex text = toks ++ [{ type := tokEof, text := [], pos := text.length }] := by
  rw [cbmLex, run_writes h]

end Texts

end Cypher
end CodebaseMemory
