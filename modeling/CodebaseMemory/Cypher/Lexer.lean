import CodebaseMemory.Cypher.Parser
import CodebaseMemory.Lib.Scan

/-!
# The lexer (`src/cypher/cypher.c`, `cbm_lex`)

Each round of `cbm_lex` goes past white space, a comment, a token or one character
that begins no token.

Reading aids:
* A query text has no NUL bytes; its length fits an `int`.
* The character classes and `strcasecmp` are those of the C locale.
-/

namespace CodebaseMemory
namespace Cypher

open Lib
open Sqlite (CStr bytesOf)
open TokenType

def isSpace (c : UInt8) : Bool :=
  c = 32 || (9 ≤ c && c ≤ 13)

def isDigit (c : UInt8) : Bool :=
  48 ≤ c && c ≤ 57

def isAlpha (c : UInt8) : Bool :=
  (65 ≤ c && c ≤ 90) || (97 ≤ c && c ≤ 122)

/-- `isalnum`, or an underscore -/
def isWordByte (c : UInt8) : Bool :=
  isAlpha c || isDigit c || c = 95

/-- The end of a comment between `/*` and `*/`.  Without its end the comment leaves the last
character. -/
def closeComment : CStr → CStr
  | [] => []
  | [c] => [c]
  | c :: d :: rest => if c = 42 ∧ d = 47 then rest else closeComment (d :: rest)

/-- `lex_skip_whitespace_comments`: what is left, if something was skipped -/
def lexSkipWhitespaceComments (c : UInt8) (text : CStr) : Option CStr :=
  if isSpace c then some text
  else
    match text with
    | [] => none
    | d :: rest =>
        if c = 47 ∧ d = 47 then some ((c :: text).dropWhile fun b => b ≠ 10)
        else if c = 45 ∧ d = 45 then some ((c :: text).dropWhile fun b => b ≠ 10)
        else if c = 47 ∧ d = 42 then some (closeComment rest)
        else none

/-- The room in the buffer of a literal, without the zero at its end. -/
def literalRoom : Nat := 4095

/-- The character that a backslash before it stands for. -/
def unescape (c : UInt8) : UInt8 :=
  if c = 110 then 10 else if c = 116 then 9 else c

/-- The loop of `lex_string_literal`: the characters, and what is left -/
def literalChars (quote : UInt8) : CStr → CStr × CStr
  | [] => ([], [])
  | [c] => if c = quote then ([], []) else ([c], [])
  | c :: d :: rest =>
      if c = quote then ([], d :: rest)
      else if c = 92 then
        let behind := literalChars quote rest
        (unescape d :: behind.1, behind.2)
      else
        let behind := literalChars quote (d :: rest)
        (c :: behind.1, behind.2)

def keywords : List (CStr × TokenType) :=
  [(bytesOf "MATCH", tokMatch), (bytesOf "WHERE", tokWhere), (bytesOf "RETURN", tokReturn),
    (bytesOf "ORDER", tokOrder), (bytesOf "BY", tokBy), (bytesOf "LIMIT", tokLimit),
    (bytesOf "AND", tokAnd), (bytesOf "OR", tokOr), (bytesOf "AS", tokAs),
    (bytesOf "DISTINCT", tokDistinct), (bytesOf "COUNT", tokCount),
    (bytesOf "CONTAINS", tokContains), (bytesOf "STARTS", tokStarts), (bytesOf "WITH", tokWith),
    (bytesOf "NOT", tokNot), (bytesOf "ASC", tokAsc), (bytesOf "DESC", tokDesc),
    (bytesOf "ENDS", tokEnds), (bytesOf "IN", tokIn), (bytesOf "IS", tokIs),
    (bytesOf "NULL", tokNullKw), (bytesOf "XOR", tokXor), (bytesOf "SKIP", tokSkip),
    (bytesOf "UNION", tokUnion), (bytesOf "UNWIND", tokUnwind), (bytesOf "SUM", tokSum),
    (bytesOf "AVG", tokAvg), (bytesOf "MIN", tokMinKw), (bytesOf "MAX", tokMaxKw),
    (bytesOf "COLLECT", tokCollect), (bytesOf "toLower", tokTolower),
    (bytesOf "toUpper", tokToupper), (bytesOf "toString", tokTostring),
    (bytesOf "tolower", tokTolower), (bytesOf "toupper", tokToupper),
    (bytesOf "tostring", tokTostring), (bytesOf "CASE", tokCase), (bytesOf "WHEN", tokWhen),
    (bytesOf "THEN", .tokThen), (bytesOf "ELSE", tokElse), (bytesOf "END", tokEnd),
    (bytesOf "OPTIONAL", tokOptional), (bytesOf "CREATE", tokCreate),
    (bytesOf "DELETE", tokDelete), (bytesOf "DETACH", tokDetach), (bytesOf "SET", tokSet),
    (bytesOf "REMOVE", tokRemove), (bytesOf "MERGE", tokMerge), (bytesOf "YIELD", tokYield),
    (bytesOf "CALL", tokCall), (bytesOf "ALL", tokAll), (bytesOf "TRUE", tokTrue),
    (bytesOf "FALSE", tokFalse), (bytesOf "EXISTS", tokExists),
    (bytesOf "MANDATORY", tokMandatory), (bytesOf "FOREACH", tokForeach), (bytesOf "ON", tokOn),
    (bytesOf "ADD", tokAdd), (bytesOf "CONSTRAINT", tokConstraint), (bytesOf "DO", tokDo),
    (bytesOf "DROP", tokDrop), (bytesOf "FOR", tokFor), (bytesOf "FROM", tokFrom),
    (bytesOf "GRAPH", tokGraph), (bytesOf "OF", tokOf), (bytesOf "REQUIRE", tokRequire),
    (bytesOf "SCALAR", tokScalar), (bytesOf "UNIQUE", tokUnique)]

def keywordLookup (word : CStr) : TokenType :=
  match keywords.find? fun kw => word.map lowerByte = kw.1.map lowerByte with
  | some kw => kw.2
  | none => tokIdent

/-- The room for a word in `lex_try_ident`, with the zero at its end. -/
def wordRoom : Nat := 256

/-- A number begins here. -/
def startsNumber (c : UInt8) (text : CStr) : Bool :=
  isDigit c || (c = 46 && text.head?.any isDigit)

/-- The loop of `lex_try_number`; a dot before another one ends the number. -/
def numberChars : CStr → CStr × CStr
  | [] => ([], [])
  | c :: text =>
      if isDigit c || (c = 46 && text.head?.any fun d => d ≠ 46) then
        (c :: (numberChars text).1, (numberChars text).2)
      else ([], c :: text)

def pairs : List (CStr × TokenType) :=
  [(bytesOf "!=", tokNeq), (bytesOf "<>", tokNeq), (bytesOf "=~", tokEqtilde),
    (bytesOf ">=", tokGte), (bytesOf "<=", tokLte), (bytesOf "..", tokDotdot)]

/-- `lex_try_two_char`: the token's text and type -/
def lexTryTwoChar (c : UInt8) (text : CStr) : Option (CStr × TokenType) :=
  match text with
  | [] => none
  | d :: _ => pairs.find? fun pair => pair.1 = [c, d]

def lexSingleChar (c : UInt8) : TokenType :=
  if c = 40 then tokLparen
  else if c = 41 then tokRparen
  else if c = 91 then tokLbracket
  else if c = 93 then tokRbracket
  else if c = 45 then tokDash
  else if c = 62 then tokGt
  else if c = 60 then tokLt
  else if c = 58 then tokColon
  else if c = 46 then tokDot
  else if c = 123 then tokLbrace
  else if c = 125 then tokRbrace
  else if c = 42 then tokStar
  else if c = 44 then tokComma
  else if c = 61 then tokEq
  else if c = 124 then tokPipe
  else tokEof

/-- One round of `cbm_lex` at a place: the token, if there is one, and what is left. -/
def lexStep (pos : Nat) (c : UInt8) (text : CStr) : Option (Token TokenType) × CStr :=
  match lexSkipWhitespaceComments c text with
  | some rest => (none, rest)
  | none =>
      if c = 34 || c = 39 then
        let chars := literalChars c text
        (some { type := tokString, text := chars.1.take literalRoom, pos := pos }, chars.2)
      else if startsNumber c text then
        let chars := numberChars (c :: text)
        (some { type := tokNumber, text := chars.1, pos := pos }, chars.2)
      else if isAlpha c || c = 95 then
        let word := c :: text.takeWhile isWordByte
        (some { type := keywordLookup (word.take (wordRoom - 1)), text := word, pos := pos },
          text.dropWhile isWordByte)
      else
        match lexTryTwoChar c text with
        | some pair => (some { type := pair.2, text := pair.1, pos := pos }, text.tail)
        | none =>
            let type := lexSingleChar c
            if type ≠ tokEof then (some { type := type, text := [c], pos := pos }, text)
            else (none, text)

theorem length_closeComment (text : CStr) : (closeComment text).length ≤ text.length := by
  fun_induction closeComment text with
  | case1 => exact le_refl _
  | case2 c => exact le_refl _
  | case3 c d rest h => exact (Nat.le_succ _).trans (Nat.le_succ _)
  | case4 c d rest h ih => exact ih.trans (Nat.le_succ _)

theorem length_literalChars (quote : UInt8) (text : CStr) :
    (literalChars quote text).2.length ≤ text.length := by
  fun_induction literalChars quote text with
  | case1 => exact le_refl _
  | case2 => exact Nat.zero_le _
  | case3 => exact Nat.zero_le _
  | case4 => exact Nat.le_succ _
  | case5 d rest _ _ ih => exact ih.trans ((Nat.le_succ _).trans (Nat.le_succ _))
  | case6 c d rest _ _ _ ih => exact ih.trans (Nat.le_succ _)

theorem length_numberChars (text : CStr) : (numberChars text).2.length ≤ text.length := by
  fun_induction numberChars text with
  | case1 => exact le_refl _
  | case2 c text _ ih => exact ih.trans (Nat.le_succ _)
  | case3 => exact le_refl _

theorem numberChars_starts {c : UInt8} {text : CStr} (h : startsNumber c text = true) :
    numberChars (c :: text) = (c :: (numberChars text).1, (numberChars text).2) := by
  rw [numberChars, if_pos]
  rw [startsNumber, Bool.or_eq_true, Bool.and_eq_true] at h
  rw [Bool.or_eq_true, Bool.and_eq_true]
  refine h.imp_right fun ⟨hdot, hnext⟩ => ⟨hdot, ?_⟩
  obtain ⟨d, hd, hdigit⟩ := (Option.any_eq_true _ _).mp hnext
  refine (Option.any_eq_true _ _).mpr ⟨d, hd, decide_eq_true ?_⟩
  rintro rfl
  exact absurd hdigit (by decide)

theorem length_skip {c : UInt8} {text rest : CStr}
    (h : lexSkipWhitespaceComments c text = some rest) : rest.length ≤ text.length := by
  have hline : c ≠ 10 → ((c :: text).dropWhile fun b => b ≠ 10).length ≤ text.length := by
    intro hc
    rw [List.dropWhile_cons_of_pos (by simpa using hc)]
    exact (List.dropWhile_suffix _).length_le
  unfold lexSkipWhitespaceComments at h
  split at h
  · exact le_of_eq (congrArg List.length (Option.some.inj h).symm)
  · cases text with
    | nil => cases h
    | cons d text =>
        dsimp only at h
        split at h
        next hc =>
          obtain rfl := Option.some.inj h
          exact hline (by rw [hc.1]; decide)
        split at h
        next hc =>
          obtain rfl := Option.some.inj h
          exact hline (by rw [hc.1]; decide)
        split at h
        · obtain rfl := Option.some.inj h
          exact (length_closeComment text).trans (Nat.le_succ _)
        · cases h

theorem length_lexStep (pos : Nat) (c : UInt8) (text : CStr) :
    (lexStep pos c text).2.length ≤ text.length := by
  unfold lexStep
  split
  next rest h => exact length_skip h
  split
  next => exact length_literalChars c text
  split
  next hnum =>
    dsimp only
    rw [numberChars_starts hnum]
    exact length_numberChars text
  split
  next => exact (List.dropWhile_suffix _).length_le
  split
  next =>
    dsimp only
    rw [List.length_tail]
    exact Nat.sub_le _ _
  dsimp only
  split <;> exact le_refl _

/-- The loop of `cbm_lex`. -/
def lexer : Scanner UInt8 (Token TokenType) where
  step := lexStep
  shorter := length_lexStep

def cbmLex (input : CStr) : List (Token TokenType) :=
  lexer.run 0 input ++ [{ type := tokEof, text := [], pos := input.length }]

end Cypher
end CodebaseMemory
