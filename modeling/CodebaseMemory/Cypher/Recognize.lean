import CodebaseMemory.Cypher.Grammar

/-!
# What the parts of the parser read

For each function of the parser the language of the grammar that it reads: a run
that succeeds without a slip has read a word of it, and its words are read without
a slip if no token follows that the function would take for its own.
-/

namespace CodebaseMemory
namespace Cypher

open Lib
open Lib.Parser (startsAs isTok)
open Computability
open TokenType

variable {N : Nat} {ok : List (Token TokenType) → Prop}

theorem parses_prop : Parses N parseProp propL (Avoids [.tokComma]) := by
  have h : Parses N parseProp
      (tok tokIdent * (tok tokColon * (tok tokString * opt (tok tokComma))))
      (Avoids [.tokComma]) :=
    .expect_bind fun _ => .expect_bind fun _ => .expect_bind fun _ => Parses.optional.map
  simpa only [propL, mul_assoc] using h

/-- The loop before a closing token ends there. -/
def AtClose (close : TokenType) (r : List (Token TokenType)) : Prop :=
  notYet close r = false

variable {ks : List TokenType}
variable {close : TokenType}

theorem AtClose.avoids {r : List (Token TokenType)} (h : AtClose close r) (hclose : close ∉ ks)
    (heof : TokenType.tokEof ∉ ks) : Avoids ks r := by
  intro t ht
  cases r with
  | nil => cases ht
  | cons u r =>
      obtain rfl : u = t := Option.some.inj ht
      have hkind : ¬ (u.type ≠ close ∧ u.type ≠ .tokEof) := of_decide_eq_false h
      by_cases hu : u.type = close
      · rwa [hu]
      · have hu' : u.type = .tokEof := by
          by_contra hne
          exact hkind ⟨hu, hne⟩
        rwa [hu']

theorem follows_close {L : Lang} : Follows (tok close * L) ok (AtClose close) := by
  intro v hv r _
  obtain ⟨t, u, ht, -, rfl⟩ := mem_tok_mul.mp hv
  exact decide_eq_false fun h => h.1 ht

theorem follows_close_tok : Follows (tok close) ok (AtClose close) := by
  have h : Follows (tok close * 1) ok (AtClose close) := follows_close
  rwa [mul_one] at h

theorem parses_until {α β : Type} {front : P β} {back : β → P α} {F B : Lang}
    {okF : List (Token TokenType) → Prop} {S : List TokenType} (hfront : Parses N front F okF)
    (hback : ∀ b, Parses N (back b) B (Avoids ks)) (hFB : Follows B (Avoids ks) okF)
    (hS : Begins (F * B) S) (hks : ∀ k ∈ S, k ∉ ks) (hgo : ∀ k ∈ S, k ≠ close ∧ k ≠ .tokEof)
    (hclose : close ∉ ks) (heof : .tokEof ∉ ks) :
    Parses N (Parser.withFuel (Parser.loop (notYet close) front back)) ((F * B)∗)
      (AtClose close) :=
  .loop_begins hfront hback hFB hS hks rfl (fun _ _ ht => decide_eq_true (hgo _ ht))
    fun _ hr => ⟨hr, hr.avoids hclose heof⟩

theorem parses_props_body (N : Nat) : Parses N (do
    let props ← Parser.withFuel (Parser.loop (notYet .tokRbrace) (pure ()) (fun _ => parseProp))
    let _ ← Parser.goOn (expectTok .tokRbrace)
    pure props) (propL∗ * tok tokRbrace) ok := by
  have hS : Begins (1 * propL) [.tokIdent] := by
    rw [one_mul, propL]
    exact .mul (.mul (.mul (.tok (by simp))))
  have hloop : Parses N (Parser.withFuel (Parser.loop (notYet .tokRbrace) (pure ())
      (fun _ => parseProp))) ((1 * propL)∗) (AtClose .tokRbrace) :=
    parses_until (.pure ()) (fun _ => parses_prop) follows_true hS (by decide) (by decide)
      (by decide) (by decide)
  rw [one_mul] at hloop
  exact hloop.bind (fun _ => Parses.expect.goOn.map) follows_close_tok

theorem ifRest_parseProps :
    Parser.ifRest (check .tokLbrace) parseProps (pure []) = parseProps :=
  Parser.ext fun p => by
    cases hc : check .tokLbrace p.rest with
    | true => exact Parser.run_ifRest_pos hc
    | false =>
        rw [Parser.run_ifRest_neg hc]
        exact (Parser.run_ifRest_neg hc).symm

theorem parses_props : Parses N parseProps (opt propsL) (Avoids [.tokLbrace]) := by
  have h : Parses N parseProps (opt (tok tokLbrace * (propL∗ * tok tokRbrace)))
      (Avoids [.tokLbrace]) := .ifMatch_pure fun _ => parses_props_body _
  simpa only [propsL, braces, mul_assoc] using h

/-- What can follow a further label of an alternation after `ll` bytes. -/
def labelRestL (ll : Nat) (t : Token TokenType) : Lang :=
  if ll + 1 + t.text.length ≥ labelRoom then 1 else labelAltsL (ll + 1 + t.text.length)

theorem mem_labelRestL {ll : Nat} {t : Token TokenType} {w : List (Token TokenType)} :
    w ∈ labelRestL ll t ↔
      (w = [] ∨ ll + 1 + t.text.length < labelRoom) ∧ LabelAlts (ll + 1 + t.text.length) w := by
  unfold labelRestL
  split
  · next hfull =>
      constructor
      · rintro rfl
        exact ⟨Or.inl rfl, .nil _⟩
      · rintro ⟨rfl | hroom, -⟩
        · exact Language.nil_mem_one
        · exact absurd hroom (Nat.not_lt.mpr hfull)
  · next hroom => exact ⟨fun hw => ⟨Or.inr (Nat.lt_of_not_le hroom), hw⟩, And.right⟩

theorem labelAltsL_eq (ll : Nat) :
    opt (tok tokPipe * tokThen .tokIdent (labelRestL ll)) = labelAltsL ll := by
  ext w
  constructor
  · rintro (hw | rfl)
    · obtain ⟨pipe, v, hpipe, ⟨alt, u, halt, hu, rfl⟩, rfl⟩ := mem_tok_mul.mp hw
      obtain ⟨hroom, hu⟩ := mem_labelRestL.mp hu
      exact .cons hpipe halt hroom hu
    · exact .nil ll
  · intro hw
    cases hw with
    | nil => exact Or.inr rfl
    | @cons _ pipe alt u hpipe halt hroom hu =>
        refine Or.inl (mem_tok_mul.mpr ⟨pipe, alt :: u, hpipe, ⟨alt, u, halt, ?_, rfl⟩, rfl⟩)
        exact mem_labelRestL.mpr ⟨hroom, hu⟩

theorem parses_labelAlts (n ll : Nat) :
    Parses n (parseLabelAlts n ll) (labelAltsL ll) (Avoids [.tokPipe]) := by
  induction n generalizing ll with
  | zero =>
      refine ⟨?_, fun hlt => absurd hlt (Nat.not_lt_zero _)⟩
      intro p q a hrun _
      obtain ⟨-, rfl⟩ := Prod.mk.inj hrun
      exact ⟨[], .nil ll, rfl⟩
  | succ n ih =>
      rw [← labelAltsL_eq]
      refine .ifMatch (fun _ => .expect_bind_dep fun alt => ?_) (.pure _)
        follows_self
      unfold labelRestL
      split
      · exact .pure _
      · exact (ih _).map

theorem parses_label : Parses N parseLabel labelL (Avoids [.tokPipe]) := by
  refine .expect_bind_dep fun t => Parses.map (.withFuel fun n => ?_)
  exact (parses_labelAlts n _).mono (Nat.min_le_left n N)

theorem parses_node : Parses N parseNode nodeL ok := by
  have h : Parses N parseNode (tok tokLparen * (opt (tok tokIdent) *
      (opt (tok tokColon * labelL) * (opt propsL * tok tokRparen)))) ok := by
    refine .expect_bind fun _ => .bind .ifMatch_value (fun _ => ?_) ?_
    · refine .bind (.ifMatch_pure fun _ => parses_label.map) (fun _ => ?_) ?_
      · rw [ifRest_parseProps]
        exact parses_props.bind (fun _ => Parses.expect.map) (by simp)
      · simp [propsL, braces, mul_assoc]
    · simp [propsL, braces, mul_assoc]
  simpa only [nodeL, parens, mul_assoc] using h

theorem parses_maxHops : Parses N parseMaxHops (opt (tok tokNumber)) (Avoids [.tokNumber]) :=
  .ifMatch_value

theorem parses_hopRange :
    Parses N parseHopRange hopRangeL (Avoids [.tokDotdot, .tokNumber]) := by
  refine .ifMatch (fun _ => ?_) ?_ ?_
  · exact .ifMatch_pure fun _ => parses_maxHops.map
  · exact .ifMatch_pure fun _ => parses_maxHops.map
  · simp

theorem parses_relTypes : Parses N parseRelTypes relTypesL (Avoids [.tokPipe]) :=
  .expect_bind fun _ => (Parses.whileMatch Parses.expect.map (by simp)).map

theorem parses_relBracket :
    Parses N parseRelBracket (relContentL * tok tokRbracket) ok := by
  have h : Parses N parseRelBracket (opt (tok tokIdent) * (opt (tok tokColon * relTypesL) *
      (opt (tok tokStar * hopRangeL) * tok tokRbracket))) ok := by
    refine .bind .ifMatch_value (fun _ => ?_) ?_
    · refine .bind (.ifMatch_pure fun _ => parses_relTypes) (fun _ => ?_) ?_
      · exact .bind (.ifMatch_pure fun _ => parses_hopRange) (fun _ => Parses.expect.map) (by simp)
      · simp [mul_assoc]
    · simp [mul_assoc]
  simpa only [relContentL, mul_assoc] using h

theorem parses_rel : Parses N parseRel relL (Avoids [.tokGt]) := by
  have h : Parses N parseRel (opt (tok tokLt) * (tok tokDash *
      (opt (tok tokLbracket * (relContentL * tok tokRbracket)) *
        (tok tokDash * opt (tok tokGt))))) (Avoids [.tokGt]) := by
    refine .optional_bind (fun _ => .expect_bind fun _ => ?_) (by simp)
    have hbracket : Parses N (Parser.ifMatch .tokLbracket (fun _ => parseRelBracket)
        (pure { var := none, types := [], hops := (1, 1) }))
        (opt (tok tokLbracket * (relContentL * tok tokRbracket))) (Avoids [.tokLbracket]) :=
      .ifMatch_pure fun _ => parses_relBracket
    exact hbracket.bind (fun _ => .expect_bind fun _ => Parses.optional.map) (by simp)
  simpa only [relL, brackets, mul_assoc] using h

theorem begins_relL : Begins relL [.tokLt, .tokDash] := by
  have h : Begins (opt (tok tokLt) * (tok tokDash *
      (opt (brackets relContentL) * (tok tokDash * opt (tok tokGt))))) [.tokLt, .tokDash] :=
    .opt_mul (.tok (by simp)) (.mul (.tok (by simp)))
  simpa only [relL, mul_assoc] using h

theorem parses_step : Parses N parseStep (relL * nodeL) ok :=
  parses_rel.bind (fun _ => parses_node.map) (by simp [nodeL, parens, mul_assoc])

theorem parses_matchPattern :
    Parses N parseMatchPattern patternL (Avoids [.tokDash, .tokLt]) := by
  have hS : Begins (1 * (relL * nodeL)) [.tokLt, .tokDash] := by
    rw [one_mul]
    exact begins_relL.mul
  have hback : ∀ _ : Unit, Parses N parseStep (relL * nodeL) (Avoids []) := fun _ => parses_step
  have hloop : Parses N (Parser.withFuel (Parser.loop
      (startsAs fun t => t.type = .tokDash ∨ t.type = .tokLt) (pure ()) (fun _ => parseStep)))
      ((1 * (relL * nodeL))∗) (Avoids [.tokDash, .tokLt]) := by
    refine .loop_begins (.pure ()) hback follows_true hS (by simp) rfl ?_ ?_
    · intro t _ ht
      simpa [startsAs, or_comm] using ht
    · intro r hr
      refine ⟨?_, fun _ _ => List.not_mem_nil⟩
      cases r with
      | nil => rfl
      | cons t r => simpa [startsAs, avoids_cons] using hr
  rw [one_mul] at hloop
  exact parses_node.bind (fun _ => hloop.map) follows_true

/-- A token that is a value of a list. -/
def isLiteral (t : Token TokenType) : Bool :=
  t.type = .tokString ∨ t.type = .tokNumber

theorem isLiteral_type {t : Token TokenType} (h : isLiteral t = true) :
    t.type ∈ [TokenType.tokString, .tokNumber] := by
  simpa [isLiteral] using h

theorem single_isLiteral : single isLiteral = literalL := by
  ext w
  constructor
  · rintro ⟨t, ht, rfl⟩
    exact (of_decide_eq_true ht).imp (fun h => ⟨t, h, rfl⟩) (fun h => ⟨t, h, rfl⟩)
  · rintro (⟨t, ht, rfl⟩ | ⟨t, ht, rfl⟩)
    · exact ⟨t, decide_eq_true (Or.inl ht), rfl⟩
    · exact ⟨t, decide_eq_true (Or.inr ht), rfl⟩

/-- The values after the first one. -/
def moreValuesL : Lang := (opt (tok tokComma) * literalL)∗ * opt (tok tokComma)

def valuesL : Bool → Lang
  | false => inValuesL
  | true => moreValuesL

theorem valuesL_false : valuesL false = 1 * (literalL * moreValuesL + 1) := by
  rw [one_mul, valuesL, inValuesL, opt, moreValuesL, mul_assoc]

theorem valuesL_true : valuesL true = opt (tok tokComma) * (literalL * moreValuesL + 1) := by
  rw [mul_add, mul_one, ← mul_assoc]
  exact kstar_mul (opt (tok tokComma) * literalL) (opt (tok tokComma))

/-- The comma before a value that is not the first one. -/
def parseInComma (more : Bool) : P Bool :=
  if more then Parser.optional .tokComma else pure false

/-- The rest of a round of `parse_in_list`. -/
def parseInRound (fuel : Nat) : P (List Sqlite.CStr) :=
  Parser.ifRest (startsAs isLiteral)
    (do
      let t ← Parser.advance isLiteral
      let vals ← parseInValues fuel true
      pure (t.text :: vals))
    (pure [])

theorem run_optional_of_avoids {k : TokenType} {p : Cursor TokenType ParseError}
    (h : Avoids [k] p.rest) : (Parser.optional k : P Bool).run p = (some false, p) :=
  Parser.run_ifRest_neg (Parses.startsAs_eq_false (fun _ => Parses.isTok_type) h)

theorem avoids_of_check {k : TokenType} {r : List (Token TokenType)} (h : check k r = false) :
    Avoids [k] r := by
  cases r with
  | nil => exact avoids_nil _
  | cons t r => exact avoids_cons.mpr fun ht => of_decide_eq_false h (List.mem_singleton.mp ht)

theorem parseInValues_succ (fuel : Nat) (more : Bool) :
    parseInValues (fuel + 1) more = (parseInComma more >>= fun _ => parseInRound fuel) := by
  refine Parser.ext fun p => ?_
  cases hc : notYet .tokRbracket p.rest with
  | true =>
      rw [parseInValues, Parser.run_ifRest_pos hc]
      cases more with
      | true => rfl
      | false => rfl
  | false =>
      have hend : AtClose .tokRbracket p.rest := hc
      have hcomma : (parseInComma more).run p = (some false, p) := by
        cases more with
        | true => exact run_optional_of_avoids (hend.avoids (by decide) (by decide))
        | false => rfl
      have hround : (parseInRound fuel).run p = (some [], p) :=
        Parser.run_ifRest_neg (Parses.startsAs_eq_false (fun _ => isLiteral_type)
          (hend.avoids (by decide) (by decide)))
      change _ = Parser.bindRun _ _ p
      rw [parseInValues, Parser.run_ifRest_neg hc, Parser.bindRun, hcomma]
      exact hround.symm

theorem parses_inValues (n : Nat) (more : Bool) : Parses n (parseInValues n more) (valuesL more)
    (Avoids [.tokComma, .tokString, .tokNumber]) := by
  induction n generalizing more with
  | zero =>
      refine ⟨?_, fun hlt => absurd hlt (Nat.not_lt_zero _)⟩
      intro p q a hrun _
      obtain ⟨-, rfl⟩ := Prod.mk.inj hrun
      refine ⟨[], ?_, rfl⟩
      cases more with
      | true => exact Language.append_mem_mul (Language.nil_mem_kstar _) (Or.inr rfl)
      | false => exact Or.inr rfl
  | succ n ih =>
      have hround : Parses (n + 1) (parseInRound n) (literalL * moreValuesL + 1)
          (Avoids [.tokComma, .tokString, .tokNumber]) := by
        rw [← single_isLiteral]
        refine .ifStarts (.advance_bind fun _ => (ih true).map) (.pure _)
          (fun _ => isLiteral_type) (by simp)
      rw [parseInValues_succ]
      cases more with
      | true =>
          rw [valuesL_true]
          exact Parses.optional.bind (fun _ => hround) (by simp [literalL])
      | false =>
          rw [valuesL_false]
          exact Parses.bind (.pure _) (fun _ => hround) follows_true

theorem parses_inList : Parses N parseInList inListL ok := by
  have hvalues : Parses (N - 1) (Parser.withFuel fun fuel => parseInValues fuel false) inValuesL
      (Avoids [.tokComma, .tokString, .tokNumber]) :=
    .withFuel fun n => (parses_inValues n false).mono (Nat.min_le_left n _)
  have h : Parses N parseInList (single (isTok .tokIn) *
      (tok tokLbracket * (inValuesL * tok tokRbracket))) ok :=
    .advance_bind fun _ => .expect_bind fun _ =>
      hvalues.bind (fun _ => Parses.expect.goOn.map) (by simp)
  simpa only [inListL, brackets, single_isTok, mul_assoc] using h

theorem parses_comparisonOp : Parses N parseComparisonOp comparisonOpL ok := by
  have h : Parses N parseComparisonOp (tok tokEq * 1 + (tok tokNeq * 1 + (tok tokEqtilde * 1 +
      (tok tokGte * 1 + (tok tokLte * 1 + (tok tokGt * 1 + (tok tokLt * 1 +
        (tok tokContains * 1 + (tok tokStarts * tok tokWith +
          (tok tokEnds * tok tokWith + 0)))))))))) ok := by
    refine .ifMatch (fun _ => .pure _) ?_ (by simp)
    refine .ifMatch (fun _ => .pure _) ?_ (by simp)
    refine .ifMatch (fun _ => .pure _) ?_ (by simp)
    refine .ifMatch (fun _ => .pure _) ?_ (by simp)
    refine .ifMatch (fun _ => .pure _) ?_ (by simp)
    refine .ifMatch (fun _ => .pure _) ?_ (by simp)
    refine .ifMatch (fun _ => .pure _) ?_ (by simp)
    refine .ifMatch (fun _ => .pure _) ?_ (by simp)
    refine .ifMatch (fun _ => Parses.expect.goOn.map) ?_ (by simp)
    exact .ifMatch (fun _ => Parses.expect.goOn.map) .fail (by simp)
  simpa only [comparisonOpL, mul_one, add_zero, add_assoc] using h

theorem parses_value : Parses N parseValue valueL ok := by
  have h : Parses N parseValue (tok tokString * 1 + (tok tokNumber * 1 + (tok tokTrue * 1 +
      (tok tokFalse * 1 + 0)))) ok := by
    refine .ifMatch (fun _ => .pure _) ?_ (by simp)
    refine .ifMatch (fun _ => .pure _) ?_ (by simp)
    refine .ifMatch (fun _ => .pure _) ?_ (by simp)
    exact .ifMatch (fun _ => .pure _) .fail (by simp)
  simpa only [valueL, mul_one, add_zero, add_assoc] using h

theorem parses_existsPattern :
    Parses N parseExistsPattern (nodeL * (relL * nodeL)) ok :=
  parses_node.bind (fun _ => parses_rel.bind (fun _ => parses_node.map)
    (by simp [nodeL, parens, mul_assoc])) follows_true

theorem parses_existsPredicate (negated : Bool) :
    Parses N (parseExistsPredicate negated) existsL ok := by
  have hpattern : Parses (N - 1 - 1) (Parser.orError .existsPattern parseExistsPattern)
      (nodeL * (relL * nodeL)) (fun _ => True) := parses_existsPattern.orError
  have h : Parses N (parseExistsPredicate negated) (single (isTok .tokExists) *
      (tok tokLbrace * ((nodeL * (relL * nodeL)) * tok tokRbrace) + 0)) ok := by
    refine .advance_bind fun _ => .ifMatch (fun _ => ?_) .fail (by simp)
    exact hpattern.bind (fun _ => Parses.expect.goOn.map) follows_true
  simpa only [existsL, braces, single_isTok, add_zero, mul_assoc] using h

theorem parses_isNull (property : Option Sqlite.CStr) :
    Parses N (parseIsNull property) (opt (tok tokNot) * tok tokNullKw) ok := by
  rw [opt, add_mul, one_mul]
  exact .ifMatch (fun _ => Parses.expect.goOn.map) Parses.expect.goOn.map (by simp)

theorem parses_propertyTest (property : Option Sqlite.CStr) :
    Parses N (parsePropertyTest property) propertyTestL ok := by
  have hin : Parses N (parseInList >>= fun vals => pure (Test.isIn property vals))
      (tok tokIn * brackets inValuesL) ok := parses_inList.map
  have hop : Parses N parseComparisonOp comparisonOpL (fun _ => True) := parses_comparisonOp
  have hcompare : Parses N (do
      let op ← parseComparisonOp
      let value ← parseValue
      pure (Test.compare property op value)) (comparisonOpL * valueL) ok :=
    hop.bind (fun _ => parses_value.map) follows_true
  have h : Parses N (parsePropertyTest property) (tok tokIs * (opt (tok tokNot) * tok tokNullKw) +
      (tok tokIn * brackets inValuesL + comparisonOpL * valueL)) ok := by
    refine .ifMatch (fun _ => parses_isNull property) (hin.ifTok hcompare ?_) ?_
    · simp [comparisonOpL, mul_assoc]
    · simp [comparisonOpL, mul_assoc]
  simpa only [propertyTestL, inListL, mul_assoc, add_assoc] using h

theorem parses_test : Parses N parseTest testL ok := by
  have hproperty : Parses N (Parser.ifMatch .tokDot (fun _ => do
      let prop ← expectTok .tokIdent
      pure (some prop.text)) (pure none)) (opt (tok tokDot * tok tokIdent)) (Avoids [.tokDot]) :=
    .ifMatch_pure fun _ => Parses.expect.map
  refine .ifMatch (fun _ => Parses.expect.map) (hproperty.bind parses_propertyTest ?_) ?_
  · simp [propertyTestL, inListL, comparisonOpL, mul_assoc]
  · simp [propertyTestL, inListL, comparisonOpL, mul_assoc]

/-- `parse_condition_expr` after the token NOT. -/
def parseBareCondition (negated : Bool) : P Expr :=
  Parser.ifRest (check .tokExists) (parseExistsPredicate negated)
    (do
      let var ← expectTok .tokIdent
      let test ← parseTest
      pure (.condition { var := var.text, test := test, negated := negated }))

theorem parses_bareCondition (negated : Bool) :
    Parses N (parseBareCondition negated) conditionL ok :=
  .ifTok (parses_existsPredicate negated) (.expect_bind fun _ => parses_test.map) (by simp)

theorem run_parseAtomExpr (parseOr : P Expr) {p : Cursor TokenType ParseError}
    (h : Avoids [.tokNot] p.rest) :
    (parseAtomExpr parseOr).run p = (Parser.ifMatch .tokLparen
      (fun _ => Parser.andAlso parseOr (expectTok .tokRparen)) (parseBareCondition false)).run p := by
  cases hc : check .tokLparen p.rest with
  | true => exact (Parser.run_ifRest_pos hc).trans (Parser.run_ifRest_pos hc).symm
  | false =>
      refine (Parser.run_ifRest_neg hc).trans (Eq.trans ?_ (Parser.run_ifRest_neg hc).symm)
      change Parser.bindRun (Parser.optional .tokNot) parseBareCondition p = _
      rw [Parser.bindRun, run_optional_of_avoids h]

variable {parseOr : P Expr} {X : Lang}

theorem parses_atom (h : Parses (N - 1) parseOr X (Avoids [.tokOr, .tokXor, .tokAnd])) :
    Parses N (Parser.ifMatch .tokLparen (fun _ => Parser.andAlso parseOr (expectTok .tokRparen))
      (parseBareCondition false)) (atomL X) ok := by
  rw [atomL, parens, mul_assoc]
  refine .ifMatch (fun _ => h.andAlso Parses.expect (by simp)) (parses_bareCondition false) ?_
  simp [conditionL, existsL]

theorem parses_notFuel (h : Parses (N - 1) parseOr X (Avoids [.tokOr, .tokXor, .tokAnd]))
    (n : Nat) : Parses (min n N) (parseNotFuel parseOr n) (notL X) ok := by
  induction n with
  | zero =>
      rw [Nat.zero_min]
      exact .stop_zero
  | succ n ih =>
      have hatom : parseNotFuel parseOr (n + 1) = Parser.ifMatch .tokNot (fun _ => do
          let child ← parseNotFuel parseOr n
          pure (.not child)) (Parser.ifMatch .tokLparen
            (fun _ => Parser.andAlso parseOr (expectTok .tokRparen)) (parseBareCondition false)) := by
        exact Parser.ifRest_congr (fun _ _ => rfl)
          fun _ hp => run_parseAtomExpr parseOr (avoids_of_check hp)
      rw [hatom, notL, kstar_mul]
      refine .ifMatch (fun _ => (ih.mono (by omega)).map) ((parses_atom h).mono (by omega)) ?_
      simp [atomL, parens, conditionL, existsL, mul_assoc]

theorem parses_notExpr (h : Parses (N - 1) parseOr X (Avoids [.tokOr, .tokXor, .tokAnd])) :
    Parses N (parseNotExpr parseOr) (notL X) ok :=
  .withFuel (parses_notFuel h)

theorem parses_binary {op : TokenType} {mk : Expr → Expr → Expr} {operand : P Expr} {L : Lang}
    (h : Parses N operand L (Avoids ks)) (hop : op ∉ ks) :
    Parses N (parseBinaryExpr op mk operand) (binaryL op L) (Avoids (op :: ks)) := by
  refine h.bind (fun _ => (h.whileMatch hop).map) ?_
  rw [follows_kstar, mul_assoc]
  exact ⟨follows_tok_mul hop, follows_one_avoids (List.subset_cons_self op ks)⟩

theorem parses_xorExpr (h : Parses (N - 1) parseOr X (Avoids [.tokOr, .tokXor, .tokAnd])) :
    Parses N (parseXorExpr parseOr) (xorL X) (Avoids [.tokXor, .tokAnd]) := by
  have hnot : Parses N (parseNotExpr parseOr) (notL X) (Avoids []) := parses_notExpr h
  exact parses_binary (parses_binary hnot (by decide)) (by decide)

theorem parses_orFuel (n : Nat) :
    Parses n (parseOrFuel n) exprL (Avoids [.tokOr, .tokXor, .tokAnd]) := by
  induction n with
  | zero => exact .stop_zero
  | succ n ih =>
      rw [← orL_exprL]
      exact parses_binary (parses_xorExpr ih) (by decide)

theorem parses_orExpr :
    Parses N parseOrExpr exprL (Avoids [.tokOr, .tokXor, .tokAnd]) :=
  .withFuel fun n => (parses_orFuel n).mono (Nat.min_le_left n N)

theorem parses_where :
    Parses N parseWhere (opt whereL) (Avoids [.tokWhere, .tokOr, .tokXor, .tokAnd]) :=
  .ifMatch_pure fun _ => parses_orExpr.map

def tokensOf (types : List TokenType) : List (Token TokenType) :=
  types.map fun k => ⟨k, [], 0⟩

example : (parseWhere.run (startCursor (tokensOf [tokWhere, tokNot, tokIdent, tokColon, tokIdent,
    tokAnd, tokIdent, tokEq, tokNumber]))).2.rest.length = 0 := by decide +kernel

end Cypher
end CodebaseMemory
