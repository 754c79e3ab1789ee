import CodebaseMemory.Cypher.Recognize

/-!
# What the parser reads of items and clauses

The languages of the items of RETURN and WITH, and of the clauses.  An item that
is a call is told by its name and the parenthesis after it, so no name may belong
to functions of two kinds (`scalar_ne_multiarg`).
-/

namespace CodebaseMemory
namespace Cypher

open Lib
open Lib.Parser (startsAs isTok)
open Sqlite (CStr bytesOf)
open Computability
open TokenType

variable {N : Nat} {ok : List (Token TokenType) → Prop}

theorem parses_dotProp :
    Parses N parseDotProp (opt (tok tokDot * tok tokIdent)) (Avoids [tokDot]) :=
  .ifMatch_pure fun _ => Parses.expect.goOn.map

theorem parses_varDotProp : Parses N parseVarDotProp varDotPropL (Avoids [tokDot]) :=
  .expect_bind fun _ => parses_dotProp.map

theorem parses_valueLiteral : Parses N parseValueLiteral valueLiteralL (Avoids [tokDot]) := by
  have h : Parses N parseValueLiteral (tok tokString * 1 + (tok tokNumber * 1 +
      (tok tokIdent * opt (tok tokDot * tok tokIdent) + (tok tokTrue * 1 +
        (tok tokFalse * 1 + 0))))) (Avoids [tokDot]) := by
    refine .ifMatch (fun _ => .pure _) ?_ (by simp)
    refine .ifMatch (fun _ => .pure _) ?_ (by simp)
    refine .ifMatch (fun _ => .ifMatch_pure fun _ => Parses.expect.goOn.map) ?_ (by simp)
    refine .ifMatch (fun _ => .pure _) ?_ (by simp)
    exact .ifMatch (fun _ => .pure _) .stop (by simp)
  simpa only [valueLiteralL, varDotPropL, mul_one, add_zero, add_assoc] using h

theorem parses_when :
    Parses N parseWhen (tok tokWhen * (exprL * tok TokenType.tokThen)) ok := by
  rw [← single_isTok]
  refine .advance_bind fun _ => parses_orExpr.goOn.bind (fun _ => Parses.expect.map) ?_
  simp

theorem parses_caseExpr : Parses N parseCaseExpr caseL ok := by
  have hback : ∀ when : Option Expr, Parses N (do
      let thenVal ← Parser.goOn parseValueLiteral
      pure (when, thenVal)) valueLiteralL (Avoids [tokDot]) :=
    fun _ => parses_valueLiteral.goOn.map
  have hS : Begins (tok tokWhen * (exprL * tok TokenType.tokThen) * valueLiteralL) [tokWhen] :=
    .mul (.mul (.tok List.mem_cons_self))
  have hloop : Parses N (Parser.withFuel (Parser.loop (check tokWhen) parseWhen (fun when => do
      let thenVal ← Parser.goOn parseValueLiteral
      pure (when, thenVal))))
      ((tok tokWhen * (exprL * tok TokenType.tokThen) * valueLiteralL)∗)
      (Avoids [tokWhen, tokDot]) := by
    refine .loop_begins parses_when hback follows_true hS (by decide) rfl ?_ ?_
    · exact fun t _ ht => decide_eq_true (List.mem_singleton.mp ht)
    · exact fun r hr => ⟨Parses.startsAs_eq_false (fun _ => Parses.isTok_type) hr.head, hr.tail⟩
  have helse : Parses N (Parser.ifMatch tokElse (fun _ => Parser.goOn parseValueLiteral)
      (pure none)) (opt (tok tokElse * valueLiteralL)) (Avoids [tokElse, tokDot]) :=
    .ifMatch_pure fun _ => parses_valueLiteral.goOn
  have h : Parses N parseCaseExpr ((tok tokWhen * (exprL * tok TokenType.tokThen) *
      valueLiteralL)∗ * (opt (tok tokElse * valueLiteralL) * tok tokEnd)) ok := by
    refine hloop.bind (fun _ => helse.bind (fun _ => Parses.expect.goOn.map) ?_) ?_
    · simp
    · simp [mul_assoc]
  simpa only [caseL, mul_assoc] using h

def aggregateTypes : List TokenType :=
  [tokCount, tokSum, tokAvg, tokMinKw, tokMaxKw, tokCollect]

def stringFuncTypes : List TokenType :=
  [tokTolower, tokToupper, tokTostring]

theorem aggregateOf_type (t : Token TokenType) (h : (aggregateOf t.type).isSome = true) :
    t.type ∈ aggregateTypes := by
  revert h
  cases t.type <;> decide

theorem stringFuncOf_type (t : Token TokenType) (h : (stringFuncOf t.type).isSome = true) :
    t.type ∈ stringFuncTypes := by
  revert h
  cases t.type <;> decide

theorem parses_aggregateItem : Parses N parseAggregateItem aggregateItemL ok := by
  have harg : Parses (N - 1) (Parser.ifMatch tokStar (fun _ => pure (bytesOf "*", none))
      parseVarDotProp) (tok tokStar * 1 + varDotPropL) (Avoids [tokDot]) :=
    .ifMatch (fun _ => .pure _) parses_varDotProp (by simp [varDotPropL])
  have h : Parses N parseAggregateItem (aggregateL * (tok tokLparen * (opt (tok tokDistinct) *
      ((tok tokStar * 1 + varDotPropL) * tok tokRparen)))) ok := by
    refine .advance_bind fun _ => .goOn_expect_bind fun _ => .optional_bind (fun _ => ?_) ?_
    · exact harg.bind (fun ⟨_, _⟩ => Parses.expect.goOn.map) (by simp)
    · simp [varDotPropL, mul_assoc]
  simpa only [aggregateItemL, parens, mul_one, mul_assoc] using h

theorem parses_stringFuncItem : Parses N parseStringFuncItem stringFuncItemL ok := by
  have h : Parses N parseStringFuncItem (single (fun t => (stringFuncOf t.type).isSome) *
      (tok tokLparen * (varDotPropL * tok tokRparen))) ok := by
    refine .advance_bind fun _ => .goOn_expect_bind fun _ => ?_
    exact parses_varDotProp.bind (fun ⟨_, _⟩ => Parses.expect.goOn.map) (by simp)
  simpa only [stringFuncItemL, parens, mul_assoc] using h

theorem parses_namedFuncItem : Parses N parseNamedFuncItem namedFuncItemL ok := by
  have h : Parses N parseNamedFuncItem (single (isFuncName scalarFuncCanonical) *
      (tok tokLparen * (varDotPropL * (tok tokRparen * 1)))) ok := by
    refine .advance_bind fun name => .goOn_expect_bind fun _ => ?_
    refine parses_varDotProp.bind (fun ⟨_, _⟩ => .goOn_expect_bind fun _ => ?_) (by simp)
    cases scalarFuncCanonical name.text with
    | none => exact .pure _
    | some func =>
        cases func with
        | inl func => exact .pure _
        | inr func => exact .pure _
  simpa only [namedFuncItemL, parens, mul_one, mul_assoc] using h

theorem parses_funcArg : Parses N parseFuncArg funcArgL (Avoids [tokDot]) := by
  have h : Parses N parseFuncArg (tok tokString * 1 + (tok tokNumber * 1 + varDotPropL))
      (Avoids [tokDot]) := by
    refine .ifMatch (fun _ => .pure _) (.ifMatch (fun _ => .pure _) ?_ ?_) ?_
    · exact parses_varDotProp.map
    · simp [varDotPropL]
    · simp [varDotPropL]
  simpa only [funcArgL, mul_one, add_assoc] using h

theorem begins_funcArgL : Begins funcArgL [tokString, tokNumber, tokIdent] :=
  .add (.add (.tok (by decide)) (.tok (by decide))) (.mul (.tok (by decide)))

theorem parses_moreArgs :
    Parses N parseMoreArgs ((tok tokComma * funcArgL)∗) (AtClose tokRparen) := by
  have hS : Begins (single (isTok tokComma) * funcArgL) [tokComma] :=
    .mul (.single fun _ => Parses.isTok_type)
  rw [← single_isTok]
  exact parses_until .advance (fun _ => parses_funcArg) follows_true hS (by decide) (by decide)
    (by decide) (by decide)

theorem notYet_of_begins {close : TokenType} {L : Lang} {S : List TokenType} (hL : Begins L S)
    (hS : ∀ k ∈ S, k ≠ close ∧ k ≠ tokEof) {w : List (Token TokenType)} (hw : w ∈ L)
    (r : List (Token TokenType)) : notYet close (w ++ r) = true := by
  obtain ⟨t, v, rfl, ht⟩ := hL w hw
  exact decide_eq_true (hS _ ht)

theorem parses_multiargFuncItem : Parses N parseMultiargFuncItem multiargFuncItemL ok := by
  have hargs : Parses (N - 1) (Parser.ifRest (notYet tokRparen)
      (do
        let arg ← parseFuncArg
        let args ← parseMoreArgs
        pure (arg :: args))
      (pure [])) (funcArgL * (tok tokComma * funcArgL)∗ + 1) (AtClose tokRparen) := by
    refine .ifRest (parses_funcArg.bind (fun _ => parses_moreArgs.map) ?_) (.pure _) ?_ ?_
    · rw [follows_kstar, mul_assoc]
      refine ⟨follows_tok_mul (by decide), follows_one fun r hr => ?_⟩
      exact hr.avoids (by decide) (by decide)
    · exact fun w hw r _ => notYet_of_begins begins_funcArgL.mul (by decide) hw r
    · rintro w rfl r hr
      exact hr
  have h : Parses N parseMultiargFuncItem (single (isFuncName multiargFuncCanonical) *
      (tok tokLparen * (opt (funcArgL * (tok tokComma * funcArgL)∗) * tok tokRparen))) ok := by
    refine .advance_bind fun _ => .goOn_expect_bind fun _ => ?_
    exact hargs.bind (fun _ => Parses.expect.goOn.map) follows_close_tok
  simpa only [multiargFuncItemL, parens, mul_assoc] using h

theorem canonical_isSome {α : Type} {names : List (String × α)} {s : CStr}
    (h : (canonical names s).isSome = true) :
    ∃ name ∈ names.map Prod.fst, s.map lowerByte = (bytesOf name).map lowerByte := by
  rw [canonical, Option.isSome_map, List.find?_isSome] at h
  obtain ⟨entry, hentry, hname⟩ := h
  exact ⟨entry.1, List.mem_map_of_mem hentry, of_decide_eq_true hname⟩

theorem scalar_ne_multiarg {s : CStr} (hscalar : (scalarFuncCanonical s).isSome = true) :
    (multiargFuncCanonical s).isSome = false := by
  rw [← Bool.not_eq_true]
  intro hmulti
  obtain ⟨name, hname, hs⟩ := canonical_isSome hscalar
  obtain ⟨name', hname', hs'⟩ := canonical_isSome hmulti
  have hdisjoint : ∀ n ∈ ["labels", "type", "id", "keys", "properties", "toInteger", "toFloat",
      "toBoolean", "size", "length", "trim", "ltrim", "rtrim", "reverse"],
      ∀ m ∈ ["coalesce", "substring", "replace", "left", "right"],
      (bytesOf n).map lowerByte ≠ (bytesOf m).map lowerByte := by
    decide +kernel
  exact hdisjoint name hname name' hname' (hs.symm.trans hs')

variable {α : Type} {names : CStr → Option α} {L : Lang} {w r : List (Token TokenType)}

theorem isCall_of_mem (hw : w ∈ single (isFuncName names) * parens L) :
    isCall names (w ++ r) = true := by
  rw [parens, mul_assoc] at hw
  obtain ⟨x, ⟨t, ht, rfl⟩, v, hv, rfl⟩ := Language.mem_mul.mp hw
  obtain ⟨u, v, hu, -, rfl⟩ := mem_tok_mul.mp hv
  simp [isCall, ht, hu]

theorem isCall_of_other {β : Type} {others : CStr → Option β}
    (hother : ∀ {s}, (others s).isSome = true → (names s).isSome = false)
    (hw : w ∈ single (isFuncName others) * L) : isCall names (w ++ r) = false := by
  obtain ⟨x, ⟨t, ht, rfl⟩, v, -, rfl⟩ := Language.mem_mul.mp hw
  have hname := hother (of_decide_eq_true ht).2
  have hno : isFuncName names t = false := decide_eq_false fun h => by
    rw [hname] at h
    exact Bool.noConfusion h.2
  rw [List.append_assoc, List.singleton_append]
  cases v ++ r with
  | nil => rfl
  | cons u v => simp [isCall, hno]

theorem isCall_of_var (hw : w ∈ varDotPropL) (hr : Avoids [tokDot, tokLparen, tokLbracket] r) :
    isCall names (w ++ r) = false := by
  obtain ⟨t, v, -, hv, rfl⟩ := mem_tok_mul.mp hw
  have hnext : Avoids [tokLparen] (v ++ r) := by
    have hfollows : Follows (opt (tok tokDot * tok tokIdent))
        (Avoids [tokDot, tokLparen, tokLbracket]) (Avoids [tokLparen]) := by simp
    exact hfollows v hv r hr
  rw [List.cons_append]
  cases hvr : v ++ r with
  | nil => rfl
  | cons u s =>
      rw [hvr, avoids_cons, List.mem_singleton] at hnext
      simp [isCall, hnext]

theorem parses_plainItem :
    Parses N parsePlainItem varDotPropL (Avoids [tokDot, tokLparen, tokLbracket]) := by
  have h : Parses N parsePlainItem (varDotPropL * 1) (Avoids [tokDot, tokLparen, tokLbracket]) := by
    refine parses_varDotProp.bind (fun ⟨_, _⟩ => ?_) (by simp)
    refine .reject (.reject (.pure _) (fun _ => Parses.isTok_type) ?_)
      (fun _ => Parses.isTok_type) ?_
    · simp
    · simp
  rwa [mul_one] at h

theorem begins_callsL :
    Begins (multiargFuncItemL + (namedFuncItemL + varDotPropL)) [tokIdent] := by
  have hname : ∀ {β : Type} (names : CStr → Option β) (t : Token TokenType),
      isFuncName names t = true → t.type ∈ [tokIdent] :=
    fun _ _ ht => List.mem_singleton.mpr (of_decide_eq_true ht).1
  exact .add (.mul (.single (hname _))) (.add (.mul (.single (hname _)))
    (.mul (.tok List.mem_cons_self)))

theorem begins_stringCallsL :
    Begins (stringFuncItemL + (multiargFuncItemL + (namedFuncItemL + varDotPropL)))
      (tokIdent :: stringFuncTypes) := by
  have hstring : Begins stringFuncItemL stringFuncTypes := .mul (.single stringFuncOf_type)
  exact .add (hstring.mono (by decide)) (begins_callsL.mono (by decide))

def itemTypes : List TokenType :=
  tokCase :: tokIdent :: (stringFuncTypes ++ aggregateTypes)

theorem begins_itemExprL :
    Begins itemExprL (tokIdent :: (stringFuncTypes ++ aggregateTypes)) := by
  have haggregate : Begins aggregateItemL aggregateTypes := .mul (.single aggregateOf_type)
  have h : Begins (aggregateItemL + (stringFuncItemL + (multiargFuncItemL +
      (namedFuncItemL + varDotPropL)))) (tokIdent :: (stringFuncTypes ++ aggregateTypes)) :=
    .add (haggregate.mono (by decide)) (begins_stringCallsL.mono (by decide))
  simpa only [itemExprL, add_assoc] using h

theorem begins_returnItemL : Begins returnItemL itemTypes := by
  have hcase : Begins (tok tokCase * caseL) itemTypes := .mul (.tok List.mem_cons_self)
  exact .mul (hcase.add (begins_itemExprL.mono (by decide)))

theorem parses_itemExpr :
    Parses N parseItemExpr itemExprL (Avoids [tokDot, tokLparen, tokLbracket]) := by
  have hnamed : Parses N (Parser.ifRest (isCall scalarFuncCanonical) parseNamedFuncItem
      parsePlainItem) (namedFuncItemL + varDotPropL) (Avoids [tokDot, tokLparen, tokLbracket]) :=
    parses_namedFuncItem.ifRest parses_plainItem (fun _ hw _ _ => isCall_of_mem hw)
      (fun _ hw _ hr => isCall_of_var hw hr)
  have hmulti : Parses N (Parser.ifRest (isCall multiargFuncCanonical) parseMultiargFuncItem
      (Parser.ifRest (isCall scalarFuncCanonical) parseNamedFuncItem parsePlainItem))
      (multiargFuncItemL + (namedFuncItemL + varDotPropL))
      (Avoids [tokDot, tokLparen, tokLbracket]) := by
    refine parses_multiargFuncItem.ifRest hnamed (fun _ hw _ _ => isCall_of_mem hw) ?_
    rintro w (hw | hw) r hr
    · exact isCall_of_other scalar_ne_multiarg hw
    · exact isCall_of_var hw hr
  have h : Parses N parseItemExpr (aggregateItemL + (stringFuncItemL + (multiargFuncItemL +
      (namedFuncItemL + varDotPropL)))) (Avoids [tokDot, tokLparen, tokLbracket]) := by
    refine parses_aggregateItem.ifStarts (parses_stringFuncItem.ifStarts hmulti
      stringFuncOf_type ?_) aggregateOf_type ?_
    · exact begins_callsL.follows (by decide)
    · exact begins_stringCallsL.follows (by decide)
  simpa only [itemExprL, add_assoc] using h

theorem parses_returnItem : Parses N parseReturnItem returnItemL
    (Avoids [tokAs, tokDot, tokLparen, tokLbracket]) := by
  have hexpr : Parses N (Parser.ifMatch tokCase
      (fun _ => do
        let c ← parseCaseExpr
        pure (ParsedExpr.kase c))
      (do
        let e ← parseItemExpr
        pure (.item e))) (tok tokCase * caseL + itemExprL)
      (Avoids [tokDot, tokLparen, tokLbracket]) :=
    .ifMatch (fun _ => parses_caseExpr.map) parses_itemExpr.map
      (begins_itemExprL.follows (by decide))
  have halias : Parses N (Parser.ifMatch tokAs
      (fun _ => do
        let name ← Parser.goOn (expectTok tokIdent)
        pure (name.map Token.text))
      (pure none)) (opt (tok tokAs * tok tokIdent))
      (Avoids [tokAs, tokDot, tokLparen, tokLbracket]) :=
    .ifMatch_pure fun _ => Parses.expect.goOn.map
  exact hexpr.bind (fun _ => halias.map) (by simp)

theorem parses_orderByAgg :
    Parses N parseOrderByAgg (aggregateL * parens (tok tokStar + tok tokIdent)) ok := by
  have harg : Parses (N - 1) (Parser.ifMatch tokStar (fun _ => pure (bytesOf "*"))
      (do
        let var ← Parser.goOn (expectTok tokIdent)
        pure ((var.map Token.text).getD []))) (tok tokStar * 1 + tok tokIdent) (fun _ => True) :=
    .ifMatch (fun _ => .pure _) Parses.expect.goOn.map (by simp)
  have h : Parses N parseOrderByAgg (aggregateL * (tok tokLparen *
      ((tok tokStar * 1 + tok tokIdent) * tok tokRparen))) ok :=
    .advance_bind fun _ => .goOn_expect_bind fun _ =>
      harg.bind (fun _ => Parses.expect.goOn.map) follows_true
  simpa only [parens, mul_one, mul_assoc] using h

theorem parses_orderByExpr : Parses N parseOrderByExpr orderByExprL (Avoids [tokDot]) := by
  refine parses_orderByAgg.ifStarts ?_ aggregateOf_type ?_
  · exact Parses.expect.orGoOn (fun _ => parses_dotProp.map) follows_true
  · have hvar : Begins varDotPropL [tokIdent] := .mul (.tok List.mem_cons_self)
    exact hvar.follows (by decide)

theorem parses_orderByClause : Parses N parseOrderByClause
    (tok tokBy * (orderByExprL * opt (tok tokAsc + tok tokDesc)))
    (Avoids [tokAsc, tokDesc, tokDot]) := by
  have hdirection : Parses N (Parser.ifMatch tokAsc (fun _ => pure (some true))
      (Parser.ifMatch tokDesc (fun _ => pure (some false)) (pure none)) : P (Option Bool))
      (tok tokAsc * 1 + (tok tokDesc * 1 + 1)) (Avoids [tokAsc, tokDesc, tokDot]) := by
    refine .ifMatch (fun _ => .pure _) (.ifMatch (fun _ => .pure _) (.pure _) ?_) ?_
    · simp
    · simp
  rw [mul_one, mul_one, ← add_assoc] at hdirection
  refine .goOn_expect_bind fun _ => parses_orderByExpr.bind (fun _ => hdirection.map) ?_
  simp

theorem parses_count (k : TokenType) :
    Parses N (parseCount k) (opt (tok k * tok tokNumber)) (Avoids [k]) :=
  .ifMatch_pure fun _ => Parses.expect.goOn.map

theorem parses_items : Parses N parseItems itemsL
    (Avoids [tokComma, tokAs, tokDot, tokLparen, tokLbracket]) := by
  refine parses_returnItem.bind (fun _ => (parses_returnItem.whileMatch (by decide)).map) ?_
  simp [mul_assoc]

theorem parses_starOrItems (isWith : Bool) : Parses N (parseStarOrItems isWith)
    (starOrItemsL isWith) (Avoids [tokComma, tokAs, tokDot, tokLparen, tokLbracket]) := by
  cases isWith with
  | true => exact parses_items
  | false =>
      have h : Parses N (parseStarOrItems false) (tok tokStar * 1 + itemsL)
          (Avoids [tokComma, tokAs, tokDot, tokLparen, tokLbracket]) :=
        .ifMatch (fun _ => .pure _) parses_items (begins_returnItemL.mul.follows (by decide))
      rwa [mul_one] at h

/-- What may not follow a clause. -/
def clauseEnd : List TokenType :=
  [tokLimit, tokSkip, tokOrder, tokAsc, tokDesc, tokDot, tokComma, tokAs, tokLparen, tokLbracket]

theorem begins_starOrItemsL (isWith : Bool) :
    Begins (starOrItemsL isWith) (tokStar :: itemTypes) := by
  have hitems : Begins itemsL (tokStar :: itemTypes) :=
    begins_returnItemL.mul.mono (List.subset_cons_self _ _)
  cases isWith with
  | true => exact hitems
  | false => exact .add (.tok List.mem_cons_self) hitems

theorem parses_clause (isWith : Bool) :
    Parses N (parseClause isWith) (clauseL isWith) (Avoids clauseEnd) := by
  have horder : Parses N (Parser.ifMatch tokOrder
      (fun _ => do
        let order ← parseOrderByClause
        pure (some order))
      (pure none))
      (opt (tok tokOrder * (tok tokBy * (orderByExprL * opt (tok tokAsc + tok tokDesc)))))
      (Avoids [tokOrder, tokAsc, tokDesc, tokDot]) :=
    .ifMatch_pure fun _ => parses_orderByClause.map
  have hlimit : Parses N (parseCount tokLimit) (opt (tok tokLimit * tok tokNumber))
      (Avoids clauseEnd) :=
    (parses_count tokLimit).congr rfl fun _ => Avoids.mono (by decide)
  have h : Parses N (parseClause isWith) (opt (tok tokDistinct) * (starOrItemsL isWith *
      (opt (tok tokOrder * (tok tokBy * (orderByExprL * opt (tok tokAsc + tok tokDesc)))) *
        (opt (tok tokSkip * tok tokNumber) * opt (tok tokLimit * tok tokNumber)))))
      (Avoids clauseEnd) := by
    refine .optional_bind (fun _ => ?_) ((begins_starOrItemsL isWith).mul.follows (by decide))
    refine (parses_starOrItems isWith).bind (fun _ => horder.bind (fun _ => ?_) ?_) ?_
    · exact (parses_count tokSkip).bind (fun _ => hlimit.map) (by simp [clauseEnd])
    · simp [clauseEnd, mul_assoc]
    · simp [clauseEnd, mul_assoc]
  simpa only [clauseL, orderByL, mul_assoc] using h

end Cypher
end CodebaseMemory
