import Mathlib.Order.FixedPoints
import CodebaseMemory.Cypher.Parser
import CodebaseMemory.Lib.Brackets

/-!
# The grammar of queries

The language that the functions of the parser spell out, with every token that
they look for.  Where a comma is optional in the code it is so here.  Only
expressions are recursive, through parentheses: their language is the least one
that is closed under its rule.
-/

namespace CodebaseMemory
namespace Cypher

open Lib
open Lib.Parser (isTok)
open Computability
open TokenType

abbrev Lang := Language (Token TokenType)

def parens (L : Lang) : Lang := tok tokLparen * L * tok tokRparen

def brackets (L : Lang) : Lang := tok tokLbracket * L * tok tokRbracket

def braces (L : Lang) : Lang := tok tokLbrace * L * tok tokRbrace

def propL : Lang :=
  tok tokIdent * tok tokColon * tok tokString * opt (tok tokComma)

def propsL : Lang := braces (propL∗)

/-- The further labels of an alternation after `ll` bytes.  The buffer of the parser
bounds them: only the last one may fill it. -/
inductive LabelAlts : Nat → List (Token TokenType) → Prop
  | nil (ll : Nat) : LabelAlts ll []
  | cons {ll : Nat} {pipe alt : Token TokenType} {w : List (Token TokenType)}
      (hpipe : pipe.type = .tokPipe) (halt : alt.type = .tokIdent)
      (hroom : w = [] ∨ ll + 1 + alt.text.length < labelRoom)
      (hw : LabelAlts (ll + 1 + alt.text.length) w) : LabelAlts ll (pipe :: alt :: w)

def labelAltsL (ll : Nat) : Lang :=
  {w | LabelAlts ll w}

def labelL : Lang :=
  tokThen .tokIdent fun t => labelAltsL t.text.length

def nodeL : Lang :=
  parens (opt (tok tokIdent) * opt (tok tokColon * labelL) * opt propsL)

def hopRangeL : Lang :=
  tok tokNumber * opt (tok tokDotdot * opt (tok tokNumber)) +
    opt (tok tokDotdot * opt (tok tokNumber))

def relTypesL : Lang :=
  tok tokIdent * (tok tokPipe * tok tokIdent)∗

def relContentL : Lang :=
  opt (tok tokIdent) * opt (tok tokColon * relTypesL) * opt (tok tokStar * hopRangeL)

def relL : Lang :=
  opt (tok tokLt) * tok tokDash * opt (brackets relContentL) * tok tokDash * opt (tok tokGt)

def patternL : Lang :=
  nodeL * (relL * nodeL)∗

def literalL : Lang := tok tokString + tok tokNumber

/-- The values of IN: the commas can be left out, and one may stand at the end. -/
def inValuesL : Lang :=
  opt (literalL * (opt (tok tokComma) * literalL)∗ * opt (tok tokComma))

def inListL : Lang := tok tokIn * brackets inValuesL

def comparisonOpL : Lang :=
  tok tokEq + tok tokNeq + tok tokEqtilde + tok tokGte + tok tokLte + tok tokGt +
    tok tokLt + tok tokContains + tok tokStarts * tok tokWith + tok tokEnds * tok tokWith

def valueL : Lang :=
  tok tokString + tok tokNumber + tok tokTrue + tok tokFalse

def existsL : Lang :=
  tok tokExists * braces (nodeL * relL * nodeL)

def propertyTestL : Lang :=
  tok tokIs * opt (tok tokNot) * tok tokNullKw + inListL + comparisonOpL * valueL

def testL : Lang :=
  tok tokColon * tok tokIdent + opt (tok tokDot * tok tokIdent) * propertyTestL

def conditionL : Lang :=
  existsL + tok tokIdent * testL

/-- Operands with a binary operator between them. -/
def binaryL (op : TokenType) (L : Lang) : Lang := L * (tok op * L)∗

def atomL (X : Lang) : Lang := parens X + conditionL

def notL (X : Lang) : Lang := (tok tokNot)∗ * atomL X

def xorL (X : Lang) : Lang := binaryL .tokXor (binaryL .tokAnd (notL X))

/-- The rule of expressions, over the expressions in parentheses. -/
def orL (X : Lang) : Lang := binaryL .tokOr (xorL X)

theorem monotone_binaryL (op : TokenType) : Monotone (binaryL op) := by
  intro L M h
  exact mul_le_mul' h (kstar_mono (mul_le_mul' le_rfl h))

theorem monotone_orL : Monotone orL := by
  intro X Y h
  have hatom : atomL X ≤ atomL Y :=
    add_le_add (mul_le_mul' (mul_le_mul' le_rfl h) le_rfl) le_rfl
  have hnot : notL X ≤ notL Y := mul_le_mul' le_rfl hatom
  exact monotone_binaryL _ (monotone_binaryL _ (monotone_binaryL _ hnot))

noncomputable def exprL : Lang :=
  OrderHom.lfp ⟨orL, monotone_orL⟩

theorem orL_exprL : orL exprL = exprL :=
  OrderHom.map_lfp ⟨orL, monotone_orL⟩

noncomputable def whereL : Lang := tok tokWhere * exprL

def varDotPropL : Lang :=
  tok tokIdent * opt (tok tokDot * tok tokIdent)

def valueLiteralL : Lang :=
  tok tokString + tok tokNumber + varDotPropL + tok tokTrue + tok tokFalse

noncomputable def caseL : Lang :=
  (tok tokWhen * exprL * tok TokenType.tokThen * valueLiteralL)∗ * opt (tok tokElse * valueLiteralL) *
    tok tokEnd

def aggregateL : Lang := single fun t => (aggregateOf t.type).isSome

def aggregateItemL : Lang :=
  aggregateL * parens (opt (tok tokDistinct) * (tok tokStar + varDotPropL))

def stringFuncItemL : Lang :=
  single (fun t => (stringFuncOf t.type).isSome) * parens varDotPropL

def funcArgL : Lang :=
  tok tokString + tok tokNumber + varDotPropL

def multiargFuncItemL : Lang :=
  single (isFuncName multiargFuncCanonical) *
    parens (opt (funcArgL * (tok tokComma * funcArgL)∗))

def namedFuncItemL : Lang :=
  single (isFuncName scalarFuncCanonical) * parens varDotPropL

def itemExprL : Lang :=
  aggregateItemL + stringFuncItemL + multiargFuncItemL + namedFuncItemL + varDotPropL

noncomputable def returnItemL : Lang :=
  (tok tokCase * caseL + itemExprL) * opt (tok tokAs * tok tokIdent)

def orderByExprL : Lang :=
  aggregateL * parens (tok tokStar + tok tokIdent) + varDotPropL

def orderByL : Lang :=
  tok tokOrder * tok tokBy * orderByExprL * opt (tok tokAsc + tok tokDesc)

noncomputable def itemsL : Lang :=
  returnItemL * (tok tokComma * returnItemL)∗

/-- What RETURN and WITH list; the star is for RETURN. -/
noncomputable def starOrItemsL (isWith : Bool) : Lang :=
  if isWith then itemsL else tok tokStar + itemsL

noncomputable def clauseL (isWith : Bool) : Lang :=
  opt (tok tokDistinct) * starOrItemsL isWith * opt orderByL *
    opt (tok tokSkip * tok tokNumber) * opt (tok tokLimit * tok tokNumber)

noncomputable def withL : Lang :=
  tok tokWith * clauseL true * opt whereL

noncomputable def returnL : Lang := tok tokReturn * clauseL false

def unwindL : Lang :=
  tok tokUnwind * (brackets ((literalL * opt (tok tokComma))∗) + tok tokIdent) * tok tokAs *
    tok tokIdent

def matchL : Lang := opt (tok tokOptional) * tok tokMatch * patternL

/-- A query up to the clauses WITH and RETURN. -/
noncomputable def matchPartL : Lang :=
  opt unwindL * matchL * matchL∗ * opt (whereL * matchL∗)

noncomputable def clausesL : Lang := opt withL * opt returnL

/-- The queries: parts that UNION puts together. -/
noncomputable def queryL : Lang :=
  (matchPartL * clausesL * tok tokUnion * opt (tok tokAll))∗ * (matchPartL * clausesL)

/-- The three kinds of brackets. -/
inductive Bracket where
  | paren
  | bracket
  | brace
deriving DecidableEq

/-- What a token does to the brackets; EOF stands in no query. -/
def shape : TokenType → Shape Bracket
  | .tokLparen => .opens .paren
  | .tokRparen => .closes .paren
  | .tokLbracket => .opens .bracket
  | .tokRbracket => .closes .bracket
  | .tokLbrace => .opens .brace
  | .tokRbrace => .closes .brace
  | .tokEof => .never
  | _ => .plain

/-- A class of words that is closed under the rules of the grammar.  STARTS is in it
with its WITH only. -/
structure Good (K : Lang) : Prop extends Closed K where
  tok_le : ∀ {k : TokenType}, shape k = .plain → k ≠ .tokStarts → tok k ≤ K
  startsWith_le : tok tokStarts * tok tokWith ≤ K
  parens_le : ∀ {A : Lang}, A ≤ K → parens A ≤ K
  brackets_le : ∀ {A : Lang}, A ≤ K → brackets A ≤ K
  braces_le : ∀ {A : Lang}, A ≤ K → braces A ≤ K

namespace Good

variable {K : Lang} (h : Good K)

include h

theorem single_le {c : Token TokenType → Bool}
    (hc : ∀ t, c t = true → shape t.type = .plain ∧ t.type ≠ .tokStarts) : single c ≤ K := by
  rintro w ⟨t, ht, rfl⟩
  exact h.tok_le (hc t ht).1 (hc t ht).2 ⟨t, rfl, rfl⟩

theorem labelAlts_mem {ll : Nat} {w : List (Token TokenType)} (hw : LabelAlts ll w) : w ∈ K := by
  induction hw with
  | nil ll => exact h.nil_mem
  | @cons ll pipe alt w hpipe halt hroom hw ih =>
      have hpipe' : [pipe] ∈ K := h.tok_le rfl (by decide) ⟨pipe, hpipe, rfl⟩
      have halt' : [alt] ∈ K := h.tok_le rfl (by decide) ⟨alt, halt, rfl⟩
      exact h.append_mem hpipe' (h.append_mem halt' ih)

theorem labelL_le : labelL ≤ K := by
  rintro w ⟨t, v, ht, hv, rfl⟩
  have ht' : [t] ∈ K := h.tok_le rfl (by decide) ⟨t, ht, rfl⟩
  exact h.append_mem ht' (h.labelAlts_mem hv)

theorem propsL_le : propsL ≤ K := by
  refine h.braces_le (h.kstar_le ?_)
  apply_rules [h.mul_le, h.opt_le, h.tok_le] <;> decide

theorem nodeL_le : nodeL ≤ K := by
  refine h.parens_le ?_
  apply_rules [h.labelL_le, h.propsL_le, h.mul_le, h.opt_le, h.tok_le] <;> decide

theorem hopRangeL_le : hopRangeL ≤ K := by
  apply_rules [h.mul_le, h.opt_le, add_le_of_le, h.tok_le] <;> decide

theorem relTypesL_le : relTypesL ≤ K := by
  apply_rules [h.mul_le, h.kstar_le, h.tok_le] <;> decide

theorem relContentL_le : relContentL ≤ K := by
  apply_rules [h.relTypesL_le, h.hopRangeL_le, h.mul_le, h.opt_le, h.tok_le] <;> decide

theorem relL_le : relL ≤ K := by
  have hcontent : brackets relContentL ≤ K := h.brackets_le h.relContentL_le
  apply_rules [h.mul_le, h.opt_le, h.tok_le] <;> decide

theorem patternL_le : patternL ≤ K :=
  h.mul_le h.nodeL_le (h.kstar_le (h.mul_le h.relL_le h.nodeL_le))

theorem literalL_le : literalL ≤ K := by
  apply_rules [add_le_of_le, h.tok_le] <;> decide

theorem inListL_le : inListL ≤ K := by
  have hvalues : inValuesL ≤ K := by
    apply_rules [h.literalL_le, h.mul_le, h.opt_le, h.kstar_le, h.tok_le] <;> decide
  exact h.mul_le (h.tok_le rfl (by decide)) (h.brackets_le hvalues)

theorem comparisonOpL_le : comparisonOpL ≤ K := by
  have hends : tok tokEnds * tok tokWith ≤ K :=
    h.mul_le (h.tok_le rfl (by decide)) (h.tok_le rfl (by decide))
  apply_rules [add_le_of_le, h.startsWith_le, h.tok_le] <;> decide

theorem propertyTestL_le : propertyTestL ≤ K := by
  have hvalue : valueL ≤ K := by
    apply_rules [add_le_of_le, h.tok_le] <;> decide
  apply_rules [h.inListL_le, h.comparisonOpL_le, h.mul_le, h.opt_le, add_le_of_le, h.tok_le]
    <;> decide

theorem conditionL_le : conditionL ≤ K := by
  have hexists : existsL ≤ K := by
    refine h.mul_le (h.tok_le rfl (by decide)) (h.braces_le ?_)
    exact h.mul_le (h.mul_le h.nodeL_le h.relL_le) h.nodeL_le
  have htest : testL ≤ K := by
    apply_rules [h.propertyTestL_le, h.mul_le, h.opt_le, add_le_of_le, h.tok_le] <;> decide
  exact add_le_of_le hexists (h.mul_le (h.tok_le rfl (by decide)) htest)

theorem binaryL_le {op : TokenType} {L : Lang} (hop : tok op ≤ K) (hL : L ≤ K) :
    binaryL op L ≤ K :=
  h.mul_le hL (h.kstar_le (h.mul_le hop hL))

theorem exprL_le : exprL ≤ K := by
  refine OrderHom.lfp_le _ ?_
  have hatom : atomL K ≤ K := add_le_of_le (h.parens_le le_rfl) h.conditionL_le
  have hnot : notL K ≤ K := h.mul_le (h.kstar_le (h.tok_le rfl (by decide))) hatom
  apply_rules [h.binaryL_le, h.tok_le] <;> decide

theorem varDotPropL_le : varDotPropL ≤ K := by
  apply_rules [h.mul_le, h.opt_le, h.tok_le] <;> decide

theorem valueLiteralL_le : valueLiteralL ≤ K := by
  apply_rules [add_le_of_le, h.varDotPropL_le, h.tok_le] <;> decide

theorem funcName_le {α : Type} (names : Sqlite.CStr → Option α) : single (isFuncName names) ≤ K := by
  refine h.single_le ?_
  intro t ht
  have hident : t.type = .tokIdent := (of_decide_eq_true ht).1
  rw [hident]
  exact ⟨rfl, by decide⟩

theorem aggregateL_le : aggregateL ≤ K := by
  refine h.single_le ?_
  intro t
  cases t.type <;> decide

theorem stringFunc_le : single (fun t => (stringFuncOf t.type).isSome) ≤ K := by
  refine h.single_le ?_
  intro t
  cases t.type <;> decide

theorem funcArgL_le : funcArgL ≤ K := by
  apply_rules [h.varDotPropL_le, add_le_of_le, h.tok_le] <;> decide

theorem itemExprL_le : itemExprL ≤ K := by
  have hstar : tok tokStar + varDotPropL ≤ K :=
    add_le_of_le (h.tok_le rfl (by decide)) h.varDotPropL_le
  have haggregate : aggregateItemL ≤ K :=
    h.mul_le h.aggregateL_le
      (h.parens_le (h.mul_le (h.opt_le (h.tok_le rfl (by decide))) hstar))
  have hstring : stringFuncItemL ≤ K := h.mul_le h.stringFunc_le (h.parens_le h.varDotPropL_le)
  have hnamed : namedFuncItemL ≤ K := h.mul_le (h.funcName_le _) (h.parens_le h.varDotPropL_le)
  have hmulti : multiargFuncItemL ≤ K := by
    refine h.mul_le (h.funcName_le _) (h.parens_le (h.opt_le ?_))
    exact h.mul_le h.funcArgL_le
      (h.kstar_le (h.mul_le (h.tok_le rfl (by decide)) h.funcArgL_le))
  apply_rules [h.varDotPropL_le, add_le_of_le]

theorem caseL_le : caseL ≤ K := by
  apply_rules [h.exprL_le, h.valueLiteralL_le, h.mul_le, h.opt_le, h.kstar_le, h.tok_le]
    <;> decide

theorem returnItemL_le : returnItemL ≤ K := by
  apply_rules [h.caseL_le, h.itemExprL_le, h.mul_le, h.opt_le, add_le_of_le, h.tok_le] <;> decide

theorem itemsL_le : itemsL ≤ K :=
  h.mul_le h.returnItemL_le (h.kstar_le (h.mul_le (h.tok_le rfl (by decide)) h.returnItemL_le))

theorem orderByL_le : orderByL ≤ K := by
  have hexpr : orderByExprL ≤ K := by
    refine add_le_of_le (h.mul_le h.aggregateL_le (h.parens_le ?_)) h.varDotPropL_le
    apply_rules [add_le_of_le, h.tok_le] <;> decide
  apply_rules [h.mul_le, h.opt_le, add_le_of_le, h.tok_le] <;> decide

theorem clauseL_le (isWith : Bool) : clauseL isWith ≤ K := by
  have hitems : starOrItemsL isWith ≤ K := by
    cases isWith with
    | true => exact h.itemsL_le
    | false => exact add_le_of_le (h.tok_le rfl (by decide)) h.itemsL_le
  apply_rules [h.orderByL_le, h.mul_le, h.opt_le, h.tok_le] <;> decide

theorem whereL_le : whereL ≤ K :=
  h.mul_le (h.tok_le rfl (by decide)) h.exprL_le

theorem matchL_le : matchL ≤ K := by
  apply_rules [h.patternL_le, h.mul_le, h.opt_le, h.tok_le] <;> decide

theorem unwindL_le : unwindL ≤ K := by
  have hlist : brackets ((literalL * opt (tok tokComma))∗) ≤ K := by
    refine h.brackets_le (h.kstar_le (h.mul_le h.literalL_le ?_))
    exact h.opt_le (h.tok_le rfl (by decide))
  apply_rules [h.mul_le, add_le_of_le, h.tok_le] <;> decide

theorem matchPartL_le : matchPartL ≤ K := by
  apply_rules [h.unwindL_le, h.matchL_le, h.whereL_le, h.mul_le, h.opt_le, h.kstar_le]

theorem clausesL_le : clausesL ≤ K := by
  have hwith : withL ≤ K :=
    h.mul_le (h.mul_le (h.tok_le rfl (by decide)) (h.clauseL_le true)) (h.opt_le h.whereL_le)
  have hreturn : returnL ≤ K := h.mul_le (h.tok_le rfl (by decide)) (h.clauseL_le false)
  exact h.mul_le (h.opt_le hwith) (h.opt_le hreturn)

theorem queryL_le : queryL ≤ K := by
  apply_rules [h.matchPartL_le, h.clausesL_le, h.mul_le, h.opt_le, h.kstar_le, h.tok_le]
    <;> decide

end Good

theorem good_neutral : Good (neutral shape) where
  toClosed := closed_neutral shape
  tok_le hk _ := tok_le_neutral hk
  startsWith_le := (closed_neutral shape).mul_le (tok_le_neutral rfl) (tok_le_neutral rfl)
  parens_le := enclosed_le_neutral rfl rfl
  brackets_le := enclosed_le_neutral rfl rfl
  braces_le := enclosed_le_neutral rfl rfl

/-- The words that do not end with STARTS. -/
def endsStandalone : Lang :=
  {w | ∀ t ∈ w.getLast?, t.type ≠ .tokStarts}

theorem mul_tok_le_ends {k : TokenType} (hk : k ≠ .tokStarts) (A : Lang) :
    A * tok k ≤ endsStandalone := by
  intro w hw t ht
  obtain ⟨a, -, u, ⟨t', rfl, rfl⟩, rfl⟩ := Language.mem_mul.mp hw
  rw [List.getLast?_append, List.getLast?_singleton] at ht
  obtain rfl : t' = t := Option.some.inj ht
  exact hk

theorem good_ends : Good endsStandalone where
  nil_mem := fun _ ht => by cases ht
  append_mem := by
    intro v w hv hw t ht
    cases w using List.reverseRecOn with
    | nil =>
        rw [List.append_nil] at ht
        exact hv t ht
    | append_singleton w u =>
        refine hw t ?_
        simpa using ht
  tok_le := by
    intro k _ hk
    have hle := mul_tok_le_ends hk 1
    rwa [one_mul] at hle
  startsWith_le := mul_tok_le_ends (by decide) _
  parens_le := fun _ => mul_tok_le_ends (by decide) _
  brackets_le := fun _ => mul_tok_le_ends (by decide) _
  braces_le := fun _ => mul_tok_le_ends (by decide) _

end Cypher
end CodebaseMemory
