import CodebaseMemory.Cypher.Recognize
import CodebaseMemory.Lib.Yields

/-!
# Printed expressions parse back

A tree of NOT, AND, XOR and OR over conditions is printed as a list of tokens,
with parentheses only where the precedence of the operators and the way they
associate ask for them.  A comparison with a text can be printed with any token
that has that value, so that a tree has many printings.
-/

namespace CodebaseMemory
namespace Cypher

open Lib
open Lib.Parser (isTok startsAs)
open Sqlite (CStr bytesOf)
open Computability
open TokenType

/-- The tokens that have a text as their value. -/
def printedLiteral (v : CStr) : Lang :=
  textTok tokString v + textTok tokNumber v

/-- The words of a language under a condition. -/
def onlyIf (p : Prop) (L : Lang) : Lang :=
  {w | p ∧ w ∈ L}

/-- The right side of a comparison. -/
def printedValue (v : CStr) : Lang :=
  printedLiteral v +
    (onlyIf (v = bytesOf "true") (tok tokTrue) + onlyIf (v = bytesOf "false") (tok tokFalse))

/-- The operators of comparisons. -/
def printedOp : CmpOp → Lang
  | .eq => tok tokEq
  | .neq => tok tokNeq
  | .regex => tok tokEqtilde
  | .contains => tok tokContains
  | .startsWith => tok tokStarts * tok tokWith
  | .endsWith => tok tokEnds * tok tokWith
  | .gt => tok tokGt
  | .lt => tok tokLt
  | .ge => tok tokGte
  | .le => tok tokLte

/-- The property after the variable. -/
def printedProperty : Option CStr → Lang
  | none => 1
  | some property => tok tokDot * textTok tokIdent property

/-- The values of IN, with commas between them. -/
def printedValues : List CStr → Lang
  | [] => 1
  | v :: vs => printedLiteral v * Yields.rounds tokComma printedLiteral vs

/-- What a condition says; EXISTS is no leaf here. -/
def printedTest : Test → Lang
  | .compare property op value => printedProperty property * (printedOp op * printedValue value)
  | .isNull property => printedProperty property * (tok tokIs * tok tokNullKw)
  | .isNotNull property => printedProperty property * (tok tokIs * (tok tokNot * tok tokNullKw))
  | .isIn property values =>
      printedProperty property *
        (tok tokIn * (tok tokLbracket * (printedValues values * tok tokRbracket)))
  | .hasLabel label => tok tokColon * textTok tokIdent label
  | .hasEdge _ _ => 0

/-- A condition; NOT is a node of the tree, never part of a leaf. -/
def printedCondition (c : Condition) : Lang :=
  onlyIf (c.negated = false) (textTok tokIdent c.var * printedTest c.test)

/-- The places of an expression: the operator whose operands it may join without parentheses. -/
inductive Level where
  | or
  | xor
  | and
  | not
deriving DecidableEq

def parensUnless (allowed : Bool) (L : Lang) : Lang :=
  if allowed then L else parens L

def printedExpr : Expr → Level → Lang
  | .condition c, _ => printedCondition c
  | .not child, _ => tok tokNot * printedExpr child .not
  | .and left right, level =>
      parensUnless (level ≠ .not)
        (printedExpr left .and * (tok tokAnd * printedExpr right .not))
  | .xor left right, level =>
      parensUnless (level = .or ∨ level = .xor)
        (printedExpr left .xor * (tok tokXor * printedExpr right .and))
  | .or left right, level =>
      parensUnless (level = .or)
        (printedExpr left .or * (tok tokOr * printedExpr right .xor))

section Conditions

variable {N : Nat} {ok : List (Token TokenType) → Prop}

theorem yields_onlyIf {α : Type} {q : Prop} {f : P α} {a : α} {L : Lang}
    (h : q → Yields N f a L ok) : Yields N f a (onlyIf q L) ok :=
  fun _ _ _ hN hw hrest hr => h hw.1 hN hw.2 hrest hr

theorem yields_value (v : CStr) : Yields N parseValue v (printedValue v) ok := by
  refine .add (.add ?_ ?_) (.add ?_ ?_)
  · refine .ifMatch_one (ofKind_text _ _) ?_
    rintro t rfl
    exact .pure _
  · refine .ifMatch_miss (.ifMatch_one (ofKind_text _ _) ?_) (by simp)
    rintro t rfl
    exact .pure _
  · refine yields_onlyIf ?_
    rintro rfl
    refine .ifMatch_miss (.ifMatch_miss (.ifMatch_one (ofKind_tok _) fun _ _ => .pure _) ?_) ?_
    · simp
    · simp
  · refine yields_onlyIf ?_
    rintro rfl
    refine .ifMatch_miss (.ifMatch_miss (.ifMatch_miss
      (.ifMatch_one (ofKind_tok _) fun _ _ => .pure _) ?_) ?_) ?_
    · simp
    · simp
    · simp

theorem yields_comparisonOp (op : CmpOp) :
    Yields N parseComparisonOp op (printedOp op) ok := by
  -- the operators that the chain asks for before are missed
  cases op
  all_goals
    repeat' first
      | exact .ifMatch_one (ofKind_tok _) fun _ _ => .pure _
      | exact .ifMatch (ofKind_tok _) fun _ _ => .goOn_expect (ofKind_tok _) _
      | refine .ifMatch_miss ?_ (by simp [printedOp])

theorem follows_printedOp_mul {op : CmpOp} {L : Lang} :
    Follows (printedOp op * L) ok (Avoids [.tokIs, .tokIn, .tokColon, .tokDot]) := by
  cases op <;> simp [printedOp, mul_assoc]

theorem yields_inValues_nil (n : Nat) (more : Bool) :
    Yields n (parseInValues n more) [] 1 (Avoids [.tokComma, .tokString, .tokNumber]) := by
  cases n with
  | zero => exact .zero
  | succ n =>
      rw [parseInValues_succ]
      have hround : Yields (n + 1) (parseInRound n) [] 1
          (Avoids [.tokComma, .tokString, .tokNumber]) :=
        .ifRest_neg (.pure []) fun w hw r hr => by
          rw [(Language.mem_one w).mp hw]
          exact Parses.startsAs_eq_false (fun _ => isLiteral_type) hr.tail
      cases more with
      | false => exact (Yields.pure false).bind_one hround follows_true
      | true =>
          have hcomma : Yields (n + 1) (parseInComma true) false 1 (Avoids [.tokComma]) :=
            .ifMatch_miss (.pure false) follows_self
          exact hcomma.bind_one hround (follows_one_avoids (by simp))

theorem yields_inRound {n : Nat} {v : CStr} {vs : List CStr} {L : Lang}
    (h : Yields (N - 1) (parseInValues n true) vs L ok) :
    Yields N (parseInRound n) (v :: vs) (printedLiteral v * L) ok := by
  have hkind : ∀ k : TokenType, k = .tokString ∨ k = .tokNumber →
      Yields N (parseInRound n) (v :: vs) (textTok k v * L) ok := by
    intro k hk
    refine .ifRest_pos (.advance (ofKind_text k v) ?_ ?_) ?_
    · rintro t rfl
      exact decide_eq_true hk
    · rintro t rfl
      exact h.map
    · intro w hw r _
      obtain ⟨x, ⟨t, rfl, -, rfl⟩, u, -, rfl⟩ := Language.mem_mul.mp hw
      exact decide_eq_true hk
  rw [printedLiteral, add_mul]
  exact (hkind _ (Or.inl rfl)).add (hkind _ (Or.inr rfl))

theorem yields_inMore (vs : List CStr) (n : Nat) :
    Yields n (parseInValues n true) vs (Yields.rounds tokComma printedLiteral vs)
      (Avoids [.tokComma, .tokString, .tokNumber]) := by
  induction vs generalizing n with
  | nil => exact yields_inValues_nil n true
  | cons v vs ih =>
      cases n with
      | zero => exact .zero
      | succ n =>
          rw [parseInValues_succ, Yields.rounds_cons]
          have hcomma : Yields (n + 1) (parseInComma true) true (tok tokComma) fun _ => True :=
            .ifMatch_one (ofKind_tok _) fun _ _ => .pure true
          exact hcomma.bind (yields_inRound (ih n)) follows_true

theorem yields_inValues (vs : List CStr) (n : Nat) :
    Yields n (parseInValues n false) vs (printedValues vs)
      (Avoids [.tokComma, .tokString, .tokNumber]) := by
  cases vs with
  | nil => exact yields_inValues_nil n false
  | cons v vs =>
      cases n with
      | zero => exact .zero
      | succ n =>
          rw [parseInValues_succ]
          exact (Yields.pure false).bind_one (yields_inRound (yields_inMore vs n)) follows_true

theorem yields_inList (vs : List CStr) : Yields N parseInList vs
    (tok tokIn * (tok tokLbracket * (printedValues vs * tok tokRbracket))) ok := by
  have hvalues : ∀ M, Yields M (Parser.withFuel fun fuel => parseInValues fuel false) vs
      (printedValues vs) (Avoids [.tokComma, .tokString, .tokNumber]) :=
    fun M => .withFuel fun n => (yields_inValues vs n).mono (Nat.min_le_left n M)
  exact .advance (ofKind_tok _) (fun _ ht => decide_eq_true ht) fun _ _ =>
    .expect (ofKind_tok _) fun _ _ =>
      (hvalues _).bind (.goOn_expect (ofKind_tok _) vs) (by simp)

theorem yields_isNull (property : Option CStr) :
    Yields N (parseIsNull property) (.isNull property) (tok tokNullKw) ok :=
  .ifMatch_miss (.goOn_expect (ofKind_tok _) _) (by simp)

theorem yields_isNotNull (property : Option CStr) :
    Yields N (parseIsNull property) (.isNotNull property) (tok tokNot * tok tokNullKw) ok :=
  .ifMatch (ofKind_tok _) fun _ _ => .goOn_expect (ofKind_tok _) _

theorem yields_property {test : Test} {property : Option CStr} {L : Lang}
    (h : ∀ M, Yields M (parsePropertyTest property) test L ok)
    (hL : Follows L ok (Avoids [.tokColon, .tokDot])) :
    Yields N parseTest test (printedProperty property * L) ok := by
  cases property with
  | none =>
      rw [printedProperty, one_mul]
      refine .ifMatch_miss (.bind_one (.ifMatch_miss (.pure none) follows_self) (h N) ?_) ?_
      · exact fun v hv r hr => (hL v hv r hr).tail
      · exact fun v hv r hr => (hL v hv r hr).head
  | some s =>
      have hdot : ∀ M, Yields M (Parser.ifMatch .tokDot (fun _ => do
          let prop ← expectTok .tokIdent
          pure (some prop.text)) (pure none) : P (Option CStr)) (some s)
          (tok tokDot * textTok tokIdent s) fun _ => True := by
        refine fun M => .ifMatch (ofKind_tok _) fun _ _ => .expect_one (ofKind_text _ _) ?_
        rintro t rfl
        exact .pure _
      rw [printedProperty]
      refine .ifMatch_miss ((hdot N).bind (h N) follows_true) ?_
      rw [mul_assoc]
      exact follows_tok_mul (by simp)

theorem yields_test (test : Test) : Yields N parseTest test (printedTest test) ok := by
  cases test with
  | compare property op value =>
      have hop : Follows (printedOp op * printedValue value) ok
          (Avoids [.tokIs, .tokIn, .tokColon, .tokDot]) := follows_printedOp_mul
      refine yields_property (fun M => .ifMatch_miss (.ifRest_neg
        (.bind (yields_comparisonOp op) (yields_value value).map follows_true) ?_) ?_) ?_
      · exact fun w hw r hr => Parses.startsAs_eq_false (fun _ => Parses.isTok_type)
          (hop w hw r hr).tail.head
      · exact fun w hw r hr => (hop w hw r hr).head
      · exact fun w hw r hr => (hop w hw r hr).tail.tail
  | isNull property =>
      exact yields_property (fun M => .ifMatch (ofKind_tok _) fun _ _ => yields_isNull property)
        (by simp)
  | isNotNull property =>
      exact yields_property (fun M => .ifMatch (ofKind_tok _) fun _ _ => yields_isNotNull property)
        (by simp)
  | isIn property values =>
      refine yields_property (fun M => .ifMatch_miss (.ifRest_pos (yields_inList values).map ?_) ?_) ?_
      · exact fun w hw r _ => Yields.startsAs_ofKind (ofKind_tok _) hw r
      · exact follows_tok_mul (by simp)
      · exact follows_tok_mul (by simp)
  | hasLabel label =>
      refine .ifMatch (ofKind_tok _) fun _ _ => .expect_one (ofKind_text _ _) ?_
      rintro t rfl
      exact .pure _
  | hasEdge direction type => exact fun _ _ _ _ hw => absurd hw (Language.notMem_zero _)

theorem yields_condition (parseOr : P Expr) (c : Condition) :
    Yields N (parseAtomExpr parseOr) (.condition c) (printedCondition c) ok := by
  obtain ⟨var, test, negated⟩ := c
  refine yields_onlyIf ?_
  rintro rfl
  have hbare : Yields N (parseBareCondition false)
      (.condition { var := var, test := test, negated := false })
      (textTok tokIdent var * printedTest test) ok := by
    refine .ifRest_neg (.expect (ofKind_text _ _) ?_) ?_
    · rintro t rfl
      exact (yields_test test).map
    · exact fun w hw r hr => Parses.startsAs_eq_false (fun _ => Parses.isTok_type)
        (follows_text_mul (by simp) w hw r hr)
  refine .ifMatch_miss (.bind_one (.ifMatch_miss (.pure false) follows_self) hbare ?_) ?_
  · exact follows_text_mul (by simp)
  · exact follows_text_mul (by simp)

end Conditions

section Expressions

variable {N : Nat} {ok : List (Token TokenType) → Prop} {parseOr : P Expr}

theorem spine {op : TokenType} {mk : Expr → Expr → Expr} {B A : Expr → Lang}
    (hB : ∀ e, B e ≤ A e ∨ ∃ left right, e = mk left right ∧ sizeOf left < sizeOf e ∧
      B e ≤ B left * (tok op * A right)) (e : Expr) :
    ∃ left rights, e = List.foldl mk left rights ∧
      B e ≤ A left * Yields.rounds op A rights := by
  rcases hB e with hle | ⟨left, right, rfl, hlt, hle⟩
  · exact ⟨e, [], rfl, hle.trans (le_of_eq (mul_one _).symm)⟩
  · obtain ⟨first, rights, rfl, hfirst⟩ := spine hB left
    refine ⟨first, rights ++ [right], by rw [List.foldl_append]; rfl, hle.trans ?_⟩
    rw [Yields.rounds_concat]
    exact (mul_le_mul' hfirst le_rfl).trans (le_of_eq (mul_assoc _ _ _))
termination_by sizeOf e

theorem yields_binary {op : TokenType} {mk : Expr → Expr → Expr} {operand : P Expr}
    {B A : Expr → Lang} {ks : List TokenType}
    (hB : ∀ e, B e ≤ A e ∨ ∃ left right, e = mk left right ∧ sizeOf left < sizeOf e ∧
      B e ≤ B left * (tok op * A right))
    (h : ∀ e, Yields N operand e (A e) (Avoids ks)) (hop : op ∉ ks) (e : Expr) :
    Yields N (parseBinaryExpr op mk operand) e (B e) (Avoids (op :: ks)) := by
  obtain ⟨left, rights, rfl, hle⟩ := spine hB e
  exact ((h left).bind (Yields.whileMatch h hop rights).map
    (Yields.follows_rounds hop rights)).le hle fun _ hr => hr

theorem yields_parens (h : ∀ e, Yields (N - 1) parseOr e (printedExpr e .or)
    (Avoids [.tokOr, .tokXor, .tokAnd])) (e : Expr) :
    Yields N (parseAtomExpr parseOr) e (parens (printedExpr e .or)) ok := by
  rw [parens, mul_assoc]
  exact .ifMatch (ofKind_tok _) fun _ _ => (h e).andAlso Parses.expect (by simp)

theorem yields_notFuel (h : ∀ e, Yields (N - 1) parseOr e (printedExpr e .or)
    (Avoids [.tokOr, .tokXor, .tokAnd])) (e : Expr) (n : Nat) :
    Yields (min n N) (parseNotFuel parseOr n) e (printedExpr e .not) ok := by
  have hatom : ∀ e L, Yields N (parseAtomExpr parseOr) e L ok →
      Follows L ok (Avoids [.tokNot]) → ∀ n, Yields (min n N) (parseNotFuel parseOr n) e L ok := by
    intro e L hL hfollows n
    cases n with
    | zero =>
        rw [Nat.zero_min]
        exact .zero
    | succ n => exact .ifMatch_miss (hL.mono (Nat.min_le_right _ N)) hfollows
  have hparens : ∀ e, Follows (parens (printedExpr e .or)) ok (Avoids [.tokNot]) := by
    intro e
    rw [parens, mul_assoc]
    exact follows_tok_mul (by simp)
  induction e generalizing n with
  | condition c =>
      refine hatom _ _ (yields_condition parseOr c) ?_ n
      exact fun w hw r hr => follows_text_mul (by simp) w hw.2 r hr
  | not child ih =>
      cases n with
      | zero =>
          rw [Nat.zero_min]
          exact .zero
      | succ n => exact .ifMatch (ofKind_tok _) fun _ _ => ((ih n).mono (by omega)).map
  | and left right => exact hatom _ _ (yields_parens h _) (hparens _) n
  | or left right => exact hatom _ _ (yields_parens h _) (hparens _) n
  | xor left right => exact hatom _ _ (yields_parens h _) (hparens _) n

theorem printedExpr_and (e : Expr) :
    printedExpr e .and ≤ printedExpr e .not ∨ ∃ left right, e = .and left right ∧
      sizeOf left < sizeOf e ∧
      printedExpr e .and ≤ printedExpr left .and * (tok tokAnd * printedExpr right .not) := by
  cases e with
  | and left right => exact Or.inr ⟨left, right, rfl, by simp; omega, le_rfl⟩
  | _ => exact Or.inl le_rfl

theorem printedExpr_xor (e : Expr) :
    printedExpr e .xor ≤ printedExpr e .and ∨ ∃ left right, e = .xor left right ∧
      sizeOf left < sizeOf e ∧
      printedExpr e .xor ≤ printedExpr left .xor * (tok tokXor * printedExpr right .and) := by
  cases e with
  | xor left right => exact Or.inr ⟨left, right, rfl, by simp; omega, le_rfl⟩
  | _ => exact Or.inl le_rfl

theorem printedExpr_or (e : Expr) :
    printedExpr e .or ≤ printedExpr e .xor ∨ ∃ left right, e = .or left right ∧
      sizeOf left < sizeOf e ∧
      printedExpr e .or ≤ printedExpr left .or * (tok tokOr * printedExpr right .xor) := by
  cases e with
  | or left right => exact Or.inr ⟨left, right, rfl, by simp; omega, le_rfl⟩
  | _ => exact Or.inl le_rfl

theorem yields_xorExpr (h : ∀ e, Yields (N - 1) parseOr e (printedExpr e .or)
    (Avoids [.tokOr, .tokXor, .tokAnd])) (e : Expr) :
    Yields N (parseXorExpr parseOr) e (printedExpr e .xor) (Avoids [.tokXor, .tokAnd]) := by
  have hnot : ∀ e, Yields N (parseNotExpr parseOr) e (printedExpr e .not) (Avoids []) :=
    fun e => .withFuel (yields_notFuel h e)
  have hand : ∀ e, Yields N (parseAndExpr parseOr) e (printedExpr e .and) (Avoids [.tokAnd]) :=
    yields_binary printedExpr_and hnot (by simp)
  exact yields_binary printedExpr_xor hand (by simp) e

theorem yields_orFuel (n : Nat) (e : Expr) : Yields n (parseOrFuel n) e (printedExpr e .or)
    (Avoids [.tokOr, .tokXor, .tokAnd]) := by
  induction n generalizing e with
  | zero => exact .zero
  | succ n ih => exact yields_binary printedExpr_or (yields_xorExpr (N := n + 1) ih) (by simp) e

end Expressions

/-- The conditions that are leaves here: no EXISTS, and no NOT of their own. -/
def Condition.IsLeaf (c : Condition) : Prop :=
  c.negated = false ∧ ∀ direction type, c.test ≠ .hasEdge direction type

/-- The conditions of the tree are leaves. -/
def Expr.IsPlain : Expr → Prop
  | .condition c => c.IsLeaf
  | .not child => child.IsPlain
  | .and left right => left.IsPlain ∧ right.IsPlain
  | .xor left right => left.IsPlain ∧ right.IsPlain
  | .or left right => left.IsPlain ∧ right.IsPlain

def HasWord (L : Lang) : Prop :=
  ∃ w, w ∈ L

theorem singleton_mem_tok (t : Token TokenType) : [t] ∈ tok t.type :=
  ⟨t, rfl, rfl⟩

theorem singleton_mem_text (t : Token TokenType) : [t] ∈ textTok t.type t.text :=
  ⟨t, rfl, rfl, rfl⟩

theorem hasWord_tok (k : TokenType) : HasWord (tok k) :=
  ⟨_, singleton_mem_tok ⟨k, [], 0⟩⟩

theorem hasWord_text (k : TokenType) (s : CStr) : HasWord (textTok k s) :=
  ⟨_, singleton_mem_text ⟨k, s, 0⟩⟩

theorem HasWord.mul {L M : Lang} (hL : HasWord L) (hM : HasWord M) : HasWord (L * M) := by
  obtain ⟨w, hw⟩ := hL
  obtain ⟨v, hv⟩ := hM
  exact ⟨w ++ v, Language.append_mem_mul hw hv⟩

theorem HasWord.parensUnless {allowed : Bool} {L : Lang} (hL : HasWord L) :
    HasWord (parensUnless allowed L) := by
  cases allowed with
  | true => exact hL
  | false => exact ((hasWord_tok _).mul hL).mul (hasWord_tok _)

theorem hasWord_literal (v : CStr) : HasWord (printedLiteral v) := by
  obtain ⟨w, hw⟩ := hasWord_text .tokString v
  exact ⟨w, Or.inl hw⟩

theorem hasWord_values (vs : List CStr) : HasWord (printedValues vs) := by
  have hrounds : ∀ vs, HasWord (Yields.rounds tokComma printedLiteral vs) := by
    intro vs
    induction vs with
    | nil => exact ⟨[], rfl⟩
    | cons v vs ih =>
        rw [Yields.rounds_cons]
        exact (hasWord_tok _).mul ((hasWord_literal v).mul ih)
  cases vs with
  | nil => exact ⟨[], rfl⟩
  | cons v vs => exact (hasWord_literal v).mul (hrounds vs)

theorem hasWord_op (op : CmpOp) : HasWord (printedOp op) := by
  cases op with
  | startsWith => exact (hasWord_tok _).mul (hasWord_tok _)
  | endsWith => exact (hasWord_tok _).mul (hasWord_tok _)
  | _ => exact hasWord_tok _

theorem hasWord_property (property : Option CStr) : HasWord (printedProperty property) := by
  cases property with
  | none => exact ⟨[], rfl⟩
  | some s => exact (hasWord_tok _).mul (hasWord_text _ s)

theorem hasWord_condition {c : Condition} (h : c.IsLeaf) : HasWord (printedCondition c) := by
  have htest : HasWord (printedTest c.test) := by
    cases htest : c.test with
    | compare property op value =>
        obtain ⟨w, hw⟩ := hasWord_literal value
        exact (hasWord_property property).mul ((hasWord_op op).mul ⟨w, Or.inl hw⟩)
    | isNull property =>
        exact (hasWord_property property).mul ((hasWord_tok _).mul (hasWord_tok _))
    | isNotNull property =>
        exact (hasWord_property property).mul
          ((hasWord_tok _).mul ((hasWord_tok _).mul (hasWord_tok _)))
    | isIn property values =>
        exact (hasWord_property property).mul ((hasWord_tok _).mul
          ((hasWord_tok _).mul ((hasWord_values values).mul (hasWord_tok _))))
    | hasLabel label => exact (hasWord_tok _).mul (hasWord_text _ label)
    | hasEdge direction type => exact absurd htest (h.2 direction type)
  obtain ⟨w, hw⟩ := (hasWord_text .tokIdent c.var).mul htest
  exact ⟨w, h.1, hw⟩

theorem exists_printed (e : Expr) (h : e.IsPlain) (level : Level) :
    ∃ w, w ∈ printedExpr e level := by
  change HasWord _
  induction e generalizing level with
  | condition c => exact hasWord_condition h
  | not child ih => exact (hasWord_tok _).mul (ih h .not)
  | and left right ihl ihr =>
      exact ((ihl h.1 .and).mul ((hasWord_tok _).mul (ihr h.2 .not))).parensUnless
  | xor left right ihl ihr =>
      exact ((ihl h.1 .xor).mul ((hasWord_tok _).mul (ihr h.2 .and))).parensUnless
  | or left right ihl ihr =>
      exact ((ihl h.1 .or).mul ((hasWord_tok _).mul (ihr h.2 .xor))).parensUnless

/-- A printed expression, before a token that continues no expression, is read to its last token,
and gives the tree that was printed. -/
theorem parseOrExpr_printed (e : Expr) {w r : List (Token TokenType)}
    (hw : w ∈ printedExpr e .or) (hr : Avoids [.tokOr, .tokXor, .tokAnd] r)
    {p : Cursor TokenType ParseError} (hp : p.rest = w ++ r) :
    ∃ q, parseOrExpr.run p = (some e, q) ∧ q.rest = r ∧ q.before = w.reverse ++ p.before := by
  obtain ⟨q, hrun, hq, -, hbefore⟩ := yields_orFuel (p.rest.length + 1) e (Nat.lt_succ_self _) hw
    hp hr
  exact ⟨q, hrun, hq, hbefore⟩

/-- A token without a text. -/
def plainToken (k : TokenType) : Token TokenType :=
  { type := k, text := [], pos := 0 }

def nameToken (name : CStr) : Token TokenType :=
  { type := .tokIdent, text := name, pos := 0 }

/-- `n:F`. -/
def labelTest : Condition :=
  { var := bytesOf "n", test := .hasLabel (bytesOf "F"), negated := false }

def labelTokens : List (Token TokenType) :=
  [nameToken (bytesOf "n")] ++ ([plainToken .tokColon] ++ [nameToken (bytesOf "F")])

/-- `(n:F OR n:F) AND NOT n:F`. -/
def andTokens : List (Token TokenType) :=
  [plainToken .tokLparen] ++ (labelTokens ++ ([plainToken .tokOr] ++ labelTokens)) ++
    [plainToken .tokRparen] ++ ([plainToken .tokAnd] ++ ([plainToken .tokNot] ++ labelTokens))

theorem parseOrExpr_printed_and :
    ∃ q, parseOrExpr.run
        { before := [], rest := andTokens ++ [plainToken .tokReturn], error := none,
          slipped := false } =
        (some (.and (.or (.condition labelTest) (.condition labelTest))
          (.not (.condition labelTest))), q) ∧
      q.rest = [plainToken .tokReturn] ∧ q.before = andTokens.reverse ++ [] := by
  refine parseOrExpr_printed _ ?_ (avoids_cons.mpr (by decide)) rfl
  have hleaf : labelTokens ∈ printedCondition labelTest := by
    refine ⟨rfl, ?_⟩
    exact Language.append_mem_mul (singleton_mem_text (nameToken (bytesOf "n")))
      (Language.append_mem_mul (singleton_mem_tok (plainToken .tokColon))
        (singleton_mem_text (nameToken (bytesOf "F"))))
  have hor := Language.append_mem_mul hleaf
    (Language.append_mem_mul (singleton_mem_tok (plainToken .tokOr)) hleaf)
  exact Language.append_mem_mul
    (Language.append_mem_mul
      (Language.append_mem_mul (singleton_mem_tok (plainToken .tokLparen)) hor)
      (singleton_mem_tok (plainToken .tokRparen)))
    (Language.append_mem_mul (singleton_mem_tok (plainToken .tokAnd))
      (Language.append_mem_mul (singleton_mem_tok (plainToken .tokNot)) hleaf))

end Cypher
end CodebaseMemory
