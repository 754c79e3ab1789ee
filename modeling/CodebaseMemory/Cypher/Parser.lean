import CodebaseMemory.Cypher.Project
import CodebaseMemory.Lib.Descent

/-!
# The parser (`src/cypher/cypher.c`, `cbm_parse`)

The recursive descent parser, function by function.  A failure is the return
value -1 or NULL of the source.

Reading aids:
* At the end of the tokens nothing matches; the source has the EOF token there,
  which no function reads.
* `match(p, t)` in a condition is `ifMatch`, as a statement `optional`.  `advance`
  comes after a check; the check is repeated in it.
* `goOn` is a call whose result the source does not check, `orGoOn` and `loop` go on
  without it.  Where the source goes on after a miss, the cursor has slipped.
* A loop runs with more fuel than there are tokens left.
* Allocation failures are left out, and so is the size of the buffer of UNWIND.
-/

namespace CodebaseMemory
namespace Cypher

open Lib
open Sqlite (CStr bytesOf)

/-- `cbm_token_type_t`. -/
inductive TokenType where
  | tokMatch
  | tokWhere
  | tokReturn
  | tokOrder
  | tokBy
  | tokLimit
  | tokAnd
  | tokOr
  | tokAs
  | tokDistinct
  | tokCount
  | tokContains
  | tokStarts
  | tokWith
  | tokNot
  | tokAsc
  | tokDesc
  | tokNeq
  | tokEnds
  | tokIn
  | tokIs
  | tokNullKw
  | tokXor
  | tokSkip
  | tokUnion
  | tokUnwind
  | tokSum
  | tokAvg
  | tokMinKw
  | tokMaxKw
  | tokCollect
  | tokTolower
  | tokToupper
  | tokTostring
  | tokCase
  | tokWhen
  | tokThen
  | tokElse
  | tokEnd
  | tokCreate
  | tokDelete
  | tokDetach
  | tokSet
  | tokRemove
  | tokMerge
  | tokOptional
  | tokYield
  | tokCall
  | tokAll
  | tokTrue
  | tokFalse
  | tokExists
  | tokMandatory
  | tokForeach
  | tokOn
  | tokAdd
  | tokConstraint
  | tokDo
  | tokDrop
  | tokFor
  | tokFrom
  | tokGraph
  | tokOf
  | tokRequire
  | tokScalar
  | tokUnique
  | tokLparen
  | tokRparen
  | tokLbracket
  | tokRbracket
  | tokDash
  | tokGt
  | tokLt
  | tokColon
  | tokDot
  | tokLbrace
  | tokRbrace
  | tokStar
  | tokComma
  | tokEq
  | tokEqtilde
  | tokGte
  | tokLte
  | tokPipe
  | tokDotdot
  | tokIdent
  | tokString
  | tokNumber
  | tokEof
deriving DecidableEq

/-- The texts that are written into `p->error`.  A token is the one the message
names by its type or its place, nothing at the end. -/
inductive ParseError where
  /-- expected token type %d, got %d at pos %d -/
  | expected (want : TokenType) (got : Option (Token TokenType))
  /-- the texts of `unsupported_clause_error` -/
  | unsupportedClause (type : TokenType)
  /-- expected an opening brace after EXISTS at pos %d -/
  | existsBrace (got : Option (Token TokenType))
  /-- unsupported EXISTS pattern -/
  | existsPattern
  /-- unexpected operator at pos %d -/
  | operator (got : Option (Token TokenType))
  /-- expected value at pos %d -/
  | value (got : Option (Token TokenType))
  /-- unsupported function '%s' -/
  | unsupportedFunction (name : CStr)
  /-- unsupported expression: list indexing/slicing -/
  | listIndexing

abbrev P := Lib.Parser TokenType ParseError

open Lib.Parser

/-- `expect`. -/
def expectTok (k : TokenType) : P (Token TokenType) :=
  Lib.Parser.expect k (fun rest => .expected k rest.head?)

def check (k : TokenType) : List (Token TokenType) → Bool :=
  startsAs (isTok k)

/-- `unsupported_clause_error` has a text for this type. -/
def isUnsupported : TokenType → Bool
  | .tokCreate | .tokDelete | .tokDetach | .tokSet | .tokRemove | .tokMerge | .tokYield
  | .tokCall | .tokForeach | .tokMandatory | .tokDrop | .tokConstraint => true
  | _ => false

/-- Fails at an unsupported keyword. -/
def rejectUnsupported {α : Type} (f : P α) : P α :=
  ifRest (startsAs fun t => isUnsupported t.type)
    (fail fun rest => .unsupportedClause ((rest.head?.map Token.type).getD .tokEof)) f

/-- `(int)strtol(text, NULL, 10)`. -/
def strtolInt (text : CStr) : Int :=
  let s := text.dropWhile (fun c => c = 32 || (9 ≤ c && c ≤ 13))
  let negative := s.head? = some 45
  let digits := (if s.head? = some 45 ∨ s.head? = some 43 then s.tail else s).takeWhile
    (fun c => 48 ≤ c && c ≤ 57)
  let n : Int := digits.foldl (fun v c => 10 * v + (c.toNat - 48)) 0
  let long := if negative then max (-n) (-2 ^ 63) else min n (2 ^ 63 - 1)
  (long + 2 ^ 31) % 2 ^ 32 - 2 ^ 31

/-- One round of `parse_props`. -/
def parseProp : P PropFilter := do
  let key ← expectTok .tokIdent
  let _ ← expectTok .tokColon
  let val ← expectTok .tokString
  let _ ← optional .tokComma
  pure { key := key.text, value := val.text }

/-- Neither the closing token nor EOF is next. -/
def notYet (close : TokenType) : List (Token TokenType) → Bool :=
  startsAs fun t => t.type ≠ close ∧ t.type ≠ .tokEof

def parseProps : P (List PropFilter) :=
  ifMatch .tokLbrace
    (fun _ => do
      let props ← withFuel (loop (notYet .tokRbrace) (pure ()) (fun _ => parseProp))
      let _ ← goOn (expectTok .tokRbrace)
      pure props)
    (pure [])

/-- The room in `lbuf`, with the zero at its end. -/
def labelRoom : Nat := 256

/-- The further labels of an alternation, when `ll` bytes are in `lbuf`.  The loop
ends when the buffer is full. -/
def parseLabelAlts : Nat → Nat → P (List CStr)
  | 0, _ => pure []
  | fuel + 1, ll =>
      ifMatch .tokPipe
        (fun _ => do
          let alt ← expectTok .tokIdent
          if ll + 1 + alt.text.length ≥ labelRoom then pure [alt.text]
          else do
            let alts ← parseLabelAlts fuel (ll + 1 + alt.text.length)
            pure (alt.text :: alts))
        (pure [])

/-- The label of `parse_node`, after the colon. -/
def parseLabel : P CStr := do
  let label ← expectTok .tokIdent
  let alts ← withFuel (fun fuel => parseLabelAlts fuel label.text.length)
  pure ((label.text ++ (alts.map (124 :: ·)).flatten).take (labelRoom - 1))

def parseNode : P NodePattern := do
  let _ ← expectTok .tokLparen
  let var ← ifMatch .tokIdent (fun t => pure (some t.text)) (pure none)
  let label ← ifMatch .tokColon (fun _ => do
    let label ← parseLabel
    pure (some label)) (pure none)
  let props ← ifRest (check .tokLbrace) parseProps (pure [])
  let _ ← expectTok .tokRparen
  pure { var := var, label := label, props := props }

/-- The upper end of a range of hops. -/
def parseMaxHops : P Nat :=
  ifMatch .tokNumber (fun t => pure (strtolInt t.text).toNat) (pure 0)

/-- `parse_hop_range`: the least and the greatest number of hops. -/
def parseHopRange : P (Nat × Nat) :=
  ifMatch .tokNumber
    (fun t =>
      ifMatch .tokDotdot
        (fun _ => do
          let maxHops ← parseMaxHops
          pure ((strtolInt t.text).toNat, maxHops))
        (pure (1, (strtolInt t.text).toNat)))
    (ifMatch .tokDotdot
      (fun _ => do
        let maxHops ← parseMaxHops
        pure (1, maxHops))
      (pure (1, 0)))

def parseRelTypes : P (List CStr) := do
  let t ← expectTok .tokIdent
  let types ← whileMatch .tokPipe (do
    let t ← expectTok .tokIdent
    pure t.text)
  pure (t.text :: types)

structure RelBracket where
  var : Option CStr
  types : List CStr
  hops : Nat × Nat

def parseRelBracket : P RelBracket := do
  let var ← ifMatch .tokIdent (fun t => pure (some t.text)) (pure none)
  let types ← ifMatch .tokColon (fun _ => parseRelTypes) (pure [])
  let hops ← ifMatch .tokStar (fun _ => parseHopRange) (pure (1, 1))
  let _ ← expectTok .tokRbracket
  pure { var := var, types := types, hops := hops }

def relDirection : Bool → Bool → Direction
  | true, false => .inbound
  | false, true => .outbound
  | _, _ => .any

def parseRel : P RelPattern := do
  let leadingLt ← optional .tokLt
  let _ ← expectTok .tokDash
  let out ← ifMatch .tokLbracket (fun _ => parseRelBracket)
    (pure { var := none, types := [], hops := (1, 1) })
  let _ ← expectTok .tokDash
  let trailingGt ← optional .tokGt
  pure
    { var := out.var
      types := out.types
      direction := relDirection leadingLt trailingGt
      minHops := out.hops.1
      maxHops := out.hops.2 }

/-- One step of `parse_match_pattern`. -/
def parseStep : P (RelPattern × NodePattern) := do
  let rel ← parseRel
  let node ← parseNode
  pure (rel, node)

def parseMatchPattern : P Pattern := do
  let node ← parseNode
  let steps ← withFuel (loop (startsAs fun t => t.type = .tokDash ∨ t.type = .tokLt) (pure ())
    (fun _ => parseStep))
  pure { start := node, steps := steps }

/-- The loop of `parse_in_list`; `more` says that there are values already. -/
def parseInValues : Nat → Bool → P (List CStr)
  | 0, _ => pure []
  | fuel + 1, more =>
      ifRest (notYet .tokRbracket)
        (do
          let _ ← if more then optional .tokComma else pure false
          ifRest (startsAs fun t => t.type = .tokString ∨ t.type = .tokNumber)
            (do
              let t ← advance fun t => t.type = .tokString ∨ t.type = .tokNumber
              let vals ← parseInValues fuel true
              pure (t.text :: vals))
            (pure []))
        (pure [])

def parseInList : P (List CStr) := do
  let _ ← advance (isTok .tokIn)
  let _ ← expectTok .tokLbracket
  let vals ← withFuel (fun fuel => parseInValues fuel false)
  let _ ← goOn (expectTok .tokRbracket)
  pure vals

/-- `parse_comparison_op`, and the error of its caller when there is none. -/
def parseComparisonOp : P CmpOp :=
  ifMatch .tokEq (fun _ => pure .eq) <|
  ifMatch .tokNeq (fun _ => pure .neq) <|
  ifMatch .tokEqtilde (fun _ => pure .regex) <|
  ifMatch .tokGte (fun _ => pure .ge) <|
  ifMatch .tokLte (fun _ => pure .le) <|
  ifMatch .tokGt (fun _ => pure .gt) <|
  ifMatch .tokLt (fun _ => pure .lt) <|
  ifMatch .tokContains (fun _ => pure .contains) <|
  ifMatch .tokStarts (fun _ => do
    let _ ← goOn (expectTok .tokWith)
    pure .startsWith) <|
  ifMatch .tokEnds (fun _ => do
    let _ ← goOn (expectTok .tokWith)
    pure .endsWith)
  (fail fun rest => .operator rest.head?)

def parseValue : P CStr :=
  ifMatch .tokString (fun t => pure t.text) <|
  ifMatch .tokNumber (fun t => pure t.text) <|
  ifMatch .tokTrue (fun _ => pure (bytesOf "true")) <|
  ifMatch .tokFalse (fun _ => pure (bytesOf "false"))
  (fail fun rest => .value rest.head?)

def parseExistsPattern : P (NodePattern × RelPattern) := do
  let anchor ← parseNode
  let rel ← parseRel
  let _ ← parseNode
  pure (anchor, rel)

def parseExistsPredicate (negated : Bool) : P Expr := do
  let _ ← advance (isTok .tokExists)
  ifMatch .tokLbrace
    (fun _ => do
      let (anchor, rel) ← orError .existsPattern parseExistsPattern
      let _ ← goOn (expectTok .tokRbrace)
      pure (.condition
        { var := anchor.var.getD [], test := .hasEdge rel.direction rel.types.head?,
          negated := negated }))
    (fail fun rest => .existsBrace rest.head?)

/-- `IS NULL` and `IS NOT NULL`, after `IS`. -/
def parseIsNull (property : Option CStr) : P Test :=
  ifMatch .tokNot
    (fun _ => do
      let _ ← goOn (expectTok .tokNullKw)
      pure (.isNotNull property))
    (do
      let _ ← goOn (expectTok .tokNullKw)
      pure (.isNull property))

/-- What a condition says of a property. -/
def parsePropertyTest (property : Option CStr) : P Test :=
  ifMatch .tokIs (fun _ => parseIsNull property) <|
  ifRest (check .tokIn)
    (do
      let vals ← parseInList
      pure (.isIn property vals))
    (do
      let op ← parseComparisonOp
      let value ← parseValue
      pure (.compare property op value))

/-- What a condition says, after its variable. -/
def parseTest : P Test :=
  ifMatch .tokColon
    (fun _ => do
      let lbl ← expectTok .tokIdent
      pure (.hasLabel lbl.text))
    (do
      let property ← ifMatch .tokDot (fun _ => do
        let prop ← expectTok .tokIdent
        pure (some prop.text)) (pure none)
      parsePropertyTest property)

def parseConditionExpr : P Expr := do
  let negated ← optional .tokNot
  ifRest (check .tokExists) (parseExistsPredicate negated)
    (do
      let var ← expectTok .tokIdent
      let test ← parseTest
      pure (.condition { var := var.text, test := test, negated := negated }))

/-- `parse_atom_expr`.  The closing parenthesis is expected even if there is no
expression. -/
def parseAtomExpr (parseOr : P Expr) : P Expr :=
  ifMatch .tokLparen (fun _ => andAlso parseOr (expectTok .tokRparen)) parseConditionExpr

/-- `parse_not_expr` with so much fuel for its own calls. -/
def parseNotFuel (parseOr : P Expr) : Nat → P Expr
  | 0 => stop
  | fuel + 1 =>
      ifMatch .tokNot
        (fun _ => do
          let child ← parseNotFuel parseOr fuel
          pure (.not child))
        (parseAtomExpr parseOr)

def parseNotExpr (parseOr : P Expr) : P Expr :=
  withFuel (parseNotFuel parseOr)

/-- `parse_and_expr`, `parse_xor_expr` and `parse_or_expr`, which differ in their
operator only. -/
def parseBinaryExpr (op : TokenType) (mk : Expr → Expr → Expr) (operand : P Expr) : P Expr := do
  let left ← operand
  let rights ← whileMatch op operand
  pure (rights.foldl mk left)

def parseAndExpr (parseOr : P Expr) : P Expr :=
  parseBinaryExpr .tokAnd .and (parseNotExpr parseOr)

def parseXorExpr (parseOr : P Expr) : P Expr :=
  parseBinaryExpr .tokXor .xor (parseAndExpr parseOr)

/-- `parse_or_expr` with so much fuel for nested parentheses. -/
def parseOrFuel : Nat → P Expr
  | 0 => stop
  | fuel + 1 => parseBinaryExpr .tokOr .or (parseXorExpr (parseOrFuel fuel))

def parseOrExpr : P Expr :=
  withFuel parseOrFuel

/-- `parse_where`.  Every failure of an expression leaves an error. -/
def parseWhere : P (Option WhereClause) :=
  ifMatch .tokWhere
    (fun _ => do
      let root ← parseOrExpr
      pure (some (some root)))
    (pure none)

/-- The room for a name in a buffer of `CBM_SZ_256`, and what is printed there. -/
def printed (text : CStr) : CStr :=
  text.take nameRoom

/-- The property after a dot; what follows the dot is not checked. -/
def parseDotProp : P (Option CStr) :=
  ifMatch .tokDot
    (fun _ => do
      let prop ← goOn (expectTok .tokIdent)
      pure (prop.map Token.text))
    (pure none)

def parseValueLiteral : P CStr :=
  ifMatch .tokString (fun t => pure t.text) <|
  ifMatch .tokNumber (fun t => pure t.text) <|
  ifMatch .tokIdent
    (fun v =>
      ifMatch .tokDot
        (fun _ => do
          let pr ← goOn (expectTok .tokIdent)
          pure (printed (v.text ++ 46 :: (pr.map Token.text).getD [])))
        (pure (printed v.text))) <|
  ifMatch .tokTrue (fun _ => pure (bytesOf "true")) <|
  ifMatch .tokFalse (fun _ => pure (bytesOf "false"))
  stop

/-- `cbm_case_expr_t`; a condition or a value that is missing is NULL. -/
structure CaseExpr where
  branches : List (Option Expr × Option CStr)
  elseVal : Option CStr

/-- What is read of a branch before the loop can end for want of a THEN. -/
def parseWhen : P (Option Expr) := do
  let _ ← advance (isTok .tokWhen)
  let when ← goOn parseOrExpr
  let _ ← expectTok .tokThen
  pure when

/-- `parse_case_expr`, after CASE. -/
def parseCaseExpr : P CaseExpr := do
  let branches ← withFuel (loop (check .tokWhen) parseWhen (fun when => do
    let thenVal ← goOn parseValueLiteral
    pure (when, thenVal)))
  let elseVal ← ifMatch .tokElse (fun _ => goOn parseValueLiteral) (pure none)
  let _ ← goOn (expectTok .tokEnd)
  pure { branches := branches, elseVal := elseVal }

/-- An item, as the parser builds it. -/
inductive ParsedExpr where
  | kase (c : CaseExpr)
  | item (e : ItemExpr)

def parseVarDotProp : P (CStr × Option CStr) := do
  let var ← expectTok .tokIdent
  let property ← parseDotProp
  pure (var.text, property)

/-- `is_aggregate_tok`, with the function. -/
def aggregateOf : TokenType → Option AggFunc
  | .tokCount => some .count
  | .tokSum => some .sum
  | .tokAvg => some .avg
  | .tokMinKw => some .min
  | .tokMaxKw => some .max
  | .tokCollect => some .collect
  | _ => none

/-- `is_string_func_tok`, with the function. -/
def stringFuncOf : TokenType → Option StringFunc
  | .tokTolower => some .toLower
  | .tokToupper => some .toUpper
  | .tokTostring => some .toString
  | _ => none

/-- A name in a table, in any case. -/
def canonical {α : Type} (names : List (String × α)) (s : CStr) : Option α :=
  (names.find? fun entry => cypCiEq s (bytesOf entry.1)).map Prod.snd

def scalarFuncCanonical : CStr → Option (EntityFunc ⊕ StringFunc) :=
  canonical
    [("labels", .inl .labels), ("type", .inl .type), ("id", .inl .id), ("keys", .inl .keys),
      ("properties", .inl .properties), ("toInteger", .inr .toInteger),
      ("toFloat", .inr .toFloat), ("toBoolean", .inr .toBoolean), ("size", .inr .size),
      ("length", .inr .length), ("trim", .inr .trim), ("ltrim", .inr .ltrim),
      ("rtrim", .inr .rtrim), ("reverse", .inr .reverse)]

def multiargFuncCanonical : CStr → Option MultiFunc :=
  canonical
    [("coalesce", .coalesce), ("substring", .substring), ("replace", .replace), ("left", .left),
      ("right", .right)]

def isFuncName {α : Type} (names : CStr → Option α) (t : Token TokenType) : Bool :=
  t.type = .tokIdent ∧ (names t.text).isSome

/-- `is_named_func_call` and `is_multiarg_func_call`: the name of a function and an
opening parenthesis. -/
def isCall {α : Type} (names : CStr → Option α) : List (Token TokenType) → Bool
  | t :: u :: _ => isFuncName names t && u.type = .tokLparen
  | _ => false

def parseNamedFuncItem : P ItemExpr := do
  let name ← advance (isFuncName scalarFuncCanonical)
  let _ ← goOn (expectTok .tokLparen)
  let (var, property) ← parseVarDotProp
  let _ ← goOn (expectTok .tokRparen)
  match scalarFuncCanonical name.text with
    | some (.inl func) => pure (.entity func var property)
    | some (.inr func) => pure (.string func var property)
    | none => pure (.plain var property)

def parseFuncArg : P FuncArg :=
  ifMatch .tokString (fun t => pure (.literal t.text)) <|
  ifMatch .tokNumber (fun t => pure (.literal t.text)) <| do
    let (var, property) ← parseVarDotProp
    pure (.ref var property)

/-- The arguments after the first one.  A missing comma ends the loop. -/
def parseMoreArgs : P (List FuncArg) :=
  withFuel (loop (notYet .tokRparen) (advance (isTok .tokComma)) (fun _ => parseFuncArg))

def parseMultiargFuncItem : P ItemExpr := do
  let name ← advance (isFuncName multiargFuncCanonical)
  let _ ← goOn (expectTok .tokLparen)
  let args ← ifRest (notYet .tokRparen)
    (do
      let arg ← parseFuncArg
      let args ← parseMoreArgs
      pure (arg :: args))
    (pure [])
  let _ ← goOn (expectTok .tokRparen)
  pure (.multi ((multiargFuncCanonical name.text).getD .coalesce) args)

def parseAggregateItem : P ItemExpr := do
  let t ← advance fun t => (aggregateOf t.type).isSome
  let _ ← goOn (expectTok .tokLparen)
  let distinct ← optional .tokDistinct
  let (var, property) ← ifMatch .tokStar (fun _ => pure (bytesOf "*", none)) parseVarDotProp
  let _ ← goOn (expectTok .tokRparen)
  pure (.aggregate ((aggregateOf t.type).getD .count) distinct var property)

def parseStringFuncItem : P ItemExpr := do
  let t ← advance fun t => (stringFuncOf t.type).isSome
  let _ ← goOn (expectTok .tokLparen)
  let (var, property) ← parseVarDotProp
  let _ ← goOn (expectTok .tokRparen)
  pure (.string ((stringFuncOf t.type).getD .toString) var property)

/-- A plain item, which no parenthesis and no bracket may follow. -/
def parsePlainItem : P ItemExpr := do
  let (var, property) ← parseVarDotProp
  ifRest (check .tokLparen) (fail fun _ => .unsupportedFunction var) <|
    ifRest (check .tokLbracket) (fail fun _ => .listIndexing) (pure (.plain var property))

def parseItemExpr : P ItemExpr :=
  ifRest (startsAs fun t => (aggregateOf t.type).isSome) parseAggregateItem <|
  ifRest (startsAs fun t => (stringFuncOf t.type).isSome) parseStringFuncItem <|
  ifRest (isCall multiargFuncCanonical) parseMultiargFuncItem <|
  ifRest (isCall scalarFuncCanonical) parseNamedFuncItem
  parsePlainItem

/-- `cbm_return_item_t`. -/
structure ParsedItem where
  expr : ParsedExpr
  itemAlias : Option CStr

def parseReturnItem : P ParsedItem := do
  let expr ← ifMatch .tokCase
    (fun _ => do
      let c ← parseCaseExpr
      pure (.kase c))
    (do
      let e ← parseItemExpr
      pure (.item e))
  let itemAlias ← ifMatch .tokAs
    (fun _ => do
      let name ← goOn (expectTok .tokIdent)
      pure (name.map Token.text))
    (pure none)
  pure { expr := expr, itemAlias := itemAlias }

def aggFuncName : AggFunc → String
  | .count => "COUNT"
  | .sum => "SUM"
  | .avg => "AVG"
  | .min => "MIN"
  | .max => "MAX"
  | .collect => "COLLECT"

def parseOrderByAgg : P CStr := do
  let t ← advance fun t => (aggregateOf t.type).isSome
  let _ ← goOn (expectTok .tokLparen)
  let arg ← ifMatch .tokStar (fun _ => pure (bytesOf "*"))
    (do
      let var ← goOn (expectTok .tokIdent)
      pure ((var.map Token.text).getD []))
  let _ ← goOn (expectTok .tokRparen)
  pure (printed (bytesOf (aggFuncName ((aggregateOf t.type).getD .count)) ++ 40 :: arg ++ [41]))

/-- `parse_order_by_var`; without a variable the expression is empty. -/
def parseOrderByVar : P CStr :=
  orGoOn (expectTok .tokIdent)
    (fun var => do
      let property ← parseDotProp
      pure (printed (fullName var.text property)))
    (pure [])

def parseOrderByExpr : P CStr :=
  ifRest (startsAs fun t => (aggregateOf t.type).isSome) parseOrderByAgg parseOrderByVar

/-- `order_by` and `order_dir`, which is NULL if no direction is given. -/
structure OrderBy where
  expr : CStr
  ascending : Option Bool

/-- `parse_order_by_clause`, after ORDER. -/
def parseOrderByClause : P OrderBy := do
  let _ ← goOn (expectTok .tokBy)
  let expr ← parseOrderByExpr
  let ascending ← ifMatch .tokAsc (fun _ => pure (some true))
    (ifMatch .tokDesc (fun _ => pure (some false)) (pure none))
  pure { expr := expr, ascending := ascending }

/-- The number after SKIP or LIMIT; 0 without one. -/
def parseCount (k : TokenType) : P Int :=
  ifMatch k
    (fun _ => do
      let num ← goOn (expectTok .tokNumber)
      pure ((num.map fun t => strtolInt t.text).getD 0))
    (pure 0)

/-- `cbm_return_clause_t`; no list of items stands for the star. -/
structure ReturnClause where
  items : Option (List ParsedItem)
  distinct : Bool
  orderBy : Option OrderBy
  skip : Int
  limit : Int

/-- The items of a clause.  Every round of the loop but the first begins with the
comma that lets it go on. -/
def parseItems : P (Option (List ParsedItem)) := do
  let item ← parseReturnItem
  let items ← whileMatch .tokComma parseReturnItem
  pure (some (item :: items))

def parseStarOrItems (isWith : Bool) : P (Option (List ParsedItem)) :=
  if isWith then parseItems else ifMatch .tokStar (fun _ => pure none) parseItems

/-- A clause after its keyword. -/
def parseClause (isWith : Bool) : P ReturnClause := do
  let distinct ← optional .tokDistinct
  let items ← parseStarOrItems isWith
  let orderBy ← ifMatch .tokOrder
    (fun _ => do
      let order ← parseOrderByClause
      pure (some order))
    (pure none)
  let skip ← parseCount .tokSkip
  let limit ← parseCount .tokLimit
  pure { items := items, distinct := distinct, orderBy := orderBy, skip := skip, limit := limit }

def parseReturnOrWith (isWith : Bool) : P (Option ReturnClause) :=
  ifMatch (if isWith then .tokWith else .tokReturn)
    (fun _ => do
      let r ← parseClause isWith
      pure (some r))
    (pure none)

/-- One round of the list of UNWIND.  A token that is no literal is passed over. -/
def parseUnwindValue : P CStr := do
  let value ← ifMatch .tokString (fun t => pure (34 :: t.text ++ [34])) <|
    ifMatch .tokNumber (fun t => pure t.text) (do
      let _ ← slip
      let _ ← advance fun _ => true
      pure [])
  let _ ← optional .tokComma
  pure value

/-- The text of the list: a comma goes before a value when something stands in the
buffer already. -/
def unwindText (values : List CStr) : CStr :=
  values.foldl (fun buf value => (if buf.length > 1 then buf ++ [44] else buf) ++ value) [91] ++
    [93]

/-- The expression of UNWIND.  Without one the code goes on. -/
def parseUnwindExpr : P (Option CStr) :=
  ifMatch .tokLbracket
    (fun _ => do
      let values ← withFuel (loop (notYet .tokRbracket) (pure ()) (fun _ => parseUnwindValue))
      let _ ← goOn (expectTok .tokRbracket)
      pure (some (unwindText values)))
    (ifMatch .tokIdent (fun t => pure (some t.text)) (do
      let _ ← slip
      pure none))

/-- `unwind_expr` and `unwind_alias`. -/
structure Unwind where
  expr : Option CStr
  unwindAlias : Option CStr

def parseUnwindClause : P Unwind := do
  let _ ← advance (isTok .tokUnwind)
  let expr ← parseUnwindExpr
  let _ ← goOn (expectTok .tokAs)
  let name ← goOn (expectTok .tokIdent)
  pure { expr := expr, unwindAlias := name.map Token.text }

/-- What is read of a round of `parse_match_chain` before the loop can end for want
of a MATCH. -/
def parseMatchKw : P Bool := do
  let opt ← optional .tokOptional
  let _ ← expectTok .tokMatch
  pure opt

def parseMatchChain : P (List (Pattern × Bool)) :=
  withFuel (loop (startsAs fun t => t.type = .tokMatch ∨ t.type = .tokOptional) parseMatchKw
    (fun opt => do
      let pat ← parseMatchPattern
      pure (pat, opt)))

/-- `cbm_query_t`, without what UNION adds. -/
structure ParsedQuery where
  unwind : Option Unwind
  query : Query
  withClause : Option ReturnClause
  postWithWhere : Option WhereClause
  ret : Option ReturnClause

/-- The test that WITH does not belong to STARTS WITH. -/
def standalone : List (Token TokenType) → Bool
  | last :: _ :: _ => last.type ≠ .tokStarts
  | _ => true

/-- The clause WITH and the condition after it. -/
def parseWith : P (Option ReturnClause × Option WhereClause) := do
  let withClause ← parseReturnOrWith true
  let postWithWhere ← parseWhere
  pure (withClause, postWithWhere)

/-- `parse_post_where` between the patterns and UNION. -/
def parsePostWhere : P ((Option ReturnClause × Option WhereClause) × Option ReturnClause) :=
  rejectUnsupported do
    let withPart ← ifRest (check .tokWith) (ifBefore standalone parseWith (pure (none, none)))
      (pure (none, none))
    let ret ← parseReturnOrWith false
    pure (withPart, ret)

/-- `cbm_parse` up to the clauses after WHERE and the patterns that follow it. -/
def parseMatchPart : P (Option Unwind × Query) :=
  rejectUnsupported do
    let unwind ← ifRest (check .tokUnwind)
      (do
        let u ← parseUnwindClause
        pure (some u))
      (pure none)
    let firstOptional ← optional .tokOptional
    let _ ← expectTok .tokMatch
    let first ← parseMatchPattern
    let more ← parseMatchChain
    let whereClause ← parseWhere
    let again ← parseMatchChain
    pure (unwind,
      { first := first, firstOptional := firstOptional, more := more ++ again,
        whereClause := whereClause })

/-- `cbm_parse` up to UNION. -/
def parseQuery : P ParsedQuery := do
  let (unwind, query) ← parseMatchPart
  let ((withClause, postWithWhere), ret) ← parsePostWhere
  pure { unwind := unwind, query := query, withClause := withClause,
         postWithWhere := postWithWhere, ret := ret }

/-- UNION and ALL; the result is `union_all`. -/
def parseUnion : P Bool := do
  let _ ← advance (isTok .tokUnion)
  optional .tokAll

def startCursor (tokens : List (Token TokenType)) : Cursor TokenType ParseError where
  before := []
  rest := tokens
  error := none
  slipped := false

/-- `cbm_parse`: the queries that UNION puts together, each but the last with its
`union_all`, and where the last parser stands.  The tokens after UNION get a parser
of their own. -/
def cbmParseFuel : Nat → List (Token TokenType) →
    Option (List (ParsedQuery × Option Bool)) × Cursor TokenType ParseError
  | 0, tokens => (none, startCursor tokens)
  | fuel + 1, tokens =>
      match parseQuery.run (startCursor tokens) with
      | (none, p) => (none, p)
      | (some q, p) =>
          if check .tokUnion p.rest then
            let union := parseUnion.run p
            let sub := cbmParseFuel fuel union.2.rest
            (sub.1.map ((q, union.1) :: ·),
              { sub.2 with slipped := union.2.slipped || sub.2.slipped })
          else (some [(q, none)], p)

def cbmParse (tokens : List (Token TokenType)) :
    Option (List (ParsedQuery × Option Bool)) × Cursor TokenType ParseError :=
  cbmParseFuel (tokens.length + 1) tokens

end Cypher
end CodebaseMemory
