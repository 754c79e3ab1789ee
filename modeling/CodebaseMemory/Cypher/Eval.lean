import CodebaseMemory.Cypher.Store
import CodebaseMemory.Lib.Decimal
import CodebaseMemory.Lib.Slots

/-!
# Bindings and conditions (`src/cypher/cypher.c`)

Bindings of variables to nodes and edges, the values of properties, and the
evaluation of WHERE.

Reading aids:
* `b->store` is the same for all bindings of a clause and is an argument here;
  the bindings that WITH makes have none.
* `node_prop` and `edge_prop` return values in buffers that they rotate.  A value
  is copied before its buffer comes round again, except in a row of RETURN, where
  `Cypher.Project` keeps track of it.
* The regular expressions and the double arithmetic of the C library are
  parameters, in `Libc`.
-/

namespace CodebaseMemory
namespace Cypher

open Lib
open Sqlite (CStr bytesOf)

/-!
## The abstract syntax of queries (`src/cypher/cypher.h`)

Operators and functions are enumerations; the source has their names as
strings.  A pattern is its first node and the steps from there, so that it has
one node more than relationships.
-/

/-- `cbm_prop_filter_t`. -/
structure PropFilter where
  key : CStr
  value : CStr

/-- `cbm_node_pattern_t`. -/
structure NodePattern where
  var : Option CStr
  /-- `"A|B|C"` for an alternation -/
  label : Option CStr
  props : List PropFilter

/-- `cbm_rel_pattern_t`. -/
structure RelPattern where
  var : Option CStr
  types : List CStr
  direction : Direction
  minHops : Nat
  /-- 0 stands for no bound -/
  maxHops : Nat

/-- `cbm_pattern_t`. -/
structure Pattern where
  start : NodePattern
  steps : List (RelPattern × NodePattern)

/-- The operators of `eval_comparison_op`. -/
inductive CmpOp where
  | eq
  | neq
  | regex
  | contains
  | startsWith
  | endsWith
  | gt
  | lt
  | ge
  | le
deriving DecidableEq

/-- What a condition says about its variable. -/
inductive Test where
  | compare (property : Option CStr) (op : CmpOp) (value : CStr)
  | isNull (property : Option CStr)
  | isNotNull (property : Option CStr)
  | isIn (property : Option CStr) (values : List CStr)
  /-- `HAS_LABEL` -/
  | hasLabel (label : CStr)
  /-- `EXISTS`; without a type every type will do -/
  | hasEdge (direction : Direction) (type : Option CStr)

/-- `cbm_condition_t`. -/
structure Condition where
  var : CStr
  test : Test
  negated : Bool

/-- `cbm_expr_t`. -/
inductive Expr where
  | condition (c : Condition)
  | and (left right : Expr)
  | or (left right : Expr)
  | not (child : Expr)
  | xor (left right : Expr)

/-- `cbm_where_clause_t`: the expression tree; an empty clause passes. -/
abbrev WhereClause := Option Expr

/-- `cbm_query_t`, as far as the MATCH part goes.  There is at least one
pattern. -/
structure Query where
  first : Pattern
  firstOptional : Bool
  /-- the further patterns, with `pattern_optional` -/
  more : List (Pattern × Bool)
  /-- NULL if there is no WHERE -/
  whereClause : Option WhereClause

/-- What the engine takes from the C library. -/
structure Libc where
  /-- `cbm_regcomp` and `cbm_regexec` on a pattern and a text; none if the pattern
  does not compile -/
  regexec : CStr → CStr → Option Bool
  Double : Type
  strtod : CStr → Double
  /-- `strtod` consumes something -/
  isNumber : CStr → Bool
  lt : Double → Double → Bool
  le : Double → Double → Bool
  zero : Double
  /-- `CYP_DBL_MAX` -/
  dblMax : Double
  /-- `-CYP_DBL_MAX` -/
  dblMin : Double
  add : Double → Double → Double
  divNat : Double → Nat → Double
  /-- `%.10g` -/
  format10g : Double → CStr
  /-- `%g` -/
  formatG : Double → CStr
  /-- the conversion to `long long` -/
  truncate : Double → Int
  /-- `strtoll` and `strtol` to base 10; none if nothing is consumed -/
  strtoll : CStr → Option Int

/-- `binding_t`. -/
structure Binding where
  vars : List (CStr × Node)
  edgeVars : List (CStr × Edge)
deriving DecidableEq

/-- `binding_t b = {0}`. -/
def Binding.empty : Binding :=
  { vars := [], edgeVars := [] }

def cypMaxVars : Nat := 16

def cypMaxEdgeVars : Nat := 8

def bindingGet (b : Binding) (var : CStr) : Option Node :=
  slot b.vars var

def bindingGetEdge (b : Binding) (var : CStr) : Option Edge :=
  slot b.edgeVars var

def bindingSet (b : Binding) (var : CStr) (n : Node) : Binding :=
  { b with vars := setSlot cypMaxVars b.vars var n }

/-- `binding_set_edge`; without a variable nothing is set. -/
def bindingSetEdge (b : Binding) (var : Option CStr) (e : Edge) : Binding :=
  match var with
  | none => b
  | some v => { b with edgeVars := setSlot cypMaxEdgeVars b.edgeVars v e }

/-- `strstr`: what follows the first occurrence. -/
def afterFirst (pattern : CStr) : CStr → Option CStr
  | [] => if pattern = [] then some [] else none
  | c :: text =>
      if pattern.isPrefixOf (c :: text) then some ((c :: text).drop pattern.length)
      else afterFirst pattern text

/-- The bytes a value in a buffer of `CBM_SZ_512` has room for. -/
def valueRoom : Nat := 511

def jsonExtractProp (json : Option CStr) (key : CStr) : CStr :=
  -- "key": in a buffer of 256 bytes
  let pattern := (34 :: (key ++ [34, 58])).take 255
  match json.bind (afterFirst pattern) with
  | none => []
  | some rest =>
      match rest.dropWhile fun c => c = 32 || c = 9 with
      | 34 :: text => (text.takeWhile fun c => c ≠ 34).take valueRoom
      | text => (text.takeWhile fun c => c ≠ 44 && c ≠ 125 && c ≠ 32).take valueRoom

/-- `cbm_store_node_degree`: the inbound and the outbound CALLS edges. -/
def nodeDegree (s : Store) (id : Int) : Nat × Nat :=
  ((s.findEdgesByTargetType id (bytesOf "CALLS")).length,
    (s.findEdgesBySourceType id (bytesOf "CALLS")).length)

def nodeStringField (n : Node) (prop : CStr) : Option CStr :=
  if prop = bytesOf "name" then some (n.name.getD [])
  else if prop = bytesOf "qualified_name" then some (n.qualifiedName.getD [])
  else if prop = bytesOf "label" then some (n.label.getD [])
  else if prop = bytesOf "file_path" then some (n.filePath.getD [])
  else none

def nodeProp (store : Option Store) (n : Node) (prop : CStr) : CStr :=
  match nodeStringField n prop with
  | some value => value
  | none =>
      if prop = bytesOf "start_line" then decimal n.startLine
      else if prop = bytesOf "end_line" then decimal n.endLine
      else
        match store with
        | some s =>
            if prop = bytesOf "in_degree" then decimal (nodeDegree s n.id).1
            else if prop = bytesOf "out_degree" then decimal (nodeDegree s n.id).2
            else jsonValue
        | none => jsonValue
where
  /-- only an object has properties -/
  jsonValue : CStr :=
    if (n.propertiesJson.getD []).head? = some 123 then jsonExtractProp n.propertiesJson prop
    else []

/-- `edge_prop`; without a property the value is empty. -/
def edgeProp (e : Edge) (prop : Option CStr) : CStr :=
  match prop with
  | none => []
  | some p => if p = bytesOf "type" then e.type else jsonExtractProp e.propertiesJson p

section Where

variable (lib : Libc)
variable (store : Option Store)

/-- `resolve_condition_value`: none for an unbound variable. -/
def resolveConditionValue (var : CStr) (property : Option CStr) (b : Binding) : Option CStr :=
  match bindingGetEdge b var with
  | some e => some (edgeProp e property)
  | none =>
      match bindingGet b var with
      | none => none
      | some n =>
          match property with
          | some p => some (nodeProp store n p)
          | none => some (n.name.getD [])

def evalComparisonOp (op : CmpOp) (actual expected : CStr) : Bool :=
  match op with
  | .eq => actual = expected
  | .neq => actual ≠ expected
  | .regex => (lib.regexec expected actual).getD false
  | .contains => (afterFirst expected actual).isSome
  | .startsWith => expected.isPrefixOf actual
  | .endsWith => expected.isSuffixOf actual
  | .gt => lib.lt (lib.strtod expected) (lib.strtod actual)
  | .lt => lib.lt (lib.strtod actual) (lib.strtod expected)
  | .ge => lib.le (lib.strtod expected) (lib.strtod actual)
  | .le => lib.le (lib.strtod actual) (lib.strtod expected)

/-- The number of edges that EXISTS finds in a direction is not zero. -/
def hasEdge (s : Store) (id : Int) (direction : Direction) (type : Option CStr) : Bool :=
  let out := match type with
    | some t => s.findEdgesBySourceType id t
    | none => s.findEdgesBySource id
  let inn := match type with
    | some t => s.findEdgesByTargetType id t
    | none => s.findEdgesByTarget id
  (direction ≠ .inbound && !out.isEmpty) || (direction ≠ .outbound && !inn.isEmpty)

def evalValueTest (test : Test) (actual : CStr) : Bool :=
  match test with
  | .compare _ op value => evalComparisonOp lib op actual value
  | .isNull _ => actual.isEmpty
  | .isNotNull _ => !actual.isEmpty
  | .isIn _ values => values.contains actual
  | .hasLabel _ => false
  | .hasEdge _ _ => false

def Test.property : Test → Option CStr
  | .compare property _ _ => property
  | .isNull property => property
  | .isNotNull property => property
  | .isIn property _ => property
  | .hasLabel _ => none
  | .hasEdge _ _ => none

/-- `eval_condition`.  A value of an unbound variable passes, negated or not; a
label or an edge of an unbound variable is not there. -/
def evalCondition (c : Condition) (b : Binding) : Bool :=
  match c.test with
  | .hasLabel label =>
      let result := match bindingGet b c.var with
        | some n => n.label = some label
        | none => false
      if c.negated then !result else result
  | .hasEdge direction type =>
      let result := match bindingGet b c.var, store with
        | some n, some s => hasEdge s n.id direction type
        | _, _ => false
      if c.negated then !result else result
  | test =>
      match resolveConditionValue store c.var test.property b with
      | none => true
      | some actual =>
          let result := evalValueTest lib test actual
          if c.negated then !result else result

def evalExpr (b : Binding) : Expr → Bool
  | .condition c => evalCondition lib store c b
  | .and left right => evalExpr b left && evalExpr b right
  | .or left right => evalExpr b left || evalExpr b right
  | .not child => !evalExpr b child
  | .xor left right => evalExpr b left != evalExpr b right

def evalWhere (w : WhereClause) (b : Binding) : Bool :=
  match w with
  | none => true
  | some root => evalExpr lib store b root

end Where

/-- The number at the start of a text without leading blanks. -/
def parseWhole (t : CStr) : Option Int :=
  match t with
  | 45 :: rest => (digits rest).map (- ·)
  | _ => digits t
where
  digits (t : CStr) : Option Int :=
    let run := t.takeWhile fun c => 48 ≤ c && c ≤ 57
    if run = [] then none else some (run.foldl (fun acc c => 10 * acc + (c.toNat - 48 : Nat)) 0)

/-- What the C library does with whole numbers, and with expressions that are
plain texts. -/
def Libc.whole : Libc where
  regexec pattern text := some (afterFirst pattern text).isSome
  Double := Int
  strtod t := (parseWhole t).getD 0
  isNumber t := (parseWhole t).isSome
  lt x y := x < y
  le x y := x ≤ y
  zero := 0
  dblMax := 10 ^ 308
  dblMin := -10 ^ 308
  add x y := x + y
  divNat x n := x.tdiv n
  format10g := decimal
  formatG := decimal
  truncate x := x
  strtoll := parseWhole

end Cypher
end CodebaseMemory
