import CodebaseMemory.Cypher.Eval

/-!
# Items of RETURN and WITH (`src/cypher/cypher.c`)

The value of an item for a binding, `project_item`, with the functions it can
apply.  An item is what the parser builds: a property or a whole variable, an
aggregate, a function of one value, a function of a node or an edge, a function of
several arguments, or CASE.

A value of a property that is not a plain field stands in one of eight buffers
that are used in turn.  `project_item` returns the buffer itself for `toString`,
for `coalesce` and for an empty property of an edge, and RETURN copies a row only
when it is complete, so that a later read of the row can overwrite such a value.
-/

namespace CodebaseMemory
namespace Cypher

open Lib
open Sqlite (CStr bytesOf)

/-- The functions of `is_aggregate_func`. -/
inductive AggFunc where
  | count
  | sum
  | avg
  | min
  | max
  | collect
deriving DecidableEq

/-- The functions of `is_scalar_value_func`. -/
inductive StringFunc where
  | toLower
  | toUpper
  | toString
  | toInteger
  | toFloat
  | toBoolean
  | size
  | length
  | trim
  | ltrim
  | rtrim
  | reverse
deriving DecidableEq

/-- The functions of a node or an edge. -/
inductive EntityFunc where
  | labels
  | type
  | id
  | keys
  | properties
deriving DecidableEq

/-- The functions of `multiarg_func_canonical`. -/
inductive MultiFunc where
  | coalesce
  | substring
  | replace
  | left
  | right
deriving DecidableEq

/-- `cbm_func_arg_t`. -/
inductive FuncArg where
  | literal (text : CStr)
  | ref (var : CStr) (property : Option CStr)

inductive ItemExpr where
  | plain (var : CStr) (property : Option CStr)
  | aggregate (func : AggFunc) (distinct : Bool) (var : CStr) (property : Option CStr)
  | string (func : StringFunc) (var : CStr) (property : Option CStr)
  | entity (func : EntityFunc) (var : CStr) (property : Option CStr)
  | multi (func : MultiFunc) (args : List FuncArg)
  | kase (branches : List (Expr × Option CStr)) (elseVal : Option CStr)

/-- `cbm_return_item_t`. -/
structure ReturnItem where
  expr : ItemExpr
  itemAlias : Option CStr

/-- `item->variable`: CASE for a CASE, the first argument of a function of
several, which is NULL if that is a literal. -/
def ItemExpr.var : ItemExpr → Option CStr
  | .plain var _ => some var
  | .aggregate _ _ var _ => some var
  | .string _ var _ => some var
  | .entity _ var _ => some var
  | .multi _ (.ref var _ :: _) => some var
  | .multi _ _ => none
  | .kase _ _ => some (bytesOf "CASE")

/-- `item->property`. -/
def ItemExpr.property : ItemExpr → Option CStr
  | .plain _ property => property
  | .aggregate _ _ _ property => property
  | .string _ _ property => property
  | .entity _ _ property => property
  | .multi _ (.ref _ property :: _) => property
  | .multi _ _ => none
  | .kase _ _ => none

/-- `item->func` is not NULL. -/
def ItemExpr.hasFunc : ItemExpr → Bool
  | .plain _ _ => false
  | .kase _ _ => false
  | _ => true

/-- `is_aggregate_func`. -/
def ItemExpr.isAggregate : ItemExpr → Bool
  | .aggregate _ _ _ _ => true
  | _ => false

/-- The bytes a name in a buffer of `CBM_SZ_256` has room for. -/
def nameRoom : Nat := 255

/-- `var.prop`, or the variable. -/
def fullName (var : CStr) (prop : Option CStr) : CStr :=
  match prop with
  | some p => var ++ 46 :: p
  | none => var

def emptyObject : CStr := [123, 125]

section Virtual

variable (store : Option Store)

def bindingGetVirtual (b : Binding) (var : CStr) (prop : Option CStr) : CStr :=
  match bindingGet b ((fullName var prop).take nameRoom) with
  | some n => n.name.getD []
  | none =>
      match bindingGetEdge b var with
      | some e =>
          match prop with
          | some p => edgeProp e (some p)
          | none => e.propertiesJson.getD emptyObject
      | none =>
          match bindingGet b var with
          | some n =>
              match prop with
              | some p => nodeProp store n p
              | none => n.name.getD []
          | none => []

/-- The value of an item's variable and property; a NULL variable, which C cannot
look up, has none. -/
def ItemExpr.virtual (e : ItemExpr) (b : Binding) : CStr :=
  match e.var with
  | some var => bindingGetVirtual store b var e.property
  | none => []

end Virtual

/-- `tolower`. -/
def lowerByte (c : UInt8) : UInt8 :=
  if 65 ≤ c && c ≤ 90 then c + 32 else c

/-- `toupper`. -/
def upperByte (c : UInt8) : UInt8 :=
  if 97 ≤ c && c ≤ 122 then c - 32 else c

/-- What `trim` drops. -/
def isBlank (c : UInt8) : Bool :=
  c = 32 || c = 9 || c = 10 || c = 13

def cypCiEq (x y : CStr) : Bool :=
  x.map lowerByte = y.map lowerByte

/-- The end of `trim`. -/
def trimRight (s : CStr) : CStr :=
  (s.reverse.dropWhile isBlank).reverse

def applyStringFunc (lib : Libc) (func : StringFunc) (val : CStr) : CStr :=
  match func with
  | .toLower => (val.take valueRoom).map lowerByte
  | .toUpper => (val.take valueRoom).map upperByte
  | .toString => val
  | .toInteger =>
      match lib.strtoll val with
      | some v => decimal v
      | none => if lib.isNumber val then decimal (lib.truncate (lib.strtod val)) else []
  | .toFloat => if lib.isNumber val then lib.formatG (lib.strtod val) else []
  | .toBoolean =>
      if cypCiEq val (bytesOf "true") then bytesOf "true"
      else if cypCiEq val (bytesOf "false") then bytesOf "false"
      else []
  | .size => decimal val.length
  | .length => decimal val.length
  | .trim => (trimRight (val.dropWhile isBlank)).take valueRoom
  | .ltrim => (val.dropWhile isBlank).take valueRoom
  | .rtrim => (trimRight val).take valueRoom
  | .reverse => (val.take valueRoom).reverse

/-- The loop of `replace`; the number counts the bytes of a match that are still to
be passed. -/
def replaceAll (pattern new : CStr) : Nat → CStr → CStr
  | _, [] => []
  | k + 1, _ :: s => replaceAll pattern new k s
  | 0, c :: s =>
      if pattern.isPrefixOf (c :: s) then new ++ replaceAll pattern new (pattern.length - 1) s
      else c :: replaceAll pattern new 0 s

def strtol (lib : Libc) (s : CStr) : Int :=
  (lib.strtoll s).getD 0

section Functions

variable (lib : Libc)
variable (store : Option Store)

def evalFuncArg (b : Binding) : FuncArg → CStr
  | .literal text => text
  | .ref var property => bindingGetVirtual store b var property

/-- `substring` from a start, with a length or to the end. -/
def substringOf (s : CStr) (start : Int) (len : Option Int) : CStr :=
  if start < 0 || s.length ≤ start.toNat then []
  else
    let take := match len with
      | some l => min (s.length - start.toNat) l.toNat
      | none => s.length - start.toNat
    (s.drop start.toNat).take (min take valueRoom)

/-- `eval_multiarg_func`; a wrong number of arguments gives an empty value. -/
def evalMultiargFunc (func : MultiFunc) (args : List FuncArg) (b : Binding) : CStr :=
  match func, args.map (evalFuncArg store b) with
  | .coalesce, vals => (vals.find? (· ≠ [])).getD []
  | .substring, s :: start :: rest =>
      substringOf s (strtol lib start) (rest.head?.map (strtol lib))
  | .left, s :: k :: _ => s.take (min (strtol lib k).toNat valueRoom)
  | .right, s :: k :: _ => s.drop (s.length - min (strtol lib k).toNat valueRoom)
  | .replace, s :: pattern :: new :: _ =>
      if pattern = [] then s.take valueRoom else (replaceAll pattern new 0 s).take valueRoom
  | _, _ => []

def evalCaseExpr (elseVal : Option CStr) (b : Binding) : List (Expr × Option CStr) → CStr
  | [] => elseVal.getD []
  | branch :: branches =>
      if evalExpr lib store b branch.1 then branch.2.getD []
      else evalCaseExpr elseVal b branches

def quoted (s : CStr) : CStr :=
  34 :: (s ++ [34])

/-- `node_keys_list`: the fields that are there; they fit the buffer. -/
def nodeKeysList (n : Node) : CStr :=
  let fields : List (CStr × Bool) :=
    [(bytesOf "name", n.name.getD [] ≠ []),
     (bytesOf "qualified_name", n.qualifiedName.getD [] ≠ []),
     (bytesOf "label", n.label.getD [] ≠ []),
     (bytesOf "file_path", n.filePath.getD [] ≠ []),
     (bytesOf "start_line", 0 < n.startLine),
     (bytesOf "end_line", 0 < n.endLine)]
  91 :: (List.intercalate [44] ((fields.filter Prod.snd).map fun f => quoted f.1) ++ [93])

/-- The functions of a node or an edge. -/
def evalEntityFunc (func : EntityFunc) (var : CStr) (b : Binding) : CStr :=
  match func with
  | .labels =>
      match (bindingGet b var).bind Node.label with
      | some label => (91 :: (quoted label ++ [93])).take valueRoom
      | none => [91, 93]
  | .type => ((bindingGetEdge b var).map Edge.type).getD []
  | .id =>
      match bindingGet b var, bindingGetEdge b var with
      | some n, _ => decimal n.id
      | none, some e => decimal e.id
      | none, none => []
  | .keys => ((bindingGet b var).map nodeKeysList).getD [91, 93]
  | .properties =>
      match bindingGet b var, bindingGetEdge b var with
      | some n, _ => n.propertiesJson.getD emptyObject
      | none, some e => e.propertiesJson.getD emptyObject
      | none, none => emptyObject

def projectItem (e : ItemExpr) (b : Binding) : CStr :=
  match e with
  | .kase branches elseVal => evalCaseExpr lib store elseVal b branches
  | .multi func args => evalMultiargFunc lib store func args b
  | .entity func var _ => evalEntityFunc func var b
  | .string func var property =>
      applyStringFunc lib func (bindingGetVirtual store b var property)
  | .plain var property => (bindingGetVirtual store b var property).take valueRoom
  | .aggregate _ _ var property => (bindingGetVirtual store b var property).take valueRoom

end Functions

/-- The two sets of buffers, of `node_prop` and of `edge_prop`. -/
inductive Ring where
  | node
  | edge
deriving DecidableEq

/-- The use of a buffer, and what is written to it. -/
structure Read where
  ring : Ring
  /-- none if the buffer is taken and not written -/
  written : Option CStr

section Reads

variable (lib : Libc)
variable (store : Option Store)

/-- The buffer that `node_prop` takes for a property that is no string field. -/
def nodePropReads (n : Node) (prop : CStr) : List Read :=
  match nodeStringField n prop with
  | some _ => []
  | none =>
      let computed : Bool :=
        prop = bytesOf "start_line" || prop = bytesOf "end_line" ||
          (store.isSome && (prop = bytesOf "in_degree" || prop = bytesOf "out_degree"))
      let object : Bool := (n.propertiesJson.getD []).head? = some 123
      [{ ring := .node, written := if computed || object then some (nodeProp store n prop) else none }]

/-- The buffer that `edge_prop` takes. -/
def edgePropReads (e : Edge) (prop : CStr) : List Read :=
  if prop = bytesOf "type" then [] else [{ ring := .edge, written := some (edgeProp e (some prop)) }]

/-- The buffers of `binding_get_virtual`. -/
def virtualReads (b : Binding) (var : CStr) (prop : Option CStr) : List Read :=
  match bindingGet b ((fullName var prop).take nameRoom), prop with
  | some _, _ => []
  | none, none => []
  | none, some p =>
      match bindingGetEdge b var, bindingGet b var with
      | some e, _ => edgePropReads e p
      | none, some n => nodePropReads store n p
      | none, none => []

/-- The buffers of `eval_condition`. -/
def conditionReads (c : Condition) (b : Binding) : List Read :=
  match bindingGetEdge b c.var, bindingGet b c.var, c.test.property with
  | some e, _, some p => edgePropReads e p
  | none, some n, some p => nodePropReads store n p
  | _, _, _ => []

/-- The buffers of `eval_expr`, which does not go on when the verdict is clear. -/
def exprReads (b : Binding) : Expr → List Read
  | .condition c => conditionReads store c b
  | .and left right =>
      exprReads b left ++ if evalExpr lib store b left then exprReads b right else []
  | .or left right =>
      exprReads b left ++ if evalExpr lib store b left then [] else exprReads b right
  | .not child => exprReads b child
  | .xor left right => exprReads b left ++ exprReads b right

/-- The buffers of `eval_case_expr`. -/
def caseReads (b : Binding) : List (Expr × Option CStr) → List Read
  | [] => []
  | branch :: branches =>
      exprReads lib store b branch.1 ++
        if evalExpr lib store b branch.1 then [] else caseReads b branches

/-- The buffers of `eval_func_arg`. -/
def argReads (b : Binding) : FuncArg → List Read
  | .literal _ => []
  | .ref var property => virtualReads store b var property

/-- `coalesce` stops at the first value. -/
def coalesceReads (b : Binding) : List FuncArg → List Read
  | [] => []
  | arg :: args =>
      argReads store b arg ++ if evalFuncArg store b arg = [] then coalesceReads b args else []

/-- The buffers of `eval_multiarg_func`. -/
def multiReads (func : MultiFunc) (args : List FuncArg) (b : Binding) : List Read :=
  match func, args with
  | .coalesce, args => coalesceReads store b args
  | .substring, s :: start :: rest =>
      let at' := strtol lib (evalFuncArg store b start)
      argReads store b s ++ argReads store b start ++
        if at' < 0 || (evalFuncArg store b s).length ≤ at'.toNat then []
        else (rest.take 1).flatMap (argReads store b)
  | .left, s :: k :: _ => argReads store b s ++ argReads store b k
  | .right, s :: k :: _ => argReads store b s ++ argReads store b k
  | .replace, s :: pattern :: new :: _ =>
      argReads store b s ++ argReads store b pattern ++ argReads store b new
  | _, _ => []

/-- The buffers of `project_item`. -/
def itemReads (e : ItemExpr) (b : Binding) : List Read :=
  match e with
  | .kase branches _ => caseReads lib store b branches
  | .multi func args => multiReads lib store func args b
  | .entity _ _ _ => []
  | .string _ var property => virtualReads store b var property
  | .plain var property => virtualReads store b var property
  | .aggregate _ _ var property => virtualReads store b var property

/-- The buffer that the value of `binding_get_virtual` stands in; an empty value of
a node is a constant. -/
def heldVirtual (b : Binding) (var : CStr) (prop : Option CStr) : Option Ring :=
  match virtualReads store b var prop with
  | [] => none
  | read :: _ =>
      if read.ring = .edge || bindingGetVirtual store b var prop ≠ [] then some read.ring else none

/-- The buffer that the value of `project_item` stands in, where it is not copied. -/
def held (e : ItemExpr) (b : Binding) : Option Ring :=
  match e with
  | .string .toString var property => heldVirtual store b var property
  | .multi .coalesce args =>
      match args.find? fun arg => evalFuncArg store b arg ≠ [] with
      | some (.ref var property) => heldVirtual store b var property
      | _ => none
  | .plain var property =>
      if bindingGetVirtual store b var property = [] then heldVirtual store b var property
      else none
  | .aggregate _ _ var property =>
      if bindingGetVirtual store b var property = [] then heldVirtual store b var property
      else none
  | _ => none

/-- `CYP_BUF_8`. -/
def ringSize : Nat := 8

/-- The value in a buffer after further uses of its ring: every eighth writes to it. -/
def ringValue (value : CStr) (later : List (Option CStr)) : CStr :=
  match _h : later.drop (ringSize - 1) with
  | [] => value
  | written :: rest => ringValue (written.getD value) rest
termination_by later.length
decreasing_by
  have hlen := congrArg List.length _h
  rw [List.length_drop, List.length_cons] at hlen
  omega

/-- The uses of a ring by the rest of a row. -/
def laterReads (ring : Ring) (items : List ItemExpr) (b : Binding) : List (Option CStr) :=
  (items.flatMap fun e => itemReads lib store e b).filterMap fun read =>
    if read.ring = ring then some read.written else none

/-- A row of RETURN, as it is when `rb_add_row` copies it. -/
def returnRow (b : Binding) : List ItemExpr → List CStr
  | [] => []
  | e :: items =>
      (match held store e b with
        | none => projectItem lib store e b
        | some ring => ringValue (projectItem lib store e b) (laterReads lib store ring items b)) ::
      returnRow b items

end Reads

end Cypher
end CodebaseMemory
