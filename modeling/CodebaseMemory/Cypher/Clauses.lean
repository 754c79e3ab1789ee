import CodebaseMemory.Cypher.Project
import CodebaseMemory.Lib.Group

/-!
# The clauses WITH and RETURN (`src/cypher/cypher.c`)

Both clauses project the bindings row by row, or group them if an item is an
aggregate.  WITH makes bindings of virtual nodes from its rows, RETURN the rows of
the result.

Reading aids:
* DISTINCT, ORDER BY, SKIP, LIMIT and the condition after WITH are not here, nor are
  the names of the columns.
* The two clauses have a copy each of the grouping; what the copies share is a
  definition with parameters here.
* A result of `none` is undefined behaviour: RETURN has arrays for 32 items, which
  more items overrun, and a function whose first argument is a literal has a NULL
  variable, which the look-up of an aggregate compares with the names.
-/

namespace CodebaseMemory
namespace Cypher

open Lib
open Sqlite (CStr bytesOf)

/-- `resolve_item_alias`; a NULL variable is printed as the C library does. -/
def resolveItemAlias (item : ReturnItem) : CStr :=
  match item.itemAlias with
  | some name => name
  | none => (fullName (item.expr.var.getD (bytesOf "(null)")) item.expr.property).take nameRoom

def virtualNode (name value : CStr) : Node where
  id := 0
  project := none
  label := none
  name := some value
  qualifiedName := some name
  filePath := none
  startLine := 0
  endLine := 0
  propertiesJson := none

/-- `with_add_vbinding_var` for all items; after `CYP_BUF_16` of them there is no
room. -/
def withBinding (items : List ReturnItem) (values : List CStr) : Binding where
  vars := (List.zipWith
    (fun item value => (resolveItemAlias item, virtualNode (resolveItemAlias item) value))
    items values).take cypMaxVars
  edgeVars := []

structure Accum (lib : Libc) where
  count : Nat
  sum : lib.Double
  min : lib.Double
  max : lib.Double
  /-- the texts of `distinct_lists`, or of `collect_lists` -/
  values : List CStr

/-- A group: the values of the items, and their accumulators. -/
structure AggGroup (lib : Libc) where
  vals : List CStr
  accums : List (Accum lib)

/-- The bytes a key in a buffer of `CBM_SZ_1K` has room for. -/
def keyRoom : Nat := 1023

/-- The bytes an aggregate in a buffer of `CBM_SZ_64` has room for. -/
def aggRoom : Nat := 63

/-- `CBM_SZ_32`, the number of items RETURN has room for. -/
def maxItems : Nat := 32

/-- The accumulators of a new group. -/
def Accum.zero (lib : Libc) : Accum lib where
  count := 0
  sum := lib.zero
  min := lib.dblMax
  max := lib.dblMin
  values := []

def distinctListAdd (values : List CStr) (value : CStr) : List CStr :=
  if value ∈ values then values else values ++ [value]

/-- An item whose variable can be compared with the names of a binding. -/
def ItemExpr.canLookUp (e : ItemExpr) (b : Binding) : Bool :=
  e.var.isSome || (b.vars.isEmpty && b.edgeVars.isEmpty)

section Grouping

variable (lib : Libc)
variable (value : ItemExpr → Binding → CStr)
variable (accumulate : ItemExpr → Binding → Accum lib → Accum lib)

/-- The key of a binding: the values of the items without a function, each with a
separator after it. -/
def buildKey (items : List ItemExpr) (b : Binding) : CStr :=
  ((items.filter fun e => !e.hasFunc).flatMap fun e => value e b ++ [124]).take keyRoom

def initGroup (items : List ItemExpr) (b : Binding) : AggGroup lib where
  vals := items.map fun e => if e.hasFunc then [48] else value e b
  accums := items.map fun _ => Accum.zero lib

def accumulateGroup (items : List ItemExpr) (g : AggGroup lib) (b : Binding) : AggGroup lib :=
  { g with
    accums := List.zipWith (fun e c => if e.hasFunc then accumulate e b c else c) items g.accums }

/-- The loop over the bindings. -/
def aggregate (items : List ItemExpr) (bindings : List Binding) : List (AggGroup lib) :=
  (groupLoop (buildKey value items) (initGroup lib value items)
    (accumulateGroup lib accumulate items) bindings).map Prod.snd

def emitRow (format : ItemExpr → Accum lib → CStr) (items : List ItemExpr) (g : AggGroup lib) :
    List CStr :=
  List.zipWith (fun e cell => if e.hasFunc then format e cell.2 else cell.1) items
    (g.vals.zip g.accums)

end Grouping

section Accumulators

variable (lib : Libc)
variable (store : Option Store)

/-- `with_agg_accumulate` for an item. -/
def withAggAccumulate (e : ItemExpr) (b : Binding) (c : Accum lib) : Accum lib :=
  let raw := e.virtual store b
  let dv := lib.strtod raw
  { count := c.count + 1
    sum := lib.add c.sum dv
    min := if lib.lt dv c.min then dv else c.min
    max := if lib.lt c.max dv then dv else c.max
    values := match e with
      | .aggregate .count true _ _ => distinctListAdd c.values raw
      | _ => c.values }

/-- `ret_agg_accumulate` for an item, which also keeps the texts of COLLECT. -/
def retAggAccumulate (e : ItemExpr) (b : Binding) (c : Accum lib) : Accum lib :=
  match e with
  | .aggregate .collect _ _ _ =>
      { withAggAccumulate lib store e b c with values := c.values ++ [e.virtual store b] }
  | _ => withAggAccumulate lib store e b c

/-- The cell of an item with a function in WITH: that of COUNT(DISTINCT), or
`with_agg_format`. -/
def withAggFormat (e : ItemExpr) (c : Accum lib) : CStr :=
  (match e with
    | .aggregate .count true _ _ => decimal c.values.length
    | .aggregate .sum _ _ _ => lib.format10g c.sum
    | .aggregate .avg _ _ _ =>
        lib.format10g (if 0 < c.count then lib.divNat c.sum c.count else lib.zero)
    | .aggregate .min _ _ _ => lib.format10g c.min
    | .aggregate .max _ _ _ => lib.format10g c.max
    | _ => decimal c.count).take aggRoom

/-- `format_collect_list`; its own buffer is longer than that of the cell. -/
def formatCollectList (values : List CStr) : CStr :=
  (91 :: (List.intercalate [44] (values.map quoted) ++ [93])).take aggRoom

/-- The cell of an item with a function in RETURN: that of COUNT(DISTINCT), or
`format_agg_value`. -/
def formatAggValue (e : ItemExpr) (c : Accum lib) : CStr :=
  match e with
  | .aggregate .collect _ _ _ => formatCollectList c.values
  | _ => withAggFormat lib e c

/-- The rows of `execute_with_aggregate`. -/
def withAggRows (items : List ItemExpr) (bindings : List Binding) : List (List CStr) :=
  (aggregate lib (fun e b => e.virtual store b) (withAggAccumulate lib store) items bindings).map
    (emitRow lib (withAggFormat lib) items)

def executeWithAggregate (items : List ReturnItem) (bindings : List Binding) :
    Option (List Binding) :=
  let exprs := items.map ReturnItem.expr
  if bindings.all fun b => exprs.all fun e => e.canLookUp b then
    some ((withAggRows lib store exprs bindings).map (withBinding items))
  else none

def executeWithSimple (items : List ReturnItem) (bindings : List Binding) : List Binding :=
  bindings.map fun b => withBinding items (items.map fun item => projectItem lib store item.expr b)

def executeWithClause (items : List ReturnItem) (bindings : List Binding) :
    Option (List Binding) :=
  if items.any fun item => item.expr.isAggregate then executeWithAggregate lib store items bindings
  else some (executeWithSimple lib store items bindings)

/-- The value of an item in `ret_agg_build_key`. -/
def retAggValue (e : ItemExpr) (b : Binding) : CStr :=
  (projectItem lib store e b).take valueRoom

/-- The rows of `execute_return_agg`. -/
def retAggRows (items : List ItemExpr) (bindings : List Binding) : List (List CStr) :=
  (aggregate lib (retAggValue lib store) (retAggAccumulate lib store) items bindings).map
    (emitRow lib (formatAggValue lib) items)

def executeReturnAgg (items : List ReturnItem) (bindings : List Binding) :
    Option (List (List CStr)) :=
  let exprs := items.map ReturnItem.expr
  if bindings.all fun b => items.length ≤ maxItems && exprs.all fun e => e.canLookUp b then
    some (retAggRows lib store exprs bindings)
  else none

def executeReturnSimple (items : List ReturnItem) (bindings : List Binding) (maxRows : Nat) :
    List (List CStr) :=
  (bindings.take maxRows).map fun b => returnRow lib store b (items.map ReturnItem.expr)

/-- `rb_apply_skip_limit` without SKIP. -/
def rbApplyLimit (limit : Nat) (rows : List (List CStr)) : List (List CStr) :=
  if 0 < limit then rows.take limit else rows

def executeReturnClause (items : List ReturnItem) (bindings : List Binding) (maxRows : Nat) :
    Option (List (List CStr)) :=
  if maxItems < items.length then none
  else if items.any fun item => item.expr.isAggregate then
    (executeReturnAgg lib store items bindings).map (rbApplyLimit maxRows)
  else some (rbApplyLimit maxRows (executeReturnSimple lib store items bindings maxRows))

end Accumulators

end Cypher
end CodebaseMemory
