import CodebaseMemory.Cypher.Clauses
import CodebaseMemory.Cypher.Match
import CodebaseMemory.Cypher.Results

/-!
# Executing a parsed query (`src/cypher/cypher.c`)

What comes after the patterns are matched: WITH with all its parts, RETURN with all its parts, the
default projection, and the chain of UNION.

Reading aids:
* A missing condition of a CASE is NULL in the source and holds; here it is a condition that holds.
* UNWIND is parsed and not executed.
* A result of `none` is undefined behaviour, or too many rows.
-/

namespace CodebaseMemory
namespace Cypher

open Lib
open Sqlite (CStr bytesOf strcmp)

/-- A condition that holds and reads nothing. -/
def nullCondition : Expr :=
  let c := Expr.condition { var := [], test := .hasLabel [], negated := false }
  .or c (.not c)

/-- An item of a clause, as it is executed. -/
def ParsedItem.toReturnItem (item : ParsedItem) : ReturnItem where
  expr := match item.expr with
    | .kase c => .kase (c.branches.map fun b => (b.1.getD nullCondition, b.2)) c.elseVal
    | .item e => e
  itemAlias := item.itemAlias

def ReturnClause.returnItems (r : ReturnClause) : List ReturnItem :=
  (r.items.getD []).map ParsedItem.toReturnItem

section With

variable (lib : Libc)

/-- The comparison of two neighbours in `sort_bindings` says that they are to be swapped. -/
def bindingsMisplaced (key : CStr) (desc : Bool) (x y : Binding) : Bool :=
  let va := bindingGetVirtual none x key none
  let vb := bindingGetVirtual none y key none
  if lib.isNumber va && lib.isNumber vb then
    if desc then lib.lt (lib.strtod va) (lib.strtod vb) else lib.lt (lib.strtod vb) (lib.strtod va)
  else if desc then strcmp va vb = .lt
  else strcmp va vb = .gt

def sortBindings (key : CStr) (desc : Bool) (vbindings : List Binding) : List Binding :=
  bubbleSort (bindingsMisplaced lib key desc) vbindings

def bindingsSkipLimit (skip limit : Int) (vbindings : List Binding) : List Binding :=
  let vbindings :=
    if 0 < skip ∧ skip < vbindings.length then vbindings.drop skip.toNat
    else if vbindings.length ≤ skip then []
    else vbindings
  if 0 < limit ∧ limit < vbindings.length then vbindings.take limit.toNat else vbindings

def withSortSkipLimit (wc : ReturnClause) (vbindings : List Binding) : List Binding :=
  bindingsSkipLimit wc.skip wc.limit (match wc.orderBy with
    | none => vbindings
    | some order => sortBindings lib order.expr (order.ascending = some false) vbindings)

def withProjKey (items : List ReturnItem) (b : Binding) : CStr :=
  (items.flatMap fun item => bindingGetVirtual none b (resolveItemAlias item) none ++ [124]).take
    keyRoom

def withApplyDistinct (items : List ReturnItem) (vbindings : List Binding) : List Binding :=
  vbindings.foldl (fun kept b =>
    if withProjKey items b ∈ kept.map (withProjKey items) then kept else kept ++ [b]) []

/-- `execute_with_clause`, with what comes after the projection. -/
def ReturnClause.executeWith (wc : ReturnClause) (postWithWhere : Option WhereClause)
    (store : Option Store) (bindings : List Binding) : Option (List Binding) :=
  (executeWithClause lib store wc.returnItems bindings).map fun vbindings =>
    let kept := if wc.distinct then withApplyDistinct wc.returnItems vbindings else vbindings
    let rest := withSortSkipLimit lib wc kept
    match postWithWhere with
    | none => rest
    | some w => rest.filter (evalWhere lib none w)

end With

/-- `result_builder_t`. -/
structure ResultBuilder where
  columns : List CStr
  rows : List (List CStr)
deriving DecidableEq

/-- `CBM_SZ_32` in `execute_return_star`. -/
def maxStarVars : Nat := 32

def executeReturnStar (q : Query) (bindings : List Binding) (maxRows : Nat) : ResultBuilder :=
  let vars := collectPatternVars q maxStarVars
  { columns := buildStarColumns vars, rows := (bindings.take maxRows).map (projectStarRow vars) }

def executeDefaultProjection (pat : Pattern) (bindings : List Binding) (maxRows : Nat) :
    ResultBuilder :=
  let vars := ((pat.start.var :: pat.steps.map fun step => step.2.var).filterMap id).take cypMaxVars
  { columns := buildDefaultColumns vars, rows := (bindings.take maxRows).map (defaultRow vars) }

/-- `proj_cap` of `execute_return_simple`. -/
def ReturnClause.projCap (r : ReturnClause) (maxRows : Nat) : Nat :=
  if 0 < r.limit ∧ r.orderBy.isNone ∧ r.skip ≤ 0 then r.limit.toNat else maxRows

section Return

variable (lib : Libc)
variable (store : Option Store)
variable (sub : Int → Int → Int)

/-- The columns and the rows of `execute_return_clause` before they are sorted and cut. -/
def ReturnClause.project (r : ReturnClause) (q : Query) (bindings : List Binding) (maxRows : Nat) :
    Option ResultBuilder :=
  if r.items.isNone then some (executeReturnStar q bindings maxRows)
  else if maxItems < r.returnItems.length then none
  else if r.returnItems.any fun item => item.expr.isAggregate then
    (executeReturnAgg lib store r.returnItems bindings).map fun rows =>
      { columns := buildReturnColumns r.returnItems, rows := rows }
  else some
    { columns := buildReturnColumns r.returnItems
      rows := executeReturnSimple lib store r.returnItems bindings (r.projCap maxRows) }

/-- The end of `execute_return_clause`. -/
def ReturnClause.finish (r : ReturnClause) (maxRows : Nat) (rb : ResultBuilder) : ResultBuilder :=
  let sorted := rbApplyOrderBy sub rb.columns (r.returnItems.map ReturnItem.itemAlias) r.orderBy
    rb.rows
  let rest := rbApplySkipLimit r.skip (if 0 < r.limit then r.limit else maxRows) sorted
  { rb with rows := if r.distinct then rbApplyDistinct rest else rest }

/-- `execute_return_clause`, with all its parts. -/
def ReturnClause.execute (r : ReturnClause) (q : Query) (bindings : List Binding) (maxRows : Nat) :
    Option ResultBuilder :=
  (r.project lib store q bindings maxRows).map (r.finish sub maxRows)

end Return

section Queries

variable (lib : Libc)
variable (s : Store)
variable (growth : Option Nat)
variable (sub : Int → Int → Int)

def ParsedQuery.executeSingle (q : ParsedQuery) (project : Option CStr) (maxRows : Nat) :
    Option ResultBuilder :=
  let matched := q.query.execute lib s growth project maxRows
  let bindings := match q.withClause with
    | none => some matched
    | some wc => wc.executeWith lib q.postWithWhere (some s) matched
  bindings.bind fun bindings =>
    match q.ret with
    | none => some (executeDefaultProjection q.query.first bindings maxRows)
    | some r => r.execute lib (if q.withClause.isNone then some s else none) sub q.query bindings
        maxRows

def cypherResultCeiling : Nat := 100000

/-- The row limit that `cbm_cypher_execute` works with. -/
def rowLimit (maxRows : Int) : Nat :=
  if maxRows ≤ 0 then cypherResultCeiling else maxRows.toNat

/-- The loop over the chain: the rows of the further queries are appended, each with as many values
as the first query has columns. -/
def appendRows (rb : ResultBuilder) : List ResultBuilder → Option ResultBuilder
  | [] => some rb
  | rb2 :: more =>
      if rb2.rows.any fun row => row.length < rb.columns.length then none
      else
        appendRows { rb with rows := rb.rows ++ rb2.rows.map fun row => row.take rb.columns.length }
          more

/-- The end of `cbm_cypher_execute`; `unionAll` is that of the first query, which has none without
UNION. -/
def finishUnion (unionAll : Option Bool) (rb : ResultBuilder) : Option ResultBuilder :=
  let result := if unionAll = some false then { rb with rows := rbApplyDistinct rb.rows } else rb
  if cypherResultCeiling ≤ result.rows.length then none else some result

/-- `cbm_cypher_execute`, for the queries that the parser gives. -/
def cbmCypherExecute (project : Option CStr) (maxRows : Int)
    (queries : List (ParsedQuery × Option Bool)) : Option ResultBuilder :=
  match queries with
  | [] => none
  | first :: more => do
      let rb ← first.1.executeSingle lib s growth sub project (rowLimit maxRows)
      let rbs ← (more.map Prod.fst).mapM fun next =>
        next.executeSingle lib s growth sub project (rowLimit maxRows)
      let all ← appendRows rb rbs
      finishUnion first.2 all

end Queries

section Plain

variable {lib : Libc}
variable {store : Option Store}
variable {sub : Int → Int → Int}
variable {r : ReturnClause}
variable {q : Query}
variable {bindings : List Binding}
variable {maxRows : Nat}

theorem ReturnClause.execute_plain (hmax : 0 < maxRows) (hitems : r.items.isSome = true)
    (hdistinct : r.distinct = false) (horder : r.orderBy = none) (hskip : r.skip ≤ 0)
    (hlimit : r.limit ≤ 0) :
    (r.execute lib store sub q bindings maxRows).map ResultBuilder.rows =
      executeReturnClause lib store r.returnItems bindings maxRows := by
  have hnone : ¬ r.items.isNone = true := by
    rw [Option.isNone_iff_eq_none, ← Option.not_isSome_iff_eq_none]
    exact not_not.mpr hitems
  have hskip0 : r.skip.toNat = 0 := Int.toNat_of_nonpos hskip
  have hfinish : ∀ rb, (r.finish sub maxRows rb).rows = rbApplyLimit maxRows rb.rows := by
    intro rb
    rw [ReturnClause.finish, hdistinct, horder, if_neg (by omega : ¬ 0 < r.limit)]
    change rbApplySkipLimit r.skip maxRows rb.rows = _
    rw [rbApplySkipLimit_eq r.skip (by omega), hskip0, rbApplyLimit, if_pos hmax, List.drop_zero,
      Int.toNat_natCast]
  have hcap : r.projCap maxRows = maxRows := if_neg fun h => absurd h.1 (by omega)
  rw [ReturnClause.execute, ReturnClause.project, executeReturnClause, if_neg hnone]
  split
  · rfl
  · split
    · cases executeReturnAgg lib store r.returnItems bindings with
      | none => rfl
      | some rows => exact congrArg some (hfinish _)
    · rw [hcap]
      exact congrArg some (hfinish _)

end Plain

end Cypher
end CodebaseMemory
