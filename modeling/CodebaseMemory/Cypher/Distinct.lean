import CodebaseMemory.Cypher.Execute
import CodebaseMemory.Cypher.OrderBy
import CodebaseMemory.Lib.Distinct

/-!
# RETURN DISTINCT (`src/cypher/cypher.c`)

In Cypher, duplicates are dropped from all rows, before they are sorted and before rows are dropped
and taken.  The code drops them last, from the rows that SKIP and LIMIT have left, and without ORDER
BY and SKIP it projects no more bindings than LIMIT says.
-/

namespace CodebaseMemory
namespace Cypher

open Lib
open Sqlite (CStr bytesOf)

/-- The first value may stand before the second one. -/
def valueLe (numeric desc : Bool) (x y : CStr) : Bool :=
  if numeric then !decide (intPrecedes desc y x) else !decide (precedes false desc y x)

/-- The first row may stand before the second one. -/
def rowLe (numeric desc : Bool) (col : Nat) (p q : List CStr) : Bool :=
  valueLe numeric desc (cell col p) (cell col q)

def orderRows (col : Option Nat) (desc : Bool) (rows : List (List CStr)) : List (List CStr) :=
  match col with
  | none => rows
  | some col => rows.mergeSort (rowLe (rbIsNumericColumn rows col) desc col)

def ReturnClause.orderColumn (r : ReturnClause) (columns : List CStr) : Option Nat :=
  r.orderBy.bind fun order =>
    rbFindOrderColumn columns (r.returnItems.map ReturnItem.itemAlias) order.expr

def ReturnClause.descending (r : ReturnClause) : Bool :=
  r.orderBy.any fun order => order.ascending = some false

def ReturnClause.projectAll (r : ReturnClause) (lib : Libc) (store : Option Store) (q : Query)
    (bindings : List Binding) : ResultBuilder :=
  if r.items.isNone then executeReturnStar q bindings bindings.length
  else
    { columns := buildReturnColumns r.returnItems
      rows := bindings.map fun b => returnRow lib store b (r.returnItems.map ReturnItem.expr) }

/-- The number of rows that LIMIT takes. -/
def ReturnClause.window (r : ReturnClause) (rows : List (List CStr)) : Nat :=
  if 0 < r.limit then r.limit.toNat else rows.length

/-- Drop duplicates, sort, drop the first SKIP rows and take LIMIT rows. -/
def ReturnClause.inOrder (r : ReturnClause) (rb : ResultBuilder) : ResultBuilder :=
  let sorted := orderRows (r.orderColumn rb.columns) r.descending (firsts id rb.rows)
  { rb with rows := (sorted.drop r.skip.toNat).take (r.window rb.rows) }

/-- The `int`s that ORDER BY compares are less than 2^31 apart. -/
def IntsClose (col : Option Nat) (rows : List (List CStr)) : Prop :=
  ∀ c ∈ col, rbIsNumericColumn rows c = true →
    ∀ p ∈ rows, ∀ q ∈ rows, strtolInt (cell c p) - strtolInt (cell c q) < 2 ^ 31

instance (col : Option Nat) (rows : List (List CStr)) : Decidable (IntsClose col rows) :=
  inferInstanceAs (Decidable (∀ _, _))

section Sorting

variable {numeric desc : Bool}

theorem valueLe_total (x y : CStr) :
    (valueLe numeric desc x y || valueLe numeric desc y x) = true := by
  rw [valueLe, valueLe, Bool.or_eq_true]
  cases numeric with
  | true =>
      simp only [if_true, Bool.not_eq_true', decide_eq_false_iff_not]
      by_cases h : intPrecedes desc y x
      · exact Or.inr (intPrecedes_asymm h)
      · exact Or.inl h
  | false =>
      simp only [Bool.false_eq_true, if_false, Bool.not_eq_true', decide_eq_false_iff_not]
      by_cases h : precedes false desc y x
      · exact Or.inr (precedes_asymm h)
      · exact Or.inl h

theorem valueLe_trans {x y z : CStr} (hxy : valueLe numeric desc x y = true)
    (hyz : valueLe numeric desc y z = true) : valueLe numeric desc x z = true := by
  rw [valueLe] at *
  cases numeric with
  | true =>
      simp only [if_true, Bool.not_eq_true', decide_eq_false_iff_not] at *
      exact not_intPrecedes_trans hxy hyz
  | false =>
      simp only [Bool.false_eq_true, if_false, Bool.not_eq_true', decide_eq_false_iff_not] at *
      exact not_precedes_trans hxy hyz

theorem rowLe_total {col : Nat} (p q : List CStr) :
    (rowLe numeric desc col p q || rowLe numeric desc col q p) = true :=
  valueLe_total _ _

theorem rowLe_trans {col : Nat} (p q r : List CStr) (hpq : rowLe numeric desc col p q = true)
    (hqr : rowLe numeric desc col q r = true) : rowLe numeric desc col p r = true :=
  valueLe_trans hpq hqr

theorem rbIsNumericColumn_firsts (rows : List (List CStr)) (col : Nat) :
    rbIsNumericColumn (firsts id rows) col = rbIsNumericColumn rows col := by
  rw [rbIsNumericColumn, find?_firsts_id, rbIsNumericColumn]

theorem orderRows_firsts (col : Option Nat) (rows : List (List CStr)) :
    orderRows col desc (firsts id rows) = firsts id (orderRows col desc rows) := by
  cases col with
  | none => rfl
  | some col =>
      simp only [orderRows]
      rw [rbIsNumericColumn_firsts, mergeSort_firsts rowLe_trans rowLe_total]

theorem length_orderRows (col : Option Nat) (rows : List (List CStr)) :
    (orderRows col desc rows).length = rows.length := by
  cases col with
  | none => rfl
  | some col => exact List.length_mergeSort rows

theorem rbApplyOrderBy_eq_orderRows {sub : Int → Int → Int} (hsub : IsIntSub sub) {r : ReturnClause}
    {columns : List CStr} {rows : List (List CStr)}
    (hclose : IntsClose (r.orderColumn columns) rows) :
    rbApplyOrderBy sub columns (r.returnItems.map ReturnItem.itemAlias) r.orderBy rows =
      orderRows (r.orderColumn columns) r.descending rows := by
  unfold ReturnClause.orderColumn at *
  cases horder : r.orderBy with
  | none => rfl
  | some order =>
      rw [horder, Option.bind_some] at hclose
      rw [rbApplyOrderBy, ReturnClause.descending, horder, Option.bind_some, Option.any_some]
      cases hcol : rbFindOrderColumn columns (r.returnItems.map ReturnItem.itemAlias) order.expr with
      | none => rfl
      | some col =>
          have hclose := hclose col hcol
          simp only [orderRows, sortByColumn]
          refine bubbleSort_eq_mergeSort rowLe_trans rowLe_total fun p hp q hq => ?_
          rw [rowLe, valueLe]
          cases hnumeric : rbIsNumericColumn rows col with
          | true =>
              rw [if_pos rfl, Bool.not_not, Bool.eq_iff_iff, decide_eq_true_iff]
              exact misplaced_ints hsub (hclose hnumeric p hp q hq) (hclose hnumeric q hq p hp)
          | false =>
              rw [if_neg Bool.false_ne_true, Bool.not_not, Bool.eq_iff_iff, decide_eq_true_iff]
              exact misplaced_bytes

end Sorting

section Returned

variable (lib : Libc)
variable (store : Option Store)
variable {sub : Int → Int → Int}
variable {r : ReturnClause}
variable (q : Query)
variable {bindings : List Binding}
variable {maxRows : Nat}

/-- The rows that the code returns, if duplicates are dropped last. -/
def ReturnClause.distinctLast (r : ReturnClause) (rb : ResultBuilder) : ResultBuilder :=
  let sorted := orderRows (r.orderColumn rb.columns) r.descending rb.rows
  { rb with rows := firsts id ((sorted.drop r.skip.toNat).take (r.window rb.rows)) }

theorem rbApplySkipLimit_window {rows rows' : List (List CStr)} (hfew : rows.length ≤ maxRows)
    (hlength : rows'.length = rows.length) :
    rbApplySkipLimit r.skip (if 0 < r.limit then r.limit else maxRows) rows' =
      (rows'.drop r.skip.toNat).take (r.window rows) := by
  rw [ReturnClause.window]
  by_cases hlimit : 0 < r.limit
  · rw [if_pos hlimit, if_pos hlimit, rbApplySkipLimit_eq _ hlimit]
  · rw [if_neg hlimit, if_neg hlimit]
    by_cases hmax : maxRows = 0
    · have hnil : rows' = [] := List.length_eq_zero_iff.mp (by omega)
      rw [hnil, List.drop_nil, List.take_nil, rbApplySkipLimit]
      simp
    · rw [rbApplySkipLimit_eq _ (by omega), List.take_of_length_le, List.take_of_length_le]
      · rw [List.length_drop]
        omega
      · rw [List.length_drop]
        omega

theorem finish_distinct (hsub : IsIntSub sub) (hdistinct : r.distinct = true) {rb : ResultBuilder}
    (hfew : rb.rows.length ≤ maxRows) (hclose : IntsClose (r.orderColumn rb.columns) rb.rows) :
    r.finish sub maxRows rb = r.distinctLast rb := by
  rw [ReturnClause.finish, ReturnClause.distinctLast, rbApplyOrderBy_eq_orderRows hsub hclose,
    rbApplySkipLimit_window hfew (length_orderRows _ _), hdistinct]
  simp only [if_true, rbApplyDistinct_eq]

theorem finish_capped (hdistinct : r.distinct = true) (hlimit : 0 < r.limit)
    (horder : r.orderBy = none) (hskip : r.skip ≤ 0) (columns : List CStr)
    (rows : List (List CStr)) :
    r.finish sub maxRows { columns := columns, rows := rows.take r.limit.toNat } =
      r.distinctLast { columns := columns, rows := rows } := by
  have hskip0 : r.skip.toNat = 0 := Int.toNat_of_nonpos hskip
  have hcut : rbApplySkipLimit r.skip r.limit (rows.take r.limit.toNat) =
      rows.take r.limit.toNat := by
    rw [rbApplySkipLimit_eq _ hlimit, hskip0, List.drop_zero, List.take_take, Nat.min_self]
  rw [ReturnClause.finish, ReturnClause.distinctLast, ReturnClause.orderColumn,
    ReturnClause.window, horder, hdistinct, hskip0, if_pos hlimit, if_pos hlimit]
  change ResultBuilder.mk _ (rbApplyDistinct (rbApplySkipLimit _ _ _)) = _
  rw [rbApplyOrderBy, hcut, rbApplyDistinct_eq]
  rfl

theorem execute_distinct (hsub : IsIntSub sub) (hfew : bindings.length ≤ maxRows)
    (hdistinct : r.distinct = true)
    (hagg : (r.returnItems.any fun item => item.expr.isAggregate) = false)
    (hroom : r.items.isNone = true ∨ r.returnItems.length ≤ maxItems)
    (hclose : IntsClose (r.orderColumn (r.projectAll lib store q bindings).columns)
      (r.projectAll lib store q bindings).rows) :
    r.execute lib store sub q bindings maxRows =
      some (r.distinctLast (r.projectAll lib store q bindings)) := by
  rw [ReturnClause.execute, ReturnClause.project]
  by_cases hstar : r.items.isNone = true
  · have hall : executeReturnStar q bindings maxRows = r.projectAll lib store q bindings := by
      rw [ReturnClause.projectAll, if_pos hstar, executeReturnStar, executeReturnStar,
        List.take_of_length_le hfew, List.take_length]
    have hrows : (r.projectAll lib store q bindings).rows.length ≤ maxRows := by
      rw [← hall, executeReturnStar, List.length_map, List.length_take]
      omega
    rw [if_pos hstar, hall, Option.map_some, finish_distinct hsub hdistinct hrows hclose]
  · have hroom : ¬ maxItems < r.returnItems.length := Nat.not_lt.mpr (hroom.resolve_left hstar)
    have hall : r.projectAll lib store q bindings =
        { columns := buildReturnColumns r.returnItems
          rows := bindings.map fun b => returnRow lib store b (r.returnItems.map ReturnItem.expr) } :=
      if_neg hstar
    rw [if_neg hstar, if_neg hroom, if_neg (Bool.eq_false_iff.mp hagg), Option.map_some,
      executeReturnSimple, List.map_take, ReturnClause.projCap]
    refine congrArg some ?_
    split
    · next hcap =>
      rw [hall]
      exact finish_capped hdistinct hcap.1 (Option.isNone_iff_eq_none.mp hcap.2.1) hcap.2.2 _ _
    · rw [List.take_of_length_le (by rwa [List.length_map]), ← hall]
      exact finish_distinct hsub hdistinct (by rwa [hall, List.length_map]) hclose

end Returned

/-- A variable of the pattern `(n)`. -/
def onePattern : Query where
  first := { start := { var := some (bytesOf "n"), label := none, props := [] }, steps := [] }
  firstOptional := false
  more := []
  whereClause := none

def distinctNames (limit : Int) : ReturnClause where
  items := some [{ expr := .item (.plain (bytesOf "n") (some (bytesOf "name"))), itemAlias := none }]
  distinct := true
  orderBy := none
  skip := 0
  limit := limit

/-- A function that `n` stands for. -/
def namedBinding (name : CStr) : Binding :=
  bindingSet Binding.empty (bytesOf "n") (virtualNode [] name)

end Cypher
end CodebaseMemory
