import CodebaseMemory.Cypher.Parser
import CodebaseMemory.Lib.Bubble
import CodebaseMemory.Lib.Group
import CodebaseMemory.Sqlite.Database

/-!
# Postprocessing of results (`src/cypher/cypher.c`)

The functions `rb_*`, which sort, cut and deduplicate the rows of a result, and the names of its
columns.  ORDER BY compares numbers if the first value of the column that is not empty looks like
one; it cuts them to `int` and takes their difference, which has no meaning in C where an `int` has
no room for it.  The difference is a parameter, of which only the rest is known.
-/

namespace CodebaseMemory
namespace Cypher

open Lib
open Sqlite (CStr bytesOf strcmp)

/-- `rb_find_order_column`: a column of this name, else an item with this alias. -/
def rbFindOrderColumn (columns : List CStr) (aliases : List (Option CStr)) (orderBy : CStr) :
    Option Nat :=
  (columns.findIdx? (· = orderBy)).or (aliases.findIdx? (· = some orderBy))

def cell (col : Nat) (row : List CStr) : CStr :=
  row.getD col []

/-- Digits, perhaps with a minus before them. -/
def looksNumeric (v : CStr) : Bool :=
  let digits := if v.head? = some 45 then v.tail else v
  digits ≠ [] && digits.all fun c => 48 ≤ c && c ≤ 57

/-- `rb_is_numeric_column`: the first value that is not empty decides. -/
def rbIsNumericColumn (rows : List (List CStr)) (col : Nat) : Bool :=
  match rows.find? fun row => cell col row ≠ [] with
  | some row => looksNumeric (cell col row)
  | none => false

/-- What C says of the difference of two values of type `int`. -/
def IsIntSub (sub : Int → Int → Int) : Prop :=
  ∀ x y, -2 ^ 31 ≤ x - y → x - y < 2 ^ 31 → sub x y = x - y

theorem isIntSub_exact : IsIntSub fun x y => x - y :=
  fun _ _ _ _ => rfl

/-- The comparison of two neighbours says that they are to be swapped. -/
def misplaced (sub : Int → Int → Int) (numeric desc : Bool) (x y : CStr) : Bool :=
  if numeric then
    let cmp := sub (strtolInt x) (strtolInt y)
    if desc then cmp < 0 else 0 < cmp
  else if desc then strcmp x y = .lt
  else strcmp x y = .gt

/-- The loops of `rb_apply_order_by`. -/
def sortByColumn (sub : Int → Int → Int) (col : Nat) (desc : Bool) (rows : List (List CStr)) :
    List (List CStr) :=
  let numeric := rbIsNumericColumn rows col
  bubbleSort (fun row row' => misplaced sub numeric desc (cell col row) (cell col row')) rows

/-- `rb_apply_order_by`; a column that is not found leaves the rows as they are. -/
def rbApplyOrderBy (sub : Int → Int → Int) (columns : List CStr) (aliases : List (Option CStr))
    (orderBy : Option OrderBy) (rows : List (List CStr)) : List (List CStr) :=
  match orderBy with
  | none => rows
  | some order =>
      match rbFindOrderColumn columns aliases order.expr with
      | none => rows
      | some col => sortByColumn sub col (order.ascending = some false) rows

def rbApplySkipLimit (skip limit : Int) (rows : List (List CStr)) : List (List CStr) :=
  let rows :=
    if 0 < skip ∧ skip < rows.length then rows.drop skip.toNat
    else if rows.length ≤ skip then []
    else rows
  if 0 < limit ∧ limit < rows.length then rows.take limit.toNat else rows

/-- `rb_apply_distinct`: a row is kept if it is none of those kept so far. -/
def rbApplyDistinct (rows : List (List CStr)) : List (List CStr) :=
  rows.foldl (fun kept row => if row ∈ kept then kept else kept ++ [row]) []

theorem rbApplySkipLimit_eq (skip : Int) {limit : Int} (hlimit : 0 < limit)
    (rows : List (List CStr)) :
    rbApplySkipLimit skip limit rows = (rows.drop skip.toNat).take limit.toNat := by
  have hskip : (if 0 < skip ∧ skip < rows.length then rows.drop skip.toNat
      else if rows.length ≤ skip then [] else rows) = rows.drop skip.toNat := by
    split
    · rfl
    · next hnot =>
      split
      · next hall => rw [List.drop_eq_nil_of_le (by omega)]
      · next hfew =>
        obtain h0 : skip.toNat = 0 := by omega
        rw [h0, List.drop_zero]
  rw [rbApplySkipLimit, hskip]
  split
  · rfl
  · next hnot => rw [List.take_of_length_le (by omega)]

theorem rbApplyDistinct_eq (rows : List (List CStr)) : rbApplyDistinct rows = firsts id rows := by
  induction rows using List.reverseRecOn with
  | nil => rfl
  | append_singleton rows row ih =>
      have hstep : rbApplyDistinct (rows ++ [row]) =
          if row ∈ rbApplyDistinct rows then rbApplyDistinct rows
          else rbApplyDistinct rows ++ [row] := by
        rw [rbApplyDistinct, List.foldl_append]
        rfl
      have hnext := firsts_concat id rows row
      rw [hstep, ih]
      by_cases hmem : row ∈ firsts id rows
      · rw [if_pos hmem, hnext, if_pos (by rwa [List.map_id])]
      · rw [if_neg hmem, hnext, if_neg (by rwa [List.map_id])]

theorem rbApplyOrderBy_perm (sub : Int → Int → Int) (columns : List CStr)
    (aliases : List (Option CStr)) (orderBy : Option OrderBy) (rows : List (List CStr)) :
    (rbApplyOrderBy sub columns aliases orderBy rows).Perm rows := by
  cases orderBy with
  | none => exact List.Perm.refl rows
  | some order =>
      simp only [rbApplyOrderBy]
      split
      · exact List.Perm.refl rows
      · exact bubbleSort_perm rows

theorem rbApplySkipLimit_sublist (skip limit : Int) (rows : List (List CStr)) :
    (rbApplySkipLimit skip limit rows).Sublist rows := by
  have hskip : (if 0 < skip ∧ skip < rows.length then rows.drop skip.toNat
      else if rows.length ≤ skip then [] else rows).Sublist rows := by
    split
    · exact List.drop_sublist _ _
    · split
      · exact List.nil_sublist _
      · exact List.Sublist.refl _
  have hlimit : ∀ kept : List (List CStr),
      (if 0 < limit ∧ limit < kept.length then kept.take limit.toNat else kept).Sublist kept := by
    intro kept
    split
    · exact List.take_sublist _ _
    · exact List.Sublist.refl _
  exact (hlimit _).trans hskip

theorem rbApplyDistinct_sublist (rows : List (List CStr)) : (rbApplyDistinct rows).Sublist rows :=
  rbApplyDistinct_eq rows ▸ firsts_sublist id rows

/-- `str_func_name`, and the names of `scalar_func_canonical`. -/
def stringFuncName : StringFunc → String
  | .toLower => "toLower"
  | .toUpper => "toUpper"
  | .toString => "toString"
  | .toInteger => "toInteger"
  | .toFloat => "toFloat"
  | .toBoolean => "toBoolean"
  | .size => "size"
  | .length => "length"
  | .trim => "trim"
  | .ltrim => "ltrim"
  | .rtrim => "rtrim"
  | .reverse => "reverse"

/-- The names of `scalar_func_canonical` for functions of a node or an edge. -/
def entityFuncName : EntityFunc → String
  | .labels => "labels"
  | .type => "type"
  | .id => "id"
  | .keys => "keys"
  | .properties => "properties"

/-- The names of `multiarg_func_canonical`. -/
def multiFuncName : MultiFunc → String
  | .coalesce => "coalesce"
  | .substring => "substring"
  | .replace => "replace"
  | .left => "left"
  | .right => "right"

/-- `item->func` -/
def ItemExpr.func : ItemExpr → Option String
  | .plain _ _ => none
  | .aggregate func _ _ _ => some (aggFuncName func)
  | .string func _ _ => some (stringFuncName func)
  | .entity func _ _ => some (entityFuncName func)
  | .multi func _ => some (multiFuncName func)
  | .kase _ _ => none

def columnRoom : Nat := 127

/-- A name of `build_return_columns`; a NULL variable is printed as the C library does. -/
def returnColumn (item : ReturnItem) : CStr :=
  let var := item.expr.var.getD (bytesOf "(null)")
  match item.itemAlias, item.expr.func, item.expr.property with
  | some name, _, _ => name
  | none, some func, _ => (bytesOf func ++ 40 :: (var ++ [41])).take columnRoom
  | none, none, some property => (var ++ 46 :: property).take columnRoom
  | none, none, none => var

def buildReturnColumns (items : List ReturnItem) : List CStr :=
  items.map returnColumn

/-- `collect_pattern_vars`: the variables of the nodes and then of the relationships, pattern by
pattern, as far as there is room. -/
def collectPatternVars (q : Query) (maxVars : Nat) : List CStr :=
  ((q.first :: q.more.map Prod.fst).flatMap fun pat =>
    (pat.start.var :: pat.steps.map fun step => step.2.var).filterMap id ++
      pat.steps.filterMap fun step => step.1.var).take maxVars

def buildStarColumns (vars : List CStr) : List CStr :=
  vars.flatMap fun var =>
    ["name", "qualified_name", "label", "file_path"].map fun field =>
      (var ++ 46 :: bytesOf field).take columnRoom

def buildDefaultColumns (vars : List CStr) : List CStr :=
  vars.flatMap fun var =>
    ["name", "qualified_name", "label"].map fun field =>
      (var ++ 46 :: bytesOf field).take columnRoom

def projectStarVar (b : Binding) (var : CStr) : List CStr :=
  match bindingGetEdge b var with
  | some e => [e.type, [], [], []]
  | none =>
      match bindingGet b var with
      | some n => [n.name.getD [], n.qualifiedName.getD [], n.label.getD [], n.filePath.getD []]
      | none => [[], [], [], []]

def projectStarRow (vars : List CStr) (b : Binding) : List CStr :=
  vars.flatMap (projectStarVar b)

/-- A row of `execute_default_projection`. -/
def defaultRow (vars : List CStr) (b : Binding) : List CStr :=
  vars.flatMap fun var =>
    match bindingGet b var with
    | some n => [n.name.getD [], n.qualifiedName.getD [], n.label.getD []]
    | none => [[], [], []]

end Cypher
end CodebaseMemory
