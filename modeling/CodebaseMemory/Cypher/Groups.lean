import CodebaseMemory.Cypher.Clauses
import CodebaseMemory.Lib.Distinct
import CodebaseMemory.Lib.JsonStrings
import Mathlib.Data.Finset.Card

/-!
# The rows of the groups

What the loop over the bindings and the emission of the rows compute together.
-/

namespace CodebaseMemory
namespace Cypher

open Lib
open Sqlite (CStr bytesOf)

section Rows

variable (lib : Libc)
variable (value : ItemExpr → Binding → CStr)
variable (accumulate : ItemExpr → Binding → Accum lib → Accum lib)
variable (format : ItemExpr → Accum lib → CStr)

def accumOver (e : ItemExpr) (members : List Binding) : Accum lib :=
  members.foldl (fun c b => accumulate e b c) (Accum.zero lib)

def groupRow (items : List ItemExpr) (members : List Binding) (first : Binding) : List CStr :=
  items.map fun e =>
    if e.hasFunc then format e (accumOver lib accumulate e members) else value e first

theorem zipWith_map_self {α β γ : Type} (f : α → β → γ) (g : α → β) (l : List α) :
    List.zipWith f l (l.map g) = l.map fun x => f x (g x) := by
  rw [List.zipWith_map_right, List.zipWith_self]

theorem foldl_accumulateGroup (items : List ItemExpr) (first : Binding) (members : List Binding) :
    members.foldl (accumulateGroup lib accumulate items) (initGroup lib value items first) =
      { vals := items.map fun e => if e.hasFunc then [48] else value e first
        accums := items.map fun e =>
          if e.hasFunc then accumOver lib accumulate e members else Accum.zero lib } := by
  induction members using List.reverseRecOn with
  | nil =>
      rw [List.foldl_nil, initGroup]
      congr 1
      apply List.map_congr_left
      intro e _
      rw [accumOver, List.foldl_nil, ite_self]
  | append_singleton members b ih =>
      rw [List.foldl_append, List.foldl_cons, List.foldl_nil, ih, accumulateGroup]
      congr 1
      rw [zipWith_map_self]
      apply List.map_congr_left
      intro e _
      by_cases hfunc : e.hasFunc = true
      · rw [if_pos hfunc, if_pos hfunc, if_pos hfunc, accumOver, accumOver, List.foldl_append]
        rfl
      · rw [if_neg hfunc, if_neg hfunc, if_neg hfunc]

theorem emitRow_eq (items : List ItemExpr) (vals : ItemExpr → CStr)
    (accums : ItemExpr → Accum lib) :
    emitRow lib format items { vals := items.map vals, accums := items.map accums } =
      items.map fun e => if e.hasFunc then format e (accums e) else vals e := by
  rw [emitRow, List.zip_map', zipWith_map_self]

theorem aggregateRows_eq (items : List ItemExpr) (bindings : List Binding) :
    (aggregate lib value accumulate items bindings).map (emitRow lib format items) =
      (firsts (buildKey value items) bindings).map fun first =>
        groupRow lib value accumulate format items
          (sharing (buildKey value items) bindings first) first := by
  rw [aggregate, groupLoop_eq, List.map_map, List.map_map]
  apply List.map_congr_left
  intro first _
  rw [Function.comp_apply, Function.comp_apply, foldl_accumulateGroup, emitRow_eq, groupRow]
  apply List.map_congr_left
  intro e _
  by_cases hfunc : e.hasFunc = true
  · rw [if_pos hfunc, if_pos hfunc, if_pos hfunc]
  · rw [if_neg hfunc, if_neg hfunc, if_neg hfunc]

theorem buildKey_congr {value value' : ItemExpr → Binding → CStr} {items : List ItemExpr}
    {b b' : Binding} (hvalue : ∀ e ∈ items, e.hasFunc = false → value e b = value' e b') :
    buildKey value items b = buildKey value' items b' := by
  rw [buildKey, buildKey]
  congr 1
  rw [List.flatMap_def, List.flatMap_def]
  congr 1
  apply List.map_congr_left
  intro e he
  obtain ⟨hmem, hfunc⟩ := List.mem_filter.mp he
  rw [hvalue e hmem (by simpa using hfunc)]

end Rows

section Cells

variable (lib : Libc)
variable (store : Option Store)

def withAggCell (e : ItemExpr) (members : List Binding) : CStr :=
  withAggFormat lib e (accumOver lib (withAggAccumulate lib store) e members)

def retAggCell (e : ItemExpr) (members : List Binding) : CStr :=
  formatAggValue lib e (accumOver lib (retAggAccumulate lib store) e members)

theorem accumOver_concat (accumulate : ItemExpr → Binding → Accum lib → Accum lib) (e : ItemExpr)
    (members : List Binding) (b : Binding) :
    accumOver lib accumulate e (members ++ [b]) =
      accumulate e b (accumOver lib accumulate e members) := by
  rw [accumOver, List.foldl_append]
  rfl

theorem count_accumOver (e : ItemExpr) (members : List Binding) :
    (accumOver lib (withAggAccumulate lib store) e members).count = members.length := by
  induction members using List.reverseRecOn with
  | nil => rfl
  | append_singleton members b ih =>
      rw [accumOver_concat, List.length_append, List.length_singleton, ← ih]
      rfl

theorem mem_distinctListAdd (values : List CStr) (v w : CStr) :
    w ∈ distinctListAdd values v ↔ w ∈ values ∨ w = v := by
  unfold distinctListAdd
  split
  · rename_i hmem
    constructor
    · exact Or.inl
    · rintro (hw | rfl)
      · exact hw
      · exact hmem
  · rw [List.mem_append, List.mem_singleton]

theorem nodup_distinctListAdd {values : List CStr} (hnodup : values.Nodup) (v : CStr) :
    (distinctListAdd values v).Nodup := by
  unfold distinctListAdd
  split
  · exact hnodup
  · rename_i hnew
    exact List.nodup_append.mpr ⟨hnodup, List.nodup_singleton v, by
      rintro w hw w' hw' rfl
      exact hnew (List.mem_singleton.mp hw' ▸ hw)⟩

theorem values_accumOver (var : CStr) (property : Option CStr) (members : List Binding) :
    let e := ItemExpr.aggregate .count true var property
    let values := (accumOver lib (withAggAccumulate lib store) e members).values
    values.Nodup ∧ ∀ v, v ∈ values ↔ v ∈ members.map fun b => e.virtual store b := by
  intro e
  induction members using List.reverseRecOn with
  | nil => exact ⟨List.nodup_nil, fun v => Iff.rfl⟩
  | append_singleton members b ih =>
      obtain ⟨hnodup, hmem⟩ := ih
      rw [accumOver_concat]
      refine ⟨nodup_distinctListAdd hnodup _, ?_⟩
      intro v
      rw [List.map_append, List.mem_append, ← hmem, List.map_singleton, List.mem_singleton]
      exact mem_distinctListAdd _ _ v

theorem take_decimal {n : Nat} (hn : n < 2 ^ 31) : (decimal n).take aggRoom = decimal n := by
  apply List.take_of_length_le
  have hlen : (decimal (n : Int)).length ≤ 20 := by
    apply length_decimal_le
    constructor
    · omega
    · omega
  exact le_trans hlen (by decide)

variable {members : List Binding}

theorem withAggCell_count (hlen : members.length < 2 ^ 31) (var : CStr) (property : Option CStr) :
    withAggCell lib store (.aggregate .count false var property) members =
      decimal members.length := by
  have hcell : withAggCell lib store (.aggregate .count false var property) members =
      (decimal (accumOver lib (withAggAccumulate lib store) _ members).count).take aggRoom := rfl
  rw [hcell, count_accumOver, take_decimal hlen]

theorem withAggCell_distinct (hlen : members.length < 2 ^ 31) (var : CStr)
    (property : Option CStr) :
    withAggCell lib store (.aggregate .count true var property) members =
      decimal (members.map fun b => bindingGetVirtual store b var property).toFinset.card := by
  obtain ⟨hnodup, hmem⟩ := values_accumOver lib store var property members
  have hset : (accumOver lib (withAggAccumulate lib store) (.aggregate .count true var property)
      members).values.toFinset =
        (members.map fun b => bindingGetVirtual store b var property).toFinset := by
    apply Finset.ext
    intro v
    rw [List.mem_toFinset, List.mem_toFinset]
    exact hmem v
  have hcard : (members.map fun b => bindingGetVirtual store b var property).toFinset.card <
      2 ^ 31 := by
    refine lt_of_le_of_lt (List.toFinset_card_le _) ?_
    rw [List.length_map]
    exact hlen
  rw [withAggCell, withAggFormat, ← List.toFinset_card_of_nodup hnodup, hset, take_decimal hcard]

theorem withAggCell_scalar (hlen : members.length < 2 ^ 31) {e : ItemExpr}
    (hagg : e.isAggregate = false) : withAggCell lib store e members = decimal members.length := by
  have hformat : ∀ c, withAggFormat lib e c = (decimal c.count).take aggRoom := by
    intro c
    cases e with
    | aggregate func distinct var property => exact absurd hagg (by simp [ItemExpr.isAggregate])
    | _ => rfl
  rw [withAggCell, hformat, count_accumOver, take_decimal hlen]

def ItemExpr.isCollect : ItemExpr → Bool
  | .aggregate .collect _ _ _ => true
  | _ => false

theorem retAggCell_eq {e : ItemExpr} (hcollect : e.isCollect = false) (members : List Binding) :
    retAggCell lib store e members = withAggCell lib store e members := by
  cases e with
  | aggregate func distinct var property =>
      cases func with
      | collect => exact absurd hcollect (by simp [ItemExpr.isCollect])
      | _ => rfl
  | _ => rfl

end Cells

section Values

variable (lib : Libc)
variable (store : Option Store)

def fullValue (e : ItemExpr) (b : Binding) : CStr :=
  match e with
  | .plain var property => bindingGetVirtual store b var property
  | e => projectItem lib store e b

/-- No variable is named CASE, which is a keyword. -/
def CaseFree (b : Binding) : Prop :=
  bindingGet b (bytesOf "CASE") = none ∧ bindingGetEdge b (bytesOf "CASE") = none

instance (b : Binding) : Decidable (CaseFree b) :=
  inferInstanceAs (Decidable (_ ∧ _))

theorem virtual_kase {b : Binding} (hcase : CaseFree b) (branches : List (Expr × Option CStr))
    (elseVal : Option CStr) : (ItemExpr.kase branches elseVal).virtual store b = [] := by
  have hname : (fullName (bytesOf "CASE") none).take nameRoom = bytesOf "CASE" := by decide
  change bindingGetVirtual store b (bytesOf "CASE") none = []
  rw [bindingGetVirtual, hname, hcase.1, hcase.2]

theorem retAggValue_eq {e : ItemExpr} (hfunc : e.hasFunc = false) (b : Binding) :
    retAggValue lib store e b = (fullValue lib store e b).take valueRoom := by
  cases e with
  | plain var property =>
      change ((bindingGetVirtual store b var property).take valueRoom).take valueRoom = _
      rw [List.take_take, Nat.min_self]
      rfl
  | kase branches elseVal => rfl
  | _ => exact absurd hfunc (by simp [ItemExpr.hasFunc])

/-- What WITH shows of a value: nothing of CASE. -/
def withShown (e : ItemExpr) (v : CStr) : CStr :=
  match e with
  | .kase _ _ => []
  | _ => v

theorem virtual_eq {e : ItemExpr} (hfunc : e.hasFunc = false) {b : Binding} (hcase : CaseFree b) :
    e.virtual store b = withShown e (fullValue lib store e b) := by
  cases e with
  | plain var property => rfl
  | kase branches elseVal => exact virtual_kase store hcase branches elseVal
  | _ => exact absurd hfunc (by simp [ItemExpr.hasFunc])

end Values

section Clauses

variable (lib : Libc)
variable (store : Option Store)

theorem withAggRows_eq (items : List ItemExpr) (bindings : List Binding) :
    withAggRows lib store items bindings =
      (firsts (buildKey (fun e b => e.virtual store b) items) bindings).map fun first =>
        items.map fun e =>
          if e.hasFunc then
            withAggCell lib store e
              (sharing (buildKey (fun e b => e.virtual store b) items) bindings first)
          else e.virtual store first :=
  aggregateRows_eq lib _ _ _ items bindings

theorem length_of_mem_withAggRows {items : List ItemExpr} {bindings : List Binding}
    {row : List CStr} (hrow : row ∈ withAggRows lib store items bindings) :
    row.length = items.length ∧ bindings ≠ [] := by
  rw [withAggRows_eq] at hrow
  obtain ⟨first, hfirst, rfl⟩ := List.mem_map.mp hrow
  exact ⟨List.length_map _, List.ne_nil_of_mem (mem_of_mem_firsts _ hfirst)⟩

theorem retAggRows_eq (items : List ItemExpr) (bindings : List Binding) :
    retAggRows lib store items bindings =
      (firsts (buildKey (retAggValue lib store) items) bindings).map fun first =>
        items.map fun e =>
          if e.hasFunc then
            retAggCell lib store e (sharing (buildKey (retAggValue lib store) items) bindings first)
          else retAggValue lib store e first :=
  aggregateRows_eq lib _ _ _ items bindings

end Clauses

/-- `n` is a function in a file. -/
def functionIn (name file : CStr) : Binding where
  vars := [(bytesOf "n",
    { id := 1
      project := some (bytesOf "p")
      label := some (bytesOf "Function")
      name := some name
      qualifiedName := some name
      filePath := some file
      startLine := 1
      endLine := 2
      propertiesJson := none })]
  edgeVars := []

/-- `COUNT(n)`. -/
def countN : ReturnItem where
  expr := .aggregate .count false (bytesOf "n") none
  itemAlias := none

/-- `n.name`. -/
def nameOfN : ReturnItem where
  expr := .plain (bytesOf "n") (some (bytesOf "name"))
  itemAlias := none

/-!
## COLLECT (`src/cypher/cypher.c`)

The cell of COLLECT is meant to be a JSON array of the values of the group.  The values are printed
between quotes without escapes, the text is cut to the room of a cell, and DISTINCT makes no
difference.
-/

section Collect

variable (lib : Libc)
variable (store : Option Store)

def collectedValues (var : CStr) (property : Option CStr) (members : List Binding) : List CStr :=
  members.map fun b => bindingGetVirtual store b var property

/-- The values that COLLECT is to return. -/
def wantedValues (distinct : Bool) (var : CStr) (property : Option CStr)
    (members : List Binding) : List CStr :=
  if distinct then firsts id (collectedValues store var property members)
  else collectedValues store var property members

theorem collected_accumOver (distinct : Bool) (var : CStr) (property : Option CStr)
    (members : List Binding) :
    (accumOver lib (retAggAccumulate lib store) (.aggregate .collect distinct var property)
      members).values = collectedValues store var property members := by
  induction members using List.reverseRecOn with
  | nil => rfl
  | append_singleton members b ih =>
      rw [accumOver_concat, collectedValues, List.map_append, ← collectedValues, ← ih]
      rfl

theorem itemsText_strings (values : List CStr) :
    Json.itemsText (values.map fun v => .str v v) = List.intercalate [44] (values.map quoted) := by
  induction values with
  | nil => rfl
  | cons v vs ih =>
      rw [List.map_cons, Json.itemsText_cons, ih]
      cases vs with
      | nil => simp [Json.text, Json.quoted, quoted]
      | cons v₂ vs => simp [Json.text, Json.quoted, quoted, List.intercalate]

theorem retAggCell_collect (distinct : Bool) (var : CStr) (property : Option CStr)
    (members : List Binding) :
    retAggCell lib store (.aggregate .collect distinct var property) members =
      (Json.text (Json.strings (collectedValues store var property members))).take aggRoom := by
  rw [retAggCell, formatAggValue, formatCollectList, collected_accumOver, ← itemsText_strings]
  rfl

theorem mem_of_diverge {values before vs ws' : List CStr} {v w : CStr}
    (hvalues : values = before ++ v :: vs) (hfirsts : firsts id values = before ++ w :: ws')
    (hne : v ≠ w) : v ∈ before := by
  by_contra hnew
  have hbefore : before.Nodup := by
    have hnodup := nodup_firsts_id values
    rw [hfirsts] at hnodup
    exact (List.nodup_append.mp hnodup).1
  have hbegin := firsts_prefix_append id (before ++ [v]) vs
  rw [firsts_id_concat, if_neg hnew, firsts_id_of_nodup hbefore, List.append_assoc,
    List.singleton_append, ← hvalues, hfirsts, List.prefix_append_right_inj,
    List.cons_prefix_cons] at hbegin
  exact hne hbegin.1

/-- The cell of COLLECT reads as the array of the values if it has room for their text, all of them
are plain, and with DISTINCT they are different. -/
theorem collect_iff (distinct : Bool) (var : CStr) (property : Option CStr)
    (members : List Binding) :
    Json.IsStrings (retAggCell lib store (.aggregate .collect distinct var property) members)
        (wantedValues store distinct var property members) ↔
      (Json.text (Json.strings (collectedValues store var property members))).length ≤ aggRoom ∧
        (∀ v ∈ collectedValues store var property members, Json.isPlain v = true) ∧
        (distinct = true → (collectedValues store var property members).Nodup) := by
  rw [retAggCell_collect, wantedValues]
  generalize collectedValues store var property members = values
  have hwhole : (Json.text (Json.strings values)).take aggRoom = Json.text (Json.strings values) ↔
      (Json.text (Json.strings values)).length ≤ aggRoom := List.take_eq_self_iff _
  rw [Json.isStrings_iff (List.take_prefix _ _), hwhole]
  · refine and_congr_right fun _ => and_congr_right fun _ => ?_
    cases distinct with
    | true =>
        rw [if_pos rfl, firsts_id_eq_iff]
        exact ⟨fun h _ => h, fun h => h rfl⟩
    | false => exact ⟨fun _ h => absurd h Bool.false_ne_true, fun _ => rfl⟩
  · intro before v vs w ws' hvalues hws hne
    cases distinct with
    | true => exact mem_of_diverge hvalues hws hne
    | false =>
        have hws : values = before ++ w :: ws' := hws
        rw [hvalues, List.append_cancel_left_eq, List.cons.injEq] at hws
        exact absurd hws.1 hne

end Collect

/-- The names of 16 functions, one byte each, need 65 bytes. -/
theorem not_collect_many :
    ¬ Json.IsStrings
      (retAggCell Libc.whole none
        (.aggregate .collect false (bytesOf "n") (some (bytesOf "name")))
        (List.replicate 16 (functionIn (bytesOf "f") (bytesOf "a.c"))))
      (wantedValues none false (bytesOf "n") (some (bytesOf "name"))
        (List.replicate 16 (functionIn (bytesOf "f") (bytesOf "a.c")))) := by
  rintro ⟨items, hread, -⟩
  have hnone : (Json.read (retAggCell Libc.whole none
      (.aggregate .collect false (bytesOf "n") (some (bytesOf "name")))
      (List.replicate 16 (functionIn (bytesOf "f") (bytesOf "a.c"))))).isNone = true := by
    decide +kernel
  rw [hread] at hnone
  exact absurd hnone Bool.false_ne_true

end Cypher
end CodebaseMemory
