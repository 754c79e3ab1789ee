import CodebaseMemory.Cypher.Store
import CodebaseMemory.Lib.Decimal
import Mathlib.Data.List.Count

/-!
# Degrees of many nodes (`src/store/store.c`)

`cbm_store_batch_count_degrees` runs one statement for each direction, with a placeholder for each id
as far as `in_clause` has room, and copies each count to the first place of its id.  The
ids are bound one after another, also those that have no placeholder: where the list was cut, the
next one stands in the place of the edge type, and the type itself is not bound.
-/

namespace CodebaseMemory
namespace Query

open Lib
open Cypher (Edge)
open Sqlite (CStr bytesOf toI32)

/-- `in_clause`: `?,?,?`, in a buffer of 4096 bytes. -/
def inClause (idCount : Nat) : CStr :=
  (List.range idCount).foldl
    (fun buf i =>
      if buf.length < 4096 - 4 then (if i > 0 then buf ++ [44] else buf) ++ [63] else buf) []

/-- What a parameter is bound to. -/
inductive SqlValue where
  | null
  | int (i : Int)
  | text (s : CStr)
deriving DecidableEq

/-- `sqlite3_bind_*`; an index that the statement does not have is an error, which the caller
ignores. -/
def bindAt (params : Nat) (binding : Nat → SqlValue) (index : Nat) (value : SqlValue) :
    Nat → SqlValue :=
  if 1 ≤ index ∧ index ≤ params then Function.update binding index value else binding

/-- The loop over the ids. -/
def bindIds (params : Nat) (nodeIds : List Int) : Nat → SqlValue :=
  (List.range nodeIds.length).foldl
    (fun binding i => bindAt params binding (i + 1) (.int (nodeIds.getD i 0))) fun _ => .null

/-- `type = ?`: a column of texts compares a number as its decimal text. -/
def typeEquals (type : CStr) : SqlValue → Bool
  | .null => false
  | .int i => type = decimal i
  | .text s => type = s

/-- The edges that the statement counts; `placeholders` is the length of its list. -/
def countedEdges (edges : List Edge) (idCol : Edge → Int) (placeholders : Nat) (hasType : Bool)
    (binding : Nat → SqlValue) : List Edge :=
  edges.filter fun e =>
    ((List.range placeholders).any fun i => binding (i + 1) = .int (idCol e)) &&
      (!hasType || typeEquals e.type (binding (placeholders + 1)))

/-- `SELECT id, COUNT(*) … GROUP BY id` -/
def groupCounts (ids : List Int) : List (Int × Nat) :=
  ids.dedup.map fun id => (id, ids.count id)

/-- The loop that copies a count: to the first place of the id. -/
def storeCount (nodeIds : List Int) (out : List Int) (row : Int × Nat) : List Int :=
  match nodeIds.findIdx? (· = row.1) with
  | some i => out.set i (toI32 row.2)
  | none => out

/-- `count_degrees_direction`; `out` is zero at first. -/
def countDegreesDirection (edges : List Edge) (nodeIds : List Int) (clause : CStr)
    (edgeType : Option CStr) (idCol : Edge → Int) : List Int :=
  let placeholders := clause.count 63
  let params := placeholders + if edgeType.isSome then 1 else 0
  let ids := bindIds params nodeIds
  let binding := match edgeType with
    | some type => bindAt params ids (nodeIds.length + 1) (.text type)
    | none => ids
  (groupCounts ((countedEdges edges idCol placeholders edgeType.isSome binding).map idCol)).foldl
    (storeCount nodeIds) (List.replicate nodeIds.length 0)

/-- `cbm_store_batch_count_degrees`: `out_in` and `out_out`, or an error. -/
def batchCountDegrees (edges : List Edge) (nodeIds : List Int) (edgeType : Option CStr) :
    Option (List Int × List Int) :=
  if nodeIds = [] then none
  else
    let clause := inClause nodeIds.length
    let type := edgeType.filter (· ≠ [])
    some (countDegreesDirection edges nodeIds clause type Edge.targetId,
      countDegreesDirection edges nodeIds clause type Edge.sourceId)

/-- The edges of a node, of a type if one is given; an empty type is none. -/
def degree (edges : List Edge) (idCol : Edge → Int) (edgeType : Option CStr) (id : Int) : Nat :=
  edges.countP fun e => idCol e = id && (edgeType.filter (· ≠ [])).all (e.type = ·)

/-- The arrays hold the degrees of all nodes of the list. -/
def CountsDegrees (edges : List Edge) (nodeIds : List Int) (edgeType : Option CStr) : Prop :=
  ∀ outIn outOut, batchCountDegrees edges nodeIds edgeType = some (outIn, outOut) →
    ∀ (i : Nat) (id : Int), nodeIds[i]? = some id →
      outIn[i]? = some (degree edges Edge.targetId edgeType id : Int) ∧
        outOut[i]? = some (degree edges Edge.sourceId edgeType id : Int)

def idRoom : Nat := 2047

def comparedType (nodeIds : List Int) (edgeType : Option CStr) : Option CStr :=
  if (edgeType.filter (· ≠ [])).isSome then
    match nodeIds[idRoom]? with
    | some id => some (decimal id)
    | none => edgeType
  else edgeType

/-- The count of a place can be right: at the first place of an id with a placeholder the compared
type counts as many edges, up to multiples of 2^32, and an `int` has room for the number; elsewhere
there is nothing to count. -/
def CountFits (edges : List Edge) (idCol : Edge → Int) (nodeIds : List Int)
    (edgeType : Option CStr) (i : Nat) (id : Int) : Prop :=
  if id ∉ nodeIds.take i ∧ i < idRoom then
    degree edges idCol edgeType id < 2 ^ 31 ∧
      degree edges idCol (comparedType nodeIds edgeType) id % 2 ^ 32 =
        degree edges idCol edgeType id
  else degree edges idCol edgeType id = 0

theorem inClause_succ (n : Nat) : inClause (n + 1) =
    if (inClause n).length < 4092 then
      (if n > 0 then inClause n ++ [44] else inClause n) ++ [63] else inClause n := by
  rw [inClause, List.range_succ, List.foldl_append]
  rfl

theorem inClause_counts (n : Nat) :
    (inClause n).length = 2 * min n idRoom - 1 ∧ (inClause n).count 63 = min n idRoom := by
  induction n with
  | zero => exact ⟨rfl, rfl⟩
  | succ n ih =>
      obtain ⟨hlength, hcount⟩ := ih
      rw [idRoom] at hlength hcount ⊢
      rw [inClause_succ]
      by_cases hroom : n < 2047
      · have hlt : (inClause n).length < 4092 := by omega
        rw [if_pos hlt]
        by_cases hn : n > 0
        · rw [if_pos hn, List.length_append, List.length_append, List.count_append,
            List.count_append, hlength, hcount]
          constructor
          · simp only [List.length_singleton]
            omega
          · change min n 2047 + 0 + 1 = _
            omega
        · obtain rfl : n = 0 := by omega
          exact ⟨rfl, rfl⟩
      · have hge : ¬ (inClause n).length < 4092 := by omega
        rw [if_neg hge, hlength, hcount]
        omega

section Parameters

variable {params : Nat} {nodeIds : List Int}

theorem bindAt_of_ne (params : Nat) (binding : Nat → SqlValue) {index k : Nat} (value : SqlValue)
    (h : k ≠ index) : bindAt params binding index value k = binding k := by
  rw [bindAt]
  split
  · exact Function.update_of_ne h _ _
  · rfl

theorem bindIds_loop (params : Nat) (nodeIds : List Int) (n k : Nat) :
    (List.range n).foldl
        (fun binding i => bindAt params binding (i + 1) (.int (nodeIds.getD i 0)))
        (fun _ => SqlValue.null) k =
      if 1 ≤ k ∧ k ≤ params ∧ k ≤ n then .int (nodeIds.getD (k - 1) 0) else .null := by
  induction n with
  | zero =>
      rw [if_neg (by omega)]
      rfl
  | succ n ih =>
      rw [List.range_succ, List.foldl_append, List.foldl_cons, List.foldl_nil, bindAt]
      by_cases hin : 1 ≤ n + 1 ∧ n + 1 ≤ params
      · rw [if_pos hin]
        by_cases hk : k = n + 1
        · subst hk
          rw [Function.update_self, if_pos ⟨hin.1, hin.2, le_rfl⟩, Nat.add_sub_cancel]
        · rw [Function.update_of_ne hk, ih]
          exact if_congr (by omega) rfl rfl
      · rw [if_neg hin, ih]
        exact if_congr (by omega) rfl rfl

theorem bindIds_apply (params : Nat) (nodeIds : List Int) (k : Nat) :
    bindIds params nodeIds k = if 1 ≤ k ∧ k ≤ params ∧ k ≤ nodeIds.length then
      .int (nodeIds.getD (k - 1) 0) else .null :=
  bindIds_loop params nodeIds nodeIds.length k

/-- The bindings of `count_degrees_direction`. -/
def bindings (nodeIds : List Int) (edgeType : Option CStr) : Nat → SqlValue :=
  let params := (inClause nodeIds.length).count 63 + if edgeType.isSome then 1 else 0
  match edgeType with
  | some type => bindAt params (bindIds params nodeIds) (nodeIds.length + 1) (.text type)
  | none => bindIds params nodeIds

theorem bindings_id (nodeIds : List Int) (edgeType : Option CStr) {i : Nat}
    (hi : i < min nodeIds.length idRoom) :
    bindings nodeIds edgeType (i + 1) = .int (nodeIds.getD i 0) := by
  have hcount := (inClause_counts nodeIds.length).2
  cases edgeType with
  | none =>
      rw [bindings, bindIds_apply, if_pos (by omega), Nat.add_sub_cancel]
  | some type =>
      have hne : i + 1 ≠ nodeIds.length + 1 := by omega
      rw [bindings, bindAt_of_ne _ _ _ hne, bindIds_apply, if_pos (by omega), Nat.add_sub_cancel]

theorem decimal_ne_nil (i : Int) : decimal i ≠ [] := by
  cases i with
  | ofNat n => exact decimalNat_ne_nil n
  | negSucc n => exact List.cons_ne_nil _ _

theorem bindings_type (nodeIds : List Int) {type : CStr} (htype : type ≠ []) (t : CStr) :
    typeEquals t (bindings nodeIds (some type) ((inClause nodeIds.length).count 63 + 1)) =
      ((comparedType nodeIds (some type)).filter (· ≠ [])).all (t = ·) := by
  have hcount := (inClause_counts nodeIds.length).2
  have hfilter : ∀ {u : CStr}, u ≠ [] → (some u).filter (fun t : CStr => t ≠ []) = some u :=
    fun hu => by rw [Option.filter_some, if_pos (decide_eq_true hu)]
  rw [idRoom] at hcount
  rw [comparedType, hfilter htype, if_pos (by rfl), bindings]
  by_cases hlong : nodeIds.length ≤ 2047
  · -- the type has a parameter of its own
    have hindex : (inClause nodeIds.length).count 63 + 1 = nodeIds.length + 1 := by omega
    have hnone : nodeIds[idRoom]? = none := List.getElem?_eq_none_iff.mpr hlong
    rw [hnone, hindex, bindAt, if_pos ⟨by omega, by simp [hindex]⟩, Function.update_self]
    simp only
    rw [hfilter htype, typeEquals, Option.all_some]
  · -- the loop over the ids has bound it
    have hlt : idRoom < nodeIds.length := by
      rw [idRoom]
      omega
    have hne : (inClause nodeIds.length).count 63 + 1 ≠ nodeIds.length + 1 := by omega
    have hparams : (inClause nodeIds.length).count 63 + 1 ≤
        (inClause nodeIds.length).count 63 + if (some type).isSome then 1 else 0 := le_rfl
    rw [bindAt_of_ne _ _ _ hne, bindIds_apply, if_pos ⟨by omega, hparams, by omega⟩,
      List.getElem?_eq_getElem hlt]
    simp only
    rw [hfilter (decimal_ne_nil _), typeEquals, Option.all_some]
    have hget : nodeIds.getD ((inClause nodeIds.length).count 63 + 1 - 1) 0 = nodeIds[idRoom] := by
      have hk : (inClause nodeIds.length).count 63 + 1 - 1 = idRoom := by
        rw [idRoom]
        omega
      rw [hk, List.getD_eq_getElem?_getD, List.getElem?_eq_getElem hlt, Option.getD_some]
    rw [hget]

theorem countedEdges_eq (edges : List Edge) (idCol : Edge → Int) (nodeIds : List Int)
    (edgeType : Option CStr) :
    countedEdges edges idCol ((inClause nodeIds.length).count 63)
        (edgeType.filter (· ≠ [])).isSome (bindings nodeIds (edgeType.filter (· ≠ []))) =
      edges.filter fun e => idCol e ∈ nodeIds.take idRoom &&
        ((comparedType nodeIds edgeType).filter (· ≠ [])).all (e.type = ·) := by
  have hcount := (inClause_counts nodeIds.length).2
  refine List.filter_congr fun e _ => ?_
  congr 1
  · rw [Bool.eq_iff_iff, List.any_eq_true, decide_eq_true_iff, List.mem_take_iff_getElem]
    constructor
    · rintro ⟨i, hi, hbound⟩
      rw [List.mem_range, hcount] at hi
      rw [bindings_id nodeIds _ hi, decide_eq_true_iff, SqlValue.int.injEq] at hbound
      have hlt : i < nodeIds.length := by omega
      rw [List.getD_eq_getElem?_getD, List.getElem?_eq_getElem hlt, Option.getD_some] at hbound
      exact ⟨i, by omega, hbound⟩
    · rintro ⟨i, hi, hget⟩
      refine ⟨i, by rw [List.mem_range, hcount]; omega, ?_⟩
      have hlt : i < nodeIds.length := by omega
      rw [bindings_id nodeIds _ (by omega), decide_eq_true_iff, SqlValue.int.injEq,
        List.getD_eq_getElem?_getD, List.getElem?_eq_getElem hlt, Option.getD_some]
      exact hget
  · cases htype : edgeType.filter (· ≠ []) with
    | none =>
        rw [comparedType, htype]
        simp only [Option.isSome_none, Bool.false_eq_true, if_false, htype]
        rfl
    | some type =>
        obtain ⟨hsome, hne⟩ := Option.filter_eq_some_iff.mp htype
        rw [decide_eq_true_iff] at hne
        rw [hsome, ← bindings_type nodeIds hne]
        rfl

end Parameters

section Arrays

variable {edges : List Edge} {idCol : Edge → Int} {nodeIds : List Int} {edgeType : Option CStr}

theorem foldl_storeCount_other {rows : List (Int × Nat)} {i : Nat}
    (hother : ∀ id, nodeIds.findIdx? (· = id) ≠ some i) : ∀ out : List Int,
    (rows.foldl (storeCount nodeIds) out)[i]? = out[i]? := by
  induction rows with
  | nil => exact fun _ => rfl
  | cons row rows ih =>
      intro out
      rw [List.foldl_cons, ih, storeCount]
      split
      · next j hj =>
        have hne : j ≠ i := fun h => hother row.1 (h ▸ hj)
        rw [List.getElem?_set_ne hne]
      · rfl

theorem foldl_storeCount {rows : List (Int × Nat)} (hnodup : (rows.map Prod.fst).Nodup) {i : Nat}
    {id : Int} (hfirst : nodeIds.findIdx? (· = id) = some i) : ∀ out : List Int, i < out.length →
    (rows.foldl (storeCount nodeIds) out)[i]? =
      match rows.find? (·.1 = id) with
      | some row => some (toI32 row.2)
      | none => out[i]? := by
  induction rows with
  | nil => exact fun _ _ => rfl
  | cons row rows ih =>
      intro out hlt
      rw [List.map_cons, List.nodup_cons] at hnodup
      have hrest := ih hnodup.2
      rw [List.foldl_cons, List.find?_cons]
      by_cases hrow : row.1 = id
      · -- no other row is copied to this place
        have hnone : rows.find? (·.1 = id) = none := by
          rw [List.find?_eq_none]
          intro r hr hid
          rw [decide_eq_true_iff] at hid
          exact hnodup.1 (hrow.trans hid.symm ▸ List.mem_map_of_mem hr)
        have hset : storeCount nodeIds out row = out.set i (toI32 row.2) := by
          rw [storeCount, hrow, hfirst]
        rw [hset, hrest _ (by rwa [List.length_set]), hnone, decide_eq_true hrow]
        exact List.getElem?_set_self hlt
      · have hkeep : (storeCount nodeIds out row)[i]? = out[i]? ∧
            (storeCount nodeIds out row).length = out.length := by
          rw [storeCount]
          split
          · next j hj =>
            have hne : j ≠ i := by
              rintro rfl
              obtain ⟨h, hj', -⟩ := List.findIdx?_eq_some_iff_getElem.mp hj
              obtain ⟨h', hi', -⟩ := List.findIdx?_eq_some_iff_getElem.mp hfirst
              rw [decide_eq_true_iff] at hj' hi'
              exact hrow (hj'.symm.trans hi')
            exact ⟨List.getElem?_set_ne hne, List.length_set⟩
          · exact ⟨rfl, rfl⟩
        rw [hrest _ (by rw [hkeep.2]; exact hlt), decide_eq_false hrow, hkeep.1]

theorem nodup_groupCounts (ids : List Int) : ((groupCounts ids).map Prod.fst).Nodup := by
  rw [groupCounts, List.map_map]
  exact (List.nodup_dedup ids).map_on fun _ _ _ _ h => h

theorem find?_groupCounts (ids : List Int) (id : Int) :
    (groupCounts ids).find? (·.1 = id) =
      if id ∈ ids then some (id, ids.count id) else none := by
  rw [groupCounts, List.find?_map]
  split
  · next hmem =>
    cases hfind : ids.dedup.find? ((fun row : Int × Nat => decide (row.1 = id)) ∘
        fun id => (id, ids.count id)) with
    | none =>
        have hne := List.find?_eq_none.mp hfind id (List.mem_dedup.mpr hmem)
        exact absurd (decide_eq_true rfl) hne
    | some id' =>
        have hid : id' = id := of_decide_eq_true (List.find?_some hfind :)
        rw [hid, Option.map_some]
  · next hmem =>
    have hnone : ids.dedup.find? ((fun row : Int × Nat => decide (row.1 = id)) ∘
        fun id => (id, ids.count id)) = none := by
      rw [List.find?_eq_none]
      intro id' hid' heq
      have hid : id' = id := of_decide_eq_true heq
      exact hmem (hid ▸ List.mem_dedup.mp hid')
    rw [hnone, Option.map_none]

theorem count_countedEdges (id : Int) :
    ((countedEdges edges idCol ((inClause nodeIds.length).count 63)
        (edgeType.filter (· ≠ [])).isSome
        (bindings nodeIds (edgeType.filter (· ≠ [])))).map idCol).count id =
      if id ∈ nodeIds.take idRoom then degree edges idCol (comparedType nodeIds edgeType) id
      else 0 := by
  rw [countedEdges_eq, List.count, List.countP_map, List.countP_filter]
  split
  · next hmem =>
    refine List.countP_congr fun e _ => ?_
    simp only [Function.comp_apply, Bool.and_eq_true, beq_iff_eq, decide_eq_true_eq]
    constructor
    · rintro ⟨hid, -, htype⟩
      exact ⟨hid, htype⟩
    · rintro ⟨hid, htype⟩
      exact ⟨hid, hid ▸ hmem, htype⟩
  · next hmem =>
    rw [List.countP_eq_zero]
    intro e _ he
    simp only [Function.comp_apply, Bool.and_eq_true, beq_iff_eq, decide_eq_true_eq] at he
    exact hmem (he.1 ▸ he.2.1)

theorem getElem?_countDegreesDirection {i : Nat} {id : Int} (hid : nodeIds[i]? = some id) :
    (countDegreesDirection edges nodeIds (inClause nodeIds.length) (edgeType.filter (· ≠ []))
        idCol)[i]? =
      some (if id ∉ nodeIds.take i ∧ i < idRoom then
        toI32 (degree edges idCol (comparedType nodeIds edgeType) id) else 0) := by
  obtain ⟨hlt, hget⟩ := List.getElem?_eq_some_iff.mp hid
  have hcount := @count_countedEdges edges idCol nodeIds edgeType id
  set ids := (countedEdges edges idCol ((inClause nodeIds.length).count 63)
    (edgeType.filter (· ≠ [])).isSome (bindings nodeIds (edgeType.filter (· ≠ [])))).map idCol
    with hids
  have hzero : (List.replicate nodeIds.length (0 : Int))[i]? = some 0 := by
    rw [List.getElem?_replicate, if_pos hlt]
  change ((groupCounts ids).foldl (storeCount nodeIds) (List.replicate nodeIds.length 0))[i]? = _
  by_cases hfirst : id ∉ nodeIds.take i
  · have hplace : nodeIds.findIdx? (· = id) = some i := by
      rw [List.findIdx?_eq_some_iff_getElem]
      refine ⟨hlt, decide_eq_true hget, fun j hj hjid => hfirst ?_⟩
      rw [List.mem_take_iff_getElem]
      exact ⟨j, by omega, of_decide_eq_true hjid⟩
    have hroom : id ∈ nodeIds.take idRoom ↔ i < idRoom := by
      constructor
      · intro hmem
        by_contra hge
        exact hfirst ((List.take_subset_take_left nodeIds (by omega)) hmem)
      · intro hi
        rw [List.mem_take_iff_getElem]
        exact ⟨i, by omega, hget⟩
    have hvalue : (match (groupCounts ids).find? (·.1 = id) with
        | some row => some (toI32 row.2)
        | none => (List.replicate nodeIds.length (0 : Int))[i]?) = some (toI32 (ids.count id)) := by
      rw [find?_groupCounts, hzero]
      by_cases hmem : id ∈ ids
      · rw [if_pos hmem]
      · rw [if_neg hmem, List.count_eq_zero.mpr hmem]
        rfl
    rw [foldl_storeCount (nodup_groupCounts ids) hplace _ (by rwa [List.length_replicate]), hvalue,
      hcount]
    by_cases hi : i < idRoom
    · rw [if_pos (hroom.mpr hi), if_pos ⟨hfirst, hi⟩]
    · rw [if_neg (mt hroom.mp hi), if_neg fun h => hi h.2]
      rfl
  · rw [if_neg fun h => hfirst h.1, foldl_storeCount_other _ _, hzero]
    intro id' hplace
    obtain ⟨_, hid', hbefore⟩ := List.findIdx?_eq_some_iff_getElem.mp hplace
    rw [not_not, List.mem_take_iff_getElem] at hfirst
    obtain ⟨j, hj, hjid⟩ := hfirst
    have heq : id = id' := hget.symm.trans (of_decide_eq_true hid')
    exact hbefore j (by omega) (decide_eq_true (hjid.trans heq))

end Arrays

section Main

variable {edges : List Edge} {idCol : Edge → Int} {nodeIds : List Int} {edgeType : Option CStr}

theorem toI32_natCast_eq (c d : Nat) : toI32 c = d ↔ d < 2 ^ 31 ∧ c % 2 ^ 32 = d := by
  rw [toI32]
  omega

theorem getElem?_direction_iff {i : Nat} {id : Int} (hid : nodeIds[i]? = some id) :
    (countDegreesDirection edges nodeIds (inClause nodeIds.length) (edgeType.filter (· ≠ []))
        idCol)[i]? = some (degree edges idCol edgeType id : Int) ↔
      CountFits edges idCol nodeIds edgeType i id := by
  rw [getElem?_countDegreesDirection hid, Option.some.injEq, CountFits]
  split
  · exact toI32_natCast_eq _ _
  · rw [eq_comm, Int.natCast_eq_zero]

/-- The arrays hold the degrees of all nodes exactly if each count of both directions fits. -/
theorem countsDegrees_iff (edges : List Edge) (nodeIds : List Int) (edgeType : Option CStr) :
    CountsDegrees edges nodeIds edgeType ↔ ∀ (i : Nat) (id : Int), nodeIds[i]? = some id →
      CountFits edges Edge.targetId nodeIds edgeType i id ∧
        CountFits edges Edge.sourceId nodeIds edgeType i id := by
  by_cases hnil : nodeIds = []
  · subst hnil
    exact ⟨fun _ i id hid => (by cases hid), fun _ _ _ _ i id hid => (by cases hid)⟩
  · have hresult : ∀ outIn outOut, batchCountDegrees edges nodeIds edgeType = some (outIn, outOut) ↔
        countDegreesDirection edges nodeIds (inClause nodeIds.length) (edgeType.filter (· ≠ []))
            Edge.targetId = outIn ∧
          countDegreesDirection edges nodeIds (inClause nodeIds.length) (edgeType.filter (· ≠ []))
            Edge.sourceId = outOut := by
      intro outIn outOut
      rw [batchCountDegrees, if_neg hnil, Option.some.injEq, Prod.mk.injEq]
    constructor
    · intro h i id hid
      have hboth := h _ _ ((hresult _ _).mpr ⟨rfl, rfl⟩) i id hid
      exact ⟨(getElem?_direction_iff hid).mp hboth.1, (getElem?_direction_iff hid).mp hboth.2⟩
    · intro h outIn outOut hrun i id hid
      obtain ⟨rfl, rfl⟩ := (hresult _ _).mp hrun
      have hboth := h i id hid
      exact ⟨(getElem?_direction_iff hid).mpr hboth.1, (getElem?_direction_iff hid).mpr hboth.2⟩

/-- The second of two equal ids gets no count. -/
theorem not_countsDegrees_repeated :
    ¬ CountsDegrees [⟨1, 1, 2, bytesOf "CALLS", none⟩] [2, 2] none := by
  intro h
  have hrun := (h [1, 0] [0, 0] (by decide) 1 2 rfl).1
  revert hrun
  decide

end Main

end Query
end CodebaseMemory
