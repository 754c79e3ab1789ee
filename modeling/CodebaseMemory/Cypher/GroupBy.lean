import CodebaseMemory.Cypher.Groups

/-!
# Aggregation as grouping by values

What an aggregation is for: one row for each tuple of values of the items that are
no aggregates, with that tuple and the counts of its bindings.  The clauses group
by a key instead, a text of limited length in which the values are joined by a
separator and functions have no part, and they show values of limited length.
-/

namespace CodebaseMemory
namespace Cypher

open Lib
open Sqlite (CStr bytesOf)

section Values

variable (lib : Libc)
variable (store : Option Store)

/-- The values of the items that are no aggregates. -/
def tuple (items : List ItemExpr) (b : Binding) : List CStr :=
  (items.filter fun e => !e.isAggregate).map fun e => fullValue lib store e b

/-- A cell is what the item stands for over the bindings of a tuple. -/
def CellShows (members : List Binding) (e : ItemExpr) (cell : CStr) : Prop :=
  match e with
  | .aggregate .count false _ _ => cell = decimal members.length
  | .aggregate .count true var property =>
      cell = decimal (members.map fun b => bindingGetVirtual store b var property).toFinset.card
  | .aggregate _ _ _ _ => True
  | e => ∀ b ∈ members, cell = fullValue lib store e b

/-- The rows are in one-to-one correspondence with the tuples, and each shows its
tuple and its counts. -/
def GroupsByValue (items : List ItemExpr) (bindings : List Binding) (rows : List (List CStr)) :
    Prop :=
  ∃ tuples : List (List CStr),
    tuples.Nodup ∧
    (∀ t, t ∈ tuples ↔ ∃ b ∈ bindings, tuple lib store items b = t) ∧
    List.Forall₂
      (fun t row => List.Forall₂
        (CellShows lib store (bindings.filter fun b => tuple lib store items b = t)) items row)
      tuples rows

/-- A binding that a clause with room for `room` items, with a key and with a
condition on the values it shows, groups by value. -/
structure Grouped (room : Nat) (key : Binding → CStr) (shown : ItemExpr → CStr → Prop)
    (items : List ItemExpr) (bindings : List Binding) (b : Binding) : Prop where
  items_le : items.length ≤ room
  canLookUp : ∀ e ∈ items, e.canLookUp b = true
  /-- the values of properties and of CASE are shown -/
  value : ∀ e ∈ items, e.hasFunc = false → shown e (fullValue lib store e b)
  /-- a function that is no aggregate happens to be the number of bindings -/
  scalar : ∀ e ∈ items, e.hasFunc = true → e.isAggregate = false →
    fullValue lib store e b =
      decimal (bindings.filter fun b' => tuple lib store items b' = tuple lib store items b).length
  /-- the key tells the tuple from others -/
  tells : ∀ b' ∈ bindings, key b = key b' → tuple lib store items b = tuple lib store items b'

variable {e : ItemExpr}
variable {bindings members : List Binding}
variable {b : Binding}
variable {items : List ItemExpr}

theorem fullValue_of_tuple_eq {b' : Binding}
    (heq : tuple lib store items b = tuple lib store items b') (he : e ∈ items)
    (hagg : e.isAggregate = false) : fullValue lib store e b = fullValue lib store e b' := by
  refine List.map_inj_left.mp heq e ?_
  exact List.mem_filter.mpr ⟨he, by simp [hagg]⟩

theorem isAggregate_of_hasFunc (hfunc : e.hasFunc = false) : e.isAggregate = false := by
  cases e with
  | aggregate func distinct var property => exact absurd hfunc (by simp [ItemExpr.hasFunc])
  | _ => rfl

theorem cellShows_of_not_aggregate {cell : CStr} (hagg : e.isAggregate = false) :
    CellShows lib store members e cell ↔ ∀ b ∈ members, cell = fullValue lib store e b := by
  cases e with
  | aggregate func distinct var property => exact absurd hagg (by simp [ItemExpr.isAggregate])
  | _ => exact Iff.rfl

theorem cellShows_of_aggregate (hlen : members.length < 2 ^ 31) {cell : CStr}
    (hagg : e.isAggregate = true)
    (hcell : e.isCollect = false → cell = withAggCell lib store e members) :
    CellShows lib store members e cell := by
  cases e with
  | aggregate func distinct var property =>
      cases func with
      | count =>
          have hcell := hcell rfl
          cases distinct with
          | false => exact hcell.trans (withAggCell_count lib store hlen var property)
          | true => exact hcell.trans (withAggCell_distinct lib store hlen var property)
      | _ => exact trivial
  | _ => exact absurd hagg (by simp [ItemExpr.isAggregate])

theorem exists_of_forall₂ {α β : Type} {R : α → β → Prop} {l : List α} {l' : List β}
    (h : List.Forall₂ R l l') {a : α} (ha : a ∈ l) : ∃ b ∈ l', R a b := by
  induction h with
  | nil => exact absurd ha List.not_mem_nil
  | cons hab _ ih =>
      rcases List.mem_cons.mp ha with rfl | ha
      · exact ⟨_, List.mem_cons_self, hab⟩
      · obtain ⟨b, hb, hR⟩ := ih ha
        exact ⟨b, List.mem_cons_of_mem _ hb, hR⟩

section Key

variable {value : ItemExpr → Binding → CStr}
variable {cell : ItemExpr → List Binding → CStr}
variable {cut : ItemExpr → CStr → CStr}
variable {items : List ItemExpr}
variable {bindings : List Binding}

def keyRow (value : ItemExpr → Binding → CStr) (cell : ItemExpr → List Binding → CStr)
    (items : List ItemExpr) (bindings : List Binding) (first : Binding) : List CStr :=
  items.map fun e =>
    if e.hasFunc then cell e (sharing (buildKey value items) bindings first) else value e first

def KeyTells (value : ItemExpr → Binding → CStr) (items : List ItemExpr)
    (bindings : List Binding) : Prop :=
  ∀ b ∈ bindings, ∀ b' ∈ bindings, buildKey value items b = buildKey value items b' →
    tuple lib store items b = tuple lib store items b'

theorem buildKey_of_tuple_eq (hvalue : ∀ e ∈ items, e.hasFunc = false → ∀ b ∈ bindings,
      value e b = cut e (fullValue lib store e b)) {b' : Binding} (hb : b ∈ bindings)
    (hb' : b' ∈ bindings) (heq : tuple lib store items b = tuple lib store items b') :
    buildKey value items b = buildKey value items b' := by
  apply buildKey_congr
  intro e he hfunc
  rw [hvalue e he hfunc b hb, hvalue e he hfunc b' hb',
    fullValue_of_tuple_eq lib store heq he (isAggregate_of_hasFunc hfunc)]

theorem length_sharing_lt (hlen : bindings.length < 2 ^ 31) (first : Binding) :
    (sharing (buildKey value items) bindings first).length < 2 ^ 31 :=
  lt_of_le_of_lt (List.length_filter_le _ _) hlen

theorem sharing_eq (hvalue : ∀ e ∈ items, e.hasFunc = false → ∀ b ∈ bindings,
      value e b = cut e (fullValue lib store e b))
    (htells : KeyTells lib store value items bindings) (hb : b ∈ bindings) :
    sharing (buildKey value items) bindings b =
      bindings.filter fun b' => tuple lib store items b' = tuple lib store items b := by
  apply List.filter_congr
  intro b' hb'
  rw [decide_eq_decide]
  constructor
  · exact htells b' hb' b hb
  · exact buildKey_of_tuple_eq lib store hvalue hb' hb

/-! The hypotheses of the two directions: values are cut, and cells are those of WITH
except for COLLECT. -/

section Directions

variable (hlen : bindings.length < 2 ^ 31)
variable (hvalue : ∀ e ∈ items, e.hasFunc = false → ∀ b ∈ bindings,
  value e b = cut e (fullValue lib store e b))
variable (hcell : ∀ e members, e.isCollect = false →
  cell e members = withAggCell lib store e members)

include hcell in
theorem cell_scalar (hagg : e.isAggregate = false) (hmembers : members.length < 2 ^ 31) :
    cell e members = decimal members.length := by
  have hcollect : e.isCollect = false := by
    cases e with
    | aggregate func distinct var property => exact absurd hagg (by simp [ItemExpr.isAggregate])
    | _ => rfl
  rw [hcell e members hcollect, withAggCell_scalar lib store hmembers hagg]

include hlen hvalue hcell in
theorem keyRow_shows {first : Binding} (hfirst : first ∈ bindings)
    (htells : KeyTells lib store value items bindings)
    (hfixed : ∀ e ∈ items, e.hasFunc = false →
      cut e (fullValue lib store e first) = fullValue lib store e first)
    (hcount : ∀ e ∈ items, e.hasFunc = true → e.isAggregate = false →
      fullValue lib store e first = decimal (bindings.filter fun b' =>
        tuple lib store items b' = tuple lib store items first).length) :
    List.Forall₂ (CellShows lib store (bindings.filter fun b' =>
      tuple lib store items b' = tuple lib store items first)) items
        (keyRow value cell items bindings first) := by
  have hmembers : (bindings.filter fun b' => tuple lib store items b' =
      tuple lib store items first).length < 2 ^ 31 :=
    lt_of_le_of_lt (List.length_filter_le _ _) hlen
  rw [keyRow, List.forall₂_map_right_iff, List.forall₂_same,
    sharing_eq lib store hvalue htells hfirst]
  intro e he
  by_cases hagg : e.isAggregate = true
  · have hfunc : e.hasFunc = true := by
      by_contra hfunc
      rw [isAggregate_of_hasFunc (by simpa using hfunc)] at hagg
      exact absurd hagg (by simp)
    rw [if_pos hfunc]
    exact cellShows_of_aggregate lib store hmembers hagg (hcell e _)
  · have hagg : e.isAggregate = false := by simpa using hagg
    rw [cellShows_of_not_aggregate lib store hagg]
    intro b hb
    have htuple := of_decide_eq_true (List.mem_filter.mp hb).2
    rw [fullValue_of_tuple_eq lib store htuple he hagg]
    by_cases hfunc : e.hasFunc = true
    · rw [if_pos hfunc, cell_scalar lib store hcell hagg hmembers, hcount e he hfunc hagg]
    · have hfunc : e.hasFunc = false := by simpa using hfunc
      rw [if_neg (by simp [hfunc]), hvalue e he hfunc first hfirst, hfixed e he hfunc]

include hlen hvalue hcell in
theorem groupsByValue_of_tells
    (htells : KeyTells lib store value items bindings)
    (hfixed : ∀ b ∈ bindings, ∀ e ∈ items, e.hasFunc = false →
      cut e (fullValue lib store e b) = fullValue lib store e b)
    (hcount : ∀ b ∈ bindings, ∀ e ∈ items, e.hasFunc = true → e.isAggregate = false →
      fullValue lib store e b = decimal (bindings.filter fun b' =>
        tuple lib store items b' = tuple lib store items b).length) :
    GroupsByValue lib store items bindings
      ((firsts (buildKey value items) bindings).map (keyRow value cell items bindings)) := by
  refine ⟨(firsts (buildKey value items) bindings).map (tuple lib store items), ?_, ?_, ?_⟩
  · have hnodup := nodup_keys_firsts (buildKey value items) bindings
    rw [List.Nodup, List.pairwise_map] at hnodup ⊢
    refine hnodup.imp_of_mem ?_
    intro b b' hb hb' hne heq
    exact hne (buildKey_of_tuple_eq lib store hvalue (mem_of_mem_firsts _ hb)
      (mem_of_mem_firsts _ hb') heq)
  · intro t
    rw [List.mem_map]
    constructor
    · rintro ⟨b, hb, ht⟩
      exact ⟨b, mem_of_mem_firsts _ hb, ht⟩
    · rintro ⟨b, hb, rfl⟩
      obtain ⟨first, hfirst, hkey⟩ := exists_mem_firsts (buildKey value items) hb
      exact ⟨first, hfirst, htells first (mem_of_mem_firsts _ hfirst) b hb hkey⟩
  · rw [List.forall₂_map_left_iff, List.forall₂_map_right_iff, List.forall₂_same]
    intro first hfirst
    have hfirst := mem_of_mem_firsts _ hfirst
    exact keyRow_shows lib store hlen hvalue hcell hfirst htells (hfixed first hfirst)
      (hcount first hfirst)

include hvalue in
theorem tells_of_groupsByValue
    (hgroups : GroupsByValue lib store items bindings
      ((firsts (buildKey value items) bindings).map (keyRow value cell items bindings))) :
    KeyTells lib store value items bindings := by
  intro b hb b' hb' hkey
  obtain ⟨tuples, -, hmem, hrows⟩ := hgroups
  rw [List.forall₂_map_right_iff] at hrows
  exact eq_of_key_eq (buildKey value items)
    (fun x hx y hy => buildKey_of_tuple_eq lib store hvalue hx hy) hmem hrows.length_eq hb hb' hkey

include hvalue in
theorem exists_keyRow_of_groupsByValue (hgroups : GroupsByValue lib store items bindings
      ((firsts (buildKey value items) bindings).map (keyRow value cell items bindings)))
    (hcut : ∀ e v, cut e (cut e v) = cut e v) (hb : b ∈ bindings) :
    ∃ first ∈ bindings, buildKey value items first = buildKey value items b ∧
      (∀ e ∈ items, e.hasFunc = false →
        cut e (fullValue lib store e b) = fullValue lib store e b) ∧
      ∀ e ∈ items, e.hasFunc = true → e.isAggregate = false →
        cell e (sharing (buildKey value items) bindings first) = fullValue lib store e b := by
  obtain ⟨tuples, -, hmem, hrows⟩ := hgroups
  rw [List.forall₂_map_right_iff] at hrows
  obtain ⟨first, hfirst, hrow⟩ := exists_of_forall₂ hrows ((hmem _).mpr ⟨b, hb, rfl⟩)
  have hfirst := mem_of_mem_firsts _ hfirst
  have hself : b ∈ bindings.filter fun b' =>
      tuple lib store items b' = tuple lib store items b :=
    List.mem_filter.mpr ⟨hb, decide_eq_true rfl⟩
  rw [keyRow, List.forall₂_map_right_iff, List.forall₂_same] at hrow
  have hshown : ∀ e ∈ items, e.hasFunc = false → value e first = fullValue lib store e b := by
    intro e he hfunc
    have hshows := hrow e he
    rw [if_neg (by simp [hfunc]),
      cellShows_of_not_aggregate lib store (isAggregate_of_hasFunc hfunc)] at hshows
    exact hshows b hself
  have hfixed : ∀ e ∈ items, e.hasFunc = false →
      cut e (fullValue lib store e b) = fullValue lib store e b := by
    intro e he hfunc
    rw [← hshown e he hfunc, hvalue e he hfunc first hfirst, hcut]
  refine ⟨first, hfirst, ?_, hfixed, ?_⟩
  · apply buildKey_congr
    intro e he hfunc
    rw [hshown e he hfunc, hvalue e he hfunc b hb, hfixed e he hfunc]
  · intro e he hfunc hagg
    have hshows := hrow e he
    rw [if_pos hfunc, cellShows_of_not_aggregate lib store hagg] at hshows
    exact hshows b hself

include hlen hvalue hcell in
theorem groupsByValue_iff (hcut : ∀ e v, cut e (cut e v) = cut e v) :
    GroupsByValue lib store items bindings
        ((firsts (buildKey value items) bindings).map (keyRow value cell items bindings)) ↔
      ∀ b ∈ bindings,
        (∀ e ∈ items, e.hasFunc = false →
          cut e (fullValue lib store e b) = fullValue lib store e b) ∧
        (∀ e ∈ items, e.hasFunc = true → e.isAggregate = false →
          fullValue lib store e b = decimal (bindings.filter fun b' =>
            tuple lib store items b' = tuple lib store items b).length) ∧
        ∀ b' ∈ bindings, buildKey value items b = buildKey value items b' →
          tuple lib store items b = tuple lib store items b' := by
  constructor
  · intro hgroups b hb
    have htells := tells_of_groupsByValue lib store hvalue hgroups
    obtain ⟨first, hfirst, hkey, hfixed, hscalar⟩ :=
      exists_keyRow_of_groupsByValue lib store hvalue hgroups hcut hb
    refine ⟨hfixed, ?_, htells b hb⟩
    intro e he hfunc hagg
    rw [← hscalar e he hfunc hagg, cell_scalar lib store hcell hagg (length_sharing_lt hlen first),
      sharing_eq lib store hvalue htells hfirst, htells first hfirst b hb hkey]
  · intro hgrouped
    exact groupsByValue_of_tells lib store hlen hvalue hcell (fun b hb => (hgrouped b hb).2.2)
      (fun b hb => (hgrouped b hb).1) (fun b hb => (hgrouped b hb).2.1)

end Directions

end Key

def Binding.values (b : Binding) : List CStr :=
  b.vars.map fun v => v.2.name.getD []

def ReturnGroups (items : List ReturnItem) (bindings : List Binding) : Prop :=
  ∃ rows, executeReturnAgg lib store items bindings = some rows ∧
    GroupsByValue lib store (items.map ReturnItem.expr) bindings rows

def WithGroups (items : List ReturnItem) (bindings : List Binding) : Prop :=
  ∃ vbindings, executeWithAggregate lib store items bindings = some vbindings ∧
    GroupsByValue lib store (items.map ReturnItem.expr) bindings (vbindings.map Binding.values)

theorem returnGroups_iff {items : List ReturnItem} (hlen : bindings.length < 2 ^ 31) :
    ReturnGroups lib store items bindings ↔
      ∀ b ∈ bindings, Grouped lib store maxItems
        (buildKey (retAggValue lib store) (items.map ReturnItem.expr))
        (fun _ v => v.length ≤ valueRoom) (items.map ReturnItem.expr) bindings b := by
  have hvalue : ∀ e ∈ items.map ReturnItem.expr, e.hasFunc = false → ∀ b ∈ bindings,
      retAggValue lib store e b = (fullValue lib store e b).take valueRoom :=
    fun e _ hfunc b _ => retAggValue_eq lib store hfunc b
  have hrows := groupsByValue_iff lib store hlen hvalue
    (fun e members hcollect => retAggCell_eq lib store hcollect members)
    (fun e v => by rw [List.take_take, Nat.min_self])
  have hdefined : ∀ {rows}, executeReturnAgg lib store items bindings = some rows ↔
      (∀ b ∈ bindings, items.length ≤ maxItems ∧
        ∀ e ∈ items.map ReturnItem.expr, e.canLookUp b = true) ∧
      retAggRows lib store (items.map ReturnItem.expr) bindings = rows := by
    intro rows
    rw [executeReturnAgg]
    simp only [Option.ite_none_right_eq_some, List.all_eq_true, Bool.and_eq_true,
      decide_eq_true_eq, Option.some.injEq]
  constructor
  · rintro ⟨rows, hexec, hgroups⟩
    obtain ⟨hroom, rfl⟩ := hdefined.mp hexec
    rw [retAggRows_eq] at hgroups
    intro b hb
    obtain ⟨hfixed, hscalar, htells⟩ := hrows.mp hgroups b hb
    exact {
      items_le := by
        rw [List.length_map]
        exact (hroom b hb).1
      canLookUp := (hroom b hb).2
      value := fun e he hfunc => List.take_eq_self_iff _ |>.mp (hfixed e he hfunc)
      scalar := hscalar
      tells := htells }
  · intro hgrouped
    refine ⟨_, hdefined.mpr ⟨fun b hb => ⟨?_, (hgrouped b hb).canLookUp⟩, rfl⟩, ?_⟩
    · have hle := (hgrouped b hb).items_le
      rwa [List.length_map] at hle
    · rw [retAggRows_eq]
      refine hrows.mpr fun b hb => ⟨?_, (hgrouped b hb).scalar, (hgrouped b hb).tells⟩
      intro e he hfunc
      exact List.take_of_length_le ((hgrouped b hb).value e he hfunc)

theorem values_withBinding {items : List ReturnItem} {row : List CStr}
    (hlen : row.length = items.length) :
    (withBinding items row).values = row.take cypMaxVars := by
  have hzip : ∀ (items : List ReturnItem) (row : List CStr), row.length = items.length →
      (List.zipWith (fun item value =>
        (resolveItemAlias item, virtualNode (resolveItemAlias item) value)) items row).map
          (fun v => v.2.name.getD []) = row := by
    intro items
    induction items with
    | nil =>
        intro row hlen
        rw [List.length_eq_zero_iff.mp hlen]
        rfl
    | cons item items ih =>
        intro row hlen
        cases row with
        | nil => exact absurd hlen (by simp)
        | cons value row =>
            rw [List.zipWith_cons_cons, List.map_cons, ih row (by simpa using hlen)]
            rfl
  rw [Binding.values, withBinding, List.map_take, hzip items row hlen]

theorem map_values_withBinding (items : List ReturnItem) (bindings : List Binding) :
    ((withAggRows lib store (items.map ReturnItem.expr) bindings).map (withBinding items)).map
        Binding.values =
      (withAggRows lib store (items.map ReturnItem.expr) bindings).map (List.take cypMaxVars) := by
  rw [List.map_map]
  apply List.map_congr_left
  intro row hrow
  have hlen := (length_of_mem_withAggRows lib store hrow).1
  rw [List.length_map] at hlen
  exact values_withBinding hlen

theorem map_take_withAggRows (hroom : ∀ b ∈ bindings, items.length ≤ cypMaxVars) :
    (withAggRows lib store items bindings).map (List.take cypMaxVars) =
      withAggRows lib store items bindings := by
  rw [List.map_congr_left (g := id), List.map_id]
  intro row hrow
  obtain ⟨hlen, hne⟩ := length_of_mem_withAggRows lib store hrow
  obtain ⟨b, hb⟩ := List.exists_mem_of_ne_nil bindings hne
  exact List.take_of_length_le (hlen ▸ hroom b hb)

theorem length_le_of_groupsByValue {rows : List (List CStr)} {room : Nat}
    (hgroups : GroupsByValue lib store items bindings (rows.map (List.take room)))
    (hb : b ∈ bindings) : items.length ≤ room := by
  obtain ⟨tuples, -, hmem, hrows⟩ := hgroups
  obtain ⟨row, hrow, hshows⟩ := exists_of_forall₂ hrows ((hmem _).mpr ⟨b, hb, rfl⟩)
  obtain ⟨row, -, rfl⟩ := List.mem_map.mp hrow
  rw [hshows.length_eq]
  exact List.length_take_le room row

theorem withGroups_iff {items : List ReturnItem} (hlen : bindings.length < 2 ^ 31)
    (hcase : ∀ b ∈ bindings, CaseFree b) :
    WithGroups lib store items bindings ↔
      ∀ b ∈ bindings, Grouped lib store cypMaxVars
        (buildKey (fun e b => e.virtual store b) (items.map ReturnItem.expr))
        (fun e v => withShown e v = v) (items.map ReturnItem.expr) bindings b := by
  have hvalue : ∀ e ∈ items.map ReturnItem.expr, e.hasFunc = false → ∀ b ∈ bindings,
      e.virtual store b = withShown e (fullValue lib store e b) :=
    fun e _ hfunc b hb => virtual_eq lib store hfunc (hcase b hb)
  have hrows := groupsByValue_iff lib store hlen hvalue (fun e members _ => rfl)
    (fun e v => by cases e <;> rfl)
  have hdefined : ∀ {vbindings}, executeWithAggregate lib store items bindings = some vbindings ↔
      (∀ b ∈ bindings, ∀ e ∈ items.map ReturnItem.expr, e.canLookUp b = true) ∧
      (withAggRows lib store (items.map ReturnItem.expr) bindings).map (withBinding items) =
        vbindings := by
    intro vbindings
    rw [executeWithAggregate]
    simp only [Option.ite_none_right_eq_some, List.all_eq_true, Option.some.injEq]
  constructor
  · rintro ⟨vbindings, hexec, hgroups⟩
    obtain ⟨hlookup, rfl⟩ := hdefined.mp hexec
    rw [map_values_withBinding] at hgroups
    have hroom : ∀ b ∈ bindings, (items.map ReturnItem.expr).length ≤ cypMaxVars :=
      fun b hb => length_le_of_groupsByValue lib store hgroups hb
    rw [map_take_withAggRows lib store hroom, withAggRows_eq] at hgroups
    intro b hb
    obtain ⟨hfixed, hscalar, htells⟩ := hrows.mp hgroups b hb
    exact {
      items_le := hroom b hb
      canLookUp := hlookup b hb
      value := hfixed
      scalar := hscalar
      tells := htells }
  · intro hgrouped
    refine ⟨_, hdefined.mpr ⟨fun b hb => (hgrouped b hb).canLookUp, rfl⟩, ?_⟩
    rw [map_values_withBinding,
      map_take_withAggRows lib store fun b hb => (hgrouped b hb).items_le, withAggRows_eq]
    exact hrows.mpr fun b hb =>
      ⟨(hgrouped b hb).value, (hgrouped b hb).scalar, (hgrouped b hb).tells⟩

/-- RETURN groups by value if and only if it has room for the items, all variables
can be looked up, values are at most 511 bytes long, functions that are no
aggregates happen to be the number of bindings, and the keys tell the tuples apart;
so does WITH, where CASE is to be empty and values may be longer. -/
theorem group_by_iff (items : List ReturnItem) (bindings : List Binding)
    (hlen : bindings.length < 2 ^ 31) (hcase : ∀ b ∈ bindings, CaseFree b) :
    (ReturnGroups lib store items bindings ↔
      ∀ b ∈ bindings, Grouped lib store maxItems
        (buildKey (retAggValue lib store) (items.map ReturnItem.expr))
        (fun _ v => v.length ≤ valueRoom) (items.map ReturnItem.expr) bindings b) ∧
    (WithGroups lib store items bindings ↔
      ∀ b ∈ bindings, Grouped lib store cypMaxVars
        (buildKey (fun e b => e.virtual store b) (items.map ReturnItem.expr))
        (fun e v => withShown e v = v) (items.map ReturnItem.expr) bindings b) :=
  ⟨returnGroups_iff lib store hlen, withGroups_iff lib store hlen hcase⟩

instance {room : Nat} {key : Binding → CStr} {shown : ItemExpr → CStr → Prop}
    [∀ e v, Decidable (shown e v)] {items : List ItemExpr} {bindings : List Binding}
    {b : Binding} : Decidable (Grouped lib store room key shown items bindings b) :=
  decidable_of_iff
    (items.length ≤ room ∧ (∀ e ∈ items, e.canLookUp b = true) ∧
      (∀ e ∈ items, e.hasFunc = false → shown e (fullValue lib store e b)) ∧
      (∀ e ∈ items, e.hasFunc = true → e.isAggregate = false →
        fullValue lib store e b = decimal (bindings.filter fun b' =>
          tuple lib store items b' = tuple lib store items b).length) ∧
      ∀ b' ∈ bindings, key b = key b' → tuple lib store items b = tuple lib store items b')
    ⟨fun ⟨hle, hlookup, hvalue, hscalar, htells⟩ => ⟨hle, hlookup, hvalue, hscalar, htells⟩,
      fun ⟨hle, hlookup, hvalue, hscalar, htells⟩ => ⟨hle, hlookup, hvalue, hscalar, htells⟩⟩

end Values

/-- `toLower(n.name)`. -/
def lowerNameOfN : ReturnItem where
  expr := .string .toLower (bytesOf "n") (some (bytesOf "name"))
  itemAlias := none

/-- Names without a separator are grouped by value. -/
theorem group_by_names :
    let bindings := [functionIn (bytesOf "Open") (bytesOf "io"),
      functionIn (bytesOf "Close") (bytesOf "io"), functionIn (bytesOf "Open") (bytesOf "os")]
    ReturnGroups Libc.whole none [nameOfN, countN] bindings ∧
      WithGroups Libc.whole none [nameOfN, countN] bindings := by
  intro bindings
  have hiff := group_by_iff Libc.whole none [nameOfN, countN] bindings (by decide)
    (by decide +kernel)
  exact ⟨hiff.1.mpr (by decide +kernel), hiff.2.mpr (by decide +kernel)⟩

/-- `RETURN toLower(n.name), COUNT(n)` has one row for two names, and shows their
number in place of the name. -/
theorem not_group_by :
    ¬ ∀ (lib : Libc) (store : Option Store) (items : List ReturnItem) (bindings : List Binding),
      (items.any fun item => item.expr.isAggregate) = true → bindings.length < 2 ^ 31 →
      (∀ b ∈ bindings, CaseFree b) →
      ReturnGroups lib store items bindings ∧ WithGroups lib store items bindings := by
  intro hall
  have hgroups := (hall Libc.whole none [lowerNameOfN, countN]
    [functionIn (bytesOf "Open") (bytesOf "io"), functionIn (bytesOf "Close") (bytesOf "io")] rfl
    (by decide) (by decide +kernel)).1
  have hgrouped := (returnGroups_iff Libc.whole none (by decide)).mp hgroups
  exact absurd hgrouped (by decide +kernel)

example : executeReturnAgg Libc.whole none [lowerNameOfN, countN]
    [functionIn (bytesOf "Open") (bytesOf "io"), functionIn (bytesOf "Close") (bytesOf "io")] =
      some [[bytesOf "2", bytesOf "2"]] := by decide +kernel

-- a separator in a value
example :
    let items := [ItemExpr.plain (bytesOf "n") (some (bytesOf "name")),
      ItemExpr.plain (bytesOf "n") (some (bytesOf "file_path"))]
    buildKey (fun e b => e.virtual none b) items (functionIn (bytesOf "a|") (bytesOf "b")) =
      buildKey (fun e b => e.virtual none b) items (functionIn (bytesOf "a") (bytesOf "|b")) := by
  decide +kernel

end Cypher
end CodebaseMemory
