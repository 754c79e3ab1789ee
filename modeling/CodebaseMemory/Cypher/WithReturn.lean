import CodebaseMemory.Cypher.Groups

/-!
# WITH against RETURN

Items can be returned, or they can be given names by WITH and the names returned.
The clauses have a copy each of the code for this, and the copies differ: WITH does
not know COLLECT and CASE when it groups, its keys are made of whole values, and a
row of RETURN can lose a value to a later read of the row.
-/

namespace CodebaseMemory
namespace Cypher

open Lib
open Sqlite (CStr bytesOf)

/-- RETURN of the names that WITH gives. -/
def returnAliases (items : List ReturnItem) : List ReturnItem :=
  items.map fun item => { expr := .plain (resolveItemAlias item) none, itemAlias := none }

def withThenReturn (lib : Libc) (store : Option Store) (items : List ReturnItem)
    (bindings : List Binding) (maxRows : Nat) : Option (List (List CStr)) :=
  (executeWithClause lib store items bindings).bind fun vbindings =>
    executeReturnClause lib none (returnAliases items) vbindings maxRows

/-- The names differ in what a look-up compares. -/
def NamesDiffer (items : List ReturnItem) : Prop :=
  (items.map fun item => (resolveItemAlias item).take nameRoom).Nodup

instance (items : List ReturnItem) : Decidable (NamesDiffer items) :=
  inferInstanceAs (Decidable (List.Nodup _))

def pairBinding (pairs : List (CStr × CStr)) : Binding where
  vars := pairs.map fun p => (p.1, virtualNode p.1 p.2)
  edgeVars := []

theorem withBinding_eq {items : List ReturnItem} {row : List CStr}
    (hitems : items.length ≤ cypMaxVars) :
    withBinding items row = pairBinding ((items.map resolveItemAlias).zip row) := by
  have hlen : (List.zipWith (fun item value =>
      (resolveItemAlias item, virtualNode (resolveItemAlias item) value)) items row).length ≤
        cypMaxVars := by
    rw [List.length_zipWith]
    exact le_trans (Nat.min_le_left _ _) hitems
  rw [withBinding, pairBinding, List.take_of_length_le hlen, List.zip_map_left, List.map_map,
    List.zip, List.map_zipWith]
  rfl

theorem bindingGetVirtual_pairBinding {pairs : List (CStr × CStr)}
    (hnodup : (pairs.map fun p => p.1.take nameRoom).Nodup) {p : CStr × CStr} (hp : p ∈ pairs) :
    bindingGetVirtual none (pairBinding pairs) p.1 none = p.2 := by
  have hcut : ∀ q ∈ pairs, q.1.take nameRoom = p.1.take nameRoom → q = p :=
    fun q hq heq => List.inj_on_of_nodup_map hnodup hq hp heq
  have hnames : ((pairBinding pairs).vars.map Prod.fst).Nodup := by
    rw [pairBinding, List.map_map]
    refine List.Nodup.of_map (List.take nameRoom) ?_
    rw [List.map_map]
    exact hnodup
  have hwhole : bindingGet (pairBinding pairs) p.1 = some (virtualNode p.1 p.2) :=
    slot_of_mem hnames (List.mem_map_of_mem (f := fun p => (p.1, virtualNode p.1 p.2)) hp)
  rw [bindingGetVirtual]
  cases hget : bindingGet (pairBinding pairs) ((fullName p.1 none).take nameRoom) with
  | none =>
      rw [hwhole]
      rfl
  | some n =>
      obtain ⟨q, hq, heq⟩ := List.mem_map.mp (mem_of_slot hget)
      obtain ⟨hname, rfl⟩ := Prod.mk.inj heq
      have hqp : q = p := by
        apply hcut q hq
        rw [hname, fullName, List.take_take, Nat.min_self]
      rw [hqp]
      rfl

section Rows

variable (lib : Libc)
variable (store : Option Store)

theorem returnRow_plain (b : Binding) (names : List CStr) :
    returnRow lib store b (names.map fun name => .plain name none) =
      names.map fun name => (bindingGetVirtual store b name none).take valueRoom := by
  induction names with
  | nil => rfl
  | cons name names ih =>
      have hreads : virtualReads store b name none = [] := by
        unfold virtualReads
        cases bindingGet b ((fullName name none).take nameRoom) with
        | none => rfl
        | some n => rfl
      have hheld : held store (.plain name none) b = none := by
        simp only [held, heldVirtual, hreads, ite_self]
      rw [List.map_cons, List.map_cons, returnRow, hheld, ih]
      rfl

theorem returnRow_aliases {items : List ReturnItem} {row : List CStr}
    (hitems : items.length ≤ cypMaxVars) (hnames : NamesDiffer items)
    (hlen : row.length = items.length) :
    returnRow lib none (withBinding items row) ((returnAliases items).map ReturnItem.expr) =
      row.map (List.take valueRoom) := by
  have hfst : ((items.map resolveItemAlias).zip row).map Prod.fst =
      items.map resolveItemAlias :=
    List.map_fst_zip (by rw [List.length_map, hlen])
  have hsnd : ((items.map resolveItemAlias).zip row).map Prod.snd = row :=
    List.map_snd_zip (by rw [List.length_map, hlen])
  have hexprs : (returnAliases items).map ReturnItem.expr =
      (items.map resolveItemAlias).map fun name => .plain name none := by
    rw [returnAliases, List.map_map, List.map_map]
    rfl
  have hnodup : (((items.map resolveItemAlias).zip row).map fun p => p.1.take nameRoom).Nodup := by
    have hcut : ((items.map resolveItemAlias).zip row).map (fun p => p.1.take nameRoom) =
        (((items.map resolveItemAlias).zip row).map Prod.fst).map (List.take nameRoom) := by
      rw [List.map_map]
      rfl
    rw [hcut, hfst, List.map_map]
    exact hnames
  rw [hexprs, withBinding_eq hitems, returnRow_plain]
  conv =>
    lhs
    arg 2
    rw [← hfst]
  conv =>
    rhs
    arg 2
    rw [← hsnd]
  rw [List.map_map, List.map_map]
  apply List.map_congr_left
  intro p hp
  exact congrArg (List.take valueRoom) (bindingGetVirtual_pairBinding hnodup hp)

variable {items : List ReturnItem}
variable {bindings : List Binding}
variable {maxRows : Nat}

theorem rbApplyLimit_take {α : Type} (hmax : 0 < maxRows) (l : List α) (f : α → List CStr) :
    rbApplyLimit maxRows ((l.take maxRows).map f) = (l.take maxRows).map f := by
  rw [rbApplyLimit, if_pos hmax, List.map_take, List.take_take, Nat.min_self]

theorem executeReturnClause_simple (hmax : 0 < maxRows) (hitems : items.length ≤ cypMaxVars)
    (hagg : (items.any fun item => item.expr.isAggregate) = false) :
    executeReturnClause lib store items bindings maxRows =
      some ((bindings.take maxRows).map fun b =>
        returnRow lib store b (items.map ReturnItem.expr)) := by
  have hroom : ¬ maxItems < items.length := Nat.not_lt.mpr (le_trans hitems (by decide))
  rw [executeReturnClause, if_neg hroom, if_neg (by simp [hagg]), executeReturnSimple,
    rbApplyLimit_take hmax]

theorem executeReturnClause_agg (hmax : 0 < maxRows) (hitems : items.length ≤ cypMaxVars)
    (hagg : (items.any fun item => item.expr.isAggregate) = true)
    (hlookup : ∀ b ∈ bindings, ∀ e ∈ items.map ReturnItem.expr, e.canLookUp b = true) :
    executeReturnClause lib store items bindings maxRows =
      some ((retAggRows lib store (items.map ReturnItem.expr) bindings).take maxRows) := by
  have hle : items.length ≤ maxItems := le_trans hitems (by decide)
  have hdefined : (bindings.all fun b => decide (items.length ≤ maxItems) &&
      (items.map ReturnItem.expr).all fun e => e.canLookUp b) = true := by
    rw [List.all_eq_true]
    intro b hb
    rw [Bool.and_eq_true, List.all_eq_true]
    exact ⟨decide_eq_true hle, hlookup b hb⟩
  rw [executeReturnClause, if_neg (Nat.not_lt.mpr hle), if_pos hagg, executeReturnAgg,
    if_pos hdefined, Option.map_some, rbApplyLimit, if_pos hmax]

theorem isAggregate_returnAliases (items : List ReturnItem) :
    ((returnAliases items).any fun item => item.expr.isAggregate) = false := by
  rw [returnAliases, List.any_map, List.any_eq_false]
  intro item _
  exact Bool.false_ne_true

theorem withThenReturn_of_rows (hmax : 0 < maxRows) (hitems : items.length ≤ cypMaxVars)
    (hnames : NamesDiffer items) {rows : List (List CStr)}
    (hlen : ∀ row ∈ rows, row.length = items.length)
    (hwith : executeWithClause lib store items bindings = some (rows.map (withBinding items))) :
    withThenReturn lib store items bindings maxRows =
      some ((rows.take maxRows).map (List.map (List.take valueRoom))) := by
  have hlenAliases : (returnAliases items).length ≤ cypMaxVars := by
    rw [returnAliases, List.length_map]
    exact hitems
  rw [withThenReturn, hwith, Option.bind_some,
    executeReturnClause_simple lib none hmax hlenAliases (isAggregate_returnAliases items),
    ← List.map_take, List.map_map]
  congr 1
  apply List.map_congr_left
  intro row hrow
  exact returnRow_aliases lib hitems hnames (hlen row (List.mem_of_mem_take hrow))

theorem withThenReturn_simple (hmax : 0 < maxRows) (hitems : items.length ≤ cypMaxVars)
    (hnames : NamesDiffer items)
    (hagg : (items.any fun item => item.expr.isAggregate) = false) :
    withThenReturn lib store items bindings maxRows =
      some ((bindings.take maxRows).map fun b =>
        (items.map ReturnItem.expr).map fun e => (projectItem lib store e b).take valueRoom) := by
  have hwith : executeWithClause lib store items bindings =
      some ((bindings.map fun b => items.map fun item => projectItem lib store item.expr b).map
        (withBinding items)) := by
    rw [executeWithClause, if_neg (by simp [hagg]), executeWithSimple, List.map_map]
    rfl
  have hlen : ∀ row ∈ bindings.map fun b => items.map fun item =>
      projectItem lib store item.expr b, row.length = items.length := by
    intro row hrow
    obtain ⟨b, -, rfl⟩ := List.mem_map.mp hrow
    exact List.length_map _
  rw [withThenReturn_of_rows lib store hmax hitems hnames hlen hwith, ← List.map_take,
    List.map_map]
  congr 1
  apply List.map_congr_left
  intro b _
  rw [Function.comp_apply, List.map_map, List.map_map]
  rfl

theorem withThenReturn_agg (hmax : 0 < maxRows) (hitems : items.length ≤ cypMaxVars)
    (hnames : NamesDiffer items)
    (hagg : (items.any fun item => item.expr.isAggregate) = true)
    (hlookup : ∀ b ∈ bindings, ∀ e ∈ items.map ReturnItem.expr, e.canLookUp b = true) :
    withThenReturn lib store items bindings maxRows =
      some (((withAggRows lib store (items.map ReturnItem.expr) bindings).take maxRows).map
        (List.map (List.take valueRoom))) := by
  have hdefined : (bindings.all fun b =>
      (items.map ReturnItem.expr).all fun e => e.canLookUp b) = true := by
    rw [List.all_eq_true]
    intro b hb
    rw [List.all_eq_true]
    exact hlookup b hb
  have hwith : executeWithClause lib store items bindings =
      some ((withAggRows lib store (items.map ReturnItem.expr) bindings).map
        (withBinding items)) := by
    rw [executeWithClause, if_pos hagg, executeWithAggregate, if_pos hdefined]
  refine withThenReturn_of_rows lib store hmax hitems hnames ?_ hwith
  intro row hrow
  rw [(length_of_mem_withAggRows lib store hrow).1, List.length_map]

/-- The row is copied before a later read overwrites a value, and no value is
longer than a cell. -/
def RowStands (b : Binding) : List ItemExpr → Prop
  | [] => True
  | e :: items =>
      (match held store e b with
        | none => (projectItem lib store e b).length ≤ valueRoom
        | some ring =>
            ringValue (projectItem lib store e b) (laterReads lib store ring items b) =
              (projectItem lib store e b).take valueRoom) ∧
      RowStands b items

/-- The keys of the two clauses divide the bindings alike. -/
def SameGroups (items : List ItemExpr) (bindings : List Binding) : Prop :=
  ∀ b ∈ bindings, ∀ b' ∈ bindings,
    buildKey (retAggValue lib store) items b = buildKey (retAggValue lib store) items b' ↔
      buildKey (fun e b => e.virtual store b) items b =
        buildKey (fun e b => e.virtual store b) items b'

/-- An item that WITH knows when it groups: no COLLECT, and no CASE but an empty one. -/
def KnownToWith (b : Binding) (e : ItemExpr) : Prop :=
  e.isCollect = false ∧ (e.hasFunc = false → withShown e (fullValue lib store e b) =
    fullValue lib store e b)

def Agree (items : List ReturnItem) (bindings : List Binding) (maxRows : Nat) : Prop :=
  ∃ rows, withThenReturn lib store items bindings maxRows = some rows ∧
    executeReturnClause lib store items bindings maxRows = some rows

theorem returnRow_eq_iff (b : Binding) (es : List ItemExpr) :
    (es.map fun e => (projectItem lib store e b).take valueRoom) = returnRow lib store b es ↔
      RowStands lib store b es := by
  induction es with
  | nil => exact ⟨fun _ => trivial, fun _ => rfl⟩
  | cons e es ih =>
      rw [List.map_cons, returnRow, RowStands, List.cons.injEq, ih]
      apply and_congr_left'
      cases held store e b with
      | none => exact List.take_eq_self_iff _
      | some ring => exact eq_comm

theorem agree_simple_iff (hmax : 0 < maxRows) (hitems : items.length ≤ cypMaxVars)
    (hnames : NamesDiffer items)
    (hagg : (items.any fun item => item.expr.isAggregate) = false) :
    Agree lib store items bindings maxRows ↔
      ∀ b ∈ bindings.take maxRows, RowStands lib store b (items.map ReturnItem.expr) := by
  rw [Agree, withThenReturn_simple lib store hmax hitems hnames hagg,
    executeReturnClause_simple lib store hmax hitems hagg]
  simp only [Option.some.injEq, exists_eq_left', ← returnRow_eq_iff]
  rw [eq_comm]
  exact List.map_inj_left

theorem take_withAggCell (e : ItemExpr) (members : List Binding) :
    (withAggCell lib store e members).take valueRoom = withAggCell lib store e members := by
  apply List.take_of_length_le
  exact le_trans (List.length_take_le aggRoom _) (by decide)

theorem withAggCell_ne_retAggCell {e : ItemExpr} (hcollect : e.isCollect = true)
    (members : List Binding) : withAggCell lib store e members ≠ retAggCell lib store e members := by
  cases e with
  | aggregate func distinct var property =>
      cases func with
      | collect =>
          intro heq
          have hcell : (decimal (accumOver lib (withAggAccumulate lib store)
              (.aggregate .collect distinct var property) members).count).take aggRoom =
                formatCollectList (accumOver lib (retAggAccumulate lib store)
                  (.aggregate .collect distinct var property) members).values := heq
          rw [formatCollectList, aggRoom, List.take_succ_cons] at hcell
          have hmem : (91 : UInt8) ∈ decimalNat (accumOver lib (withAggAccumulate lib store)
              (.aggregate .collect distinct var property) members).count :=
            List.mem_of_mem_take (hcell ▸ List.mem_cons_self)
          exact absurd (byte_bounds hmem).2 (by decide)
      | _ => exact absurd hcollect (by simp [ItemExpr.isCollect])
  | _ => exact absurd hcollect (by simp [ItemExpr.isCollect])

theorem cell_eq_iff {b : Binding} (hcase : CaseFree b) (e : ItemExpr) (members : List Binding) :
    (if e.hasFunc then withAggCell lib store e members else e.virtual store b).take valueRoom =
        (if e.hasFunc then retAggCell lib store e members else retAggValue lib store e b) ↔
      KnownToWith lib store b e := by
  by_cases hfunc : e.hasFunc = true
  · rw [if_pos hfunc, if_pos hfunc, take_withAggCell]
    constructor
    · intro heq
      refine ⟨?_, fun h => absurd hfunc (by simp [h])⟩
      by_contra hcollect
      exact withAggCell_ne_retAggCell lib store (by simpa using hcollect) members heq
    · intro hknown
      exact (retAggCell_eq lib store hknown.1 members).symm
  · have hfunc : e.hasFunc = false := by simpa using hfunc
    rw [if_neg (by simp [hfunc]), if_neg (by simp [hfunc]), virtual_eq lib store hfunc hcase,
      retAggValue_eq lib store hfunc]
    cases e with
    | plain var property => exact ⟨fun _ => ⟨rfl, fun _ => rfl⟩, fun _ => rfl⟩
    | kase branches elseVal =>
        constructor
        · intro heq
          refine ⟨rfl, fun _ => ?_⟩
          have hnil := List.take_eq_nil_iff.mp heq.symm
          exact (hnil.resolve_left (by decide)).symm
        · intro hknown
          rw [← hknown.2 hfunc]
          rfl
    | _ => exact absurd hfunc (by simp [ItemExpr.hasFunc])

theorem sharing_eq_of_sameGroups {es : List ItemExpr} (hsame : SameGroups lib store es bindings)
    {b : Binding} (hb : b ∈ bindings) :
    sharing (buildKey (fun e b => e.virtual store b) es) bindings b =
      sharing (buildKey (retAggValue lib store) es) bindings b := by
  apply List.filter_congr
  intro b' hb'
  rw [decide_eq_decide]
  exact (hsame b' hb' b hb).symm

theorem agree_agg_iff (hmax : 0 < maxRows) (hitems : items.length ≤ cypMaxVars)
    (hnames : NamesDiffer items) (hcase : ∀ b ∈ bindings, CaseFree b)
    (hagg : (items.any fun item => item.expr.isAggregate) = true)
    (hlookup : ∀ b ∈ bindings, ∀ e ∈ items.map ReturnItem.expr, e.canLookUp b = true)
    (hsame : SameGroups lib store (items.map ReturnItem.expr) bindings) :
    Agree lib store items bindings maxRows ↔
      ∀ b ∈ (firsts (buildKey (retAggValue lib store) (items.map ReturnItem.expr)) bindings).take
          maxRows,
        ∀ e ∈ items.map ReturnItem.expr, KnownToWith lib store b e := by
  rw [Agree, withThenReturn_agg lib store hmax hitems hnames hagg hlookup,
    executeReturnClause_agg lib store hmax hitems hagg hlookup, withAggRows_eq, retAggRows_eq,
    ← firsts_congr _ hsame, ← List.map_take, ← List.map_take, List.map_map]
  simp only [Option.some.injEq, exists_eq_left']
  rw [eq_comm, List.map_inj_left]
  apply forall₂_congr
  intro b hb
  have hb : b ∈ bindings := mem_of_mem_firsts _ (List.mem_of_mem_take hb)
  rw [Function.comp_apply, List.map_map, List.map_inj_left]
  apply forall₂_congr
  intro e _
  rw [sharing_eq_of_sameGroups lib store hsame hb]
  exact cell_eq_iff lib store (hcase b hb) e _

theorem sameGroups_of_shown {es : List ItemExpr}
    (hshown : ∀ b ∈ bindings, ∀ e ∈ es, e.hasFunc = false →
      retAggValue lib store e b = e.virtual store b) : SameGroups lib store es bindings := by
  intro b hb b' hb'
  have hkey : ∀ c ∈ bindings, buildKey (retAggValue lib store) es c =
      buildKey (fun e b => e.virtual store b) es c :=
    fun c hc => buildKey_congr fun e he hfunc => hshown c hc e he hfunc
  rw [hkey b hb, hkey b' hb']

theorem canLookUp_of_agree (hagg : (items.any fun item => item.expr.isAggregate) = true)
    (hagree : Agree lib store items bindings maxRows) :
    ∀ b ∈ bindings, ∀ e ∈ items.map ReturnItem.expr, e.canLookUp b = true := by
  obtain ⟨rows, hwith, -⟩ := hagree
  obtain ⟨vbindings, hclause, -⟩ := Option.bind_eq_some_iff.mp hwith
  rw [executeWithClause, if_pos hagg, executeWithAggregate] at hclause
  simp only [Option.ite_none_right_eq_some, List.all_eq_true] at hclause
  exact hclause.1

/-- Without an aggregate, WITH and the names agree with RETURN if and only if no row
loses or cuts a value; with one, and where the keys divide the bindings alike, if
and only if all variables can be looked up and WITH knows all items of the rows. -/
theorem with_return_iff (items : List ReturnItem) (bindings : List Binding) (maxRows : Nat)
    (hmax : 0 < maxRows) (hitems : items.length ≤ cypMaxVars) (hnames : NamesDiffer items)
    (hcase : ∀ b ∈ bindings, CaseFree b) :
    ((items.any fun item => item.expr.isAggregate) = false →
      (Agree lib store items bindings maxRows ↔
        ∀ b ∈ bindings.take maxRows, RowStands lib store b (items.map ReturnItem.expr))) ∧
    ((items.any fun item => item.expr.isAggregate) = true →
      SameGroups lib store (items.map ReturnItem.expr) bindings →
      (Agree lib store items bindings maxRows ↔
        (∀ b ∈ bindings, ∀ e ∈ items.map ReturnItem.expr, e.canLookUp b = true) ∧
        ∀ b ∈ (firsts (buildKey (retAggValue lib store) (items.map ReturnItem.expr))
            bindings).take maxRows,
          ∀ e ∈ items.map ReturnItem.expr, KnownToWith lib store b e)) := by
  refine ⟨agree_simple_iff lib store hmax hitems hnames, ?_⟩
  intro hagg hsame
  constructor
  · intro hagree
    have hlookup := canLookUp_of_agree lib store hagg hagree
    exact ⟨hlookup,
      (agree_agg_iff lib store hmax hitems hnames hcase hagg hlookup hsame).mp hagree⟩
  · rintro ⟨hlookup, hknown⟩
    exact (agree_agg_iff lib store hmax hitems hnames hcase hagg hlookup hsame).mpr hknown

instance (b : Binding) (e : ItemExpr) : Decidable (KnownToWith lib store b e) :=
  inferInstanceAs (Decidable (_ ∧ _))

end Rows

/-- `WITH n.name, COUNT(n)` and `RETURN n.name, COUNT(n)`. -/
theorem with_return_names :
    Agree Libc.whole none [nameOfN, countN]
      [functionIn (bytesOf "Open") (bytesOf "io"), functionIn (bytesOf "Open") (bytesOf "os")]
      10 := by
  have hsame : SameGroups Libc.whole none ([nameOfN, countN].map ReturnItem.expr)
      [functionIn (bytesOf "Open") (bytesOf "io"), functionIn (bytesOf "Open") (bytesOf "os")] :=
    sameGroups_of_shown Libc.whole none (by decide +kernel)
  have hiff := with_return_iff Libc.whole none [nameOfN, countN]
    [functionIn (bytesOf "Open") (bytesOf "io"), functionIn (bytesOf "Open") (bytesOf "os")] 10
    (by decide) (by decide) (by decide +kernel) (by decide +kernel)
  exact (hiff.2 rfl hsame).mpr ⟨by decide +kernel, by decide +kernel⟩

/-- `COLLECT(n.name) AS names`. -/
def collectNames : ReturnItem where
  expr := .aggregate .collect false (bytesOf "n") (some (bytesOf "name"))
  itemAlias := some (bytesOf "names")

/-- `WITH COLLECT(n.name) AS names RETURN names` is a number, `RETURN
COLLECT(n.name) AS names` a list. -/
theorem not_with_return :
    ¬ ∀ (lib : Libc) (store : Option Store) (items : List ReturnItem) (bindings : List Binding)
      (maxRows : Nat), 0 < maxRows → items.length ≤ cypMaxVars → NamesDiffer items →
      (∀ b ∈ bindings, CaseFree b) → Agree lib store items bindings maxRows := by
  intro hall
  obtain ⟨rows, hwith, hreturn⟩ := hall Libc.whole none [collectNames]
    [functionIn (bytesOf "Open") (bytesOf "io")] 10 (by decide) (by decide) (by decide +kernel)
    (by decide +kernel)
  have hnumber : withThenReturn Libc.whole none [collectNames]
      [functionIn (bytesOf "Open") (bytesOf "io")] 10 = some [[bytesOf "1"]] := by decide +kernel
  have hlist : executeReturnClause Libc.whole none [collectNames]
      [functionIn (bytesOf "Open") (bytesOf "io")] 10 =
        some [[91 :: (quoted (bytesOf "Open") ++ [93])]] := by decide +kernel
  rw [hnumber] at hwith
  rw [hlist, ← hwith] at hreturn
  exact absurd hreturn (by decide +kernel)

end Cypher
end CodebaseMemory
