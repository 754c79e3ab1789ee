import CodebaseMemory.Cypher.Lexer
import CodebaseMemory.Cypher.Union
import CodebaseMemory.Lib.Frames

/-!
# The arrays of RETURN (`src/cypher/cypher.c`)

The functions that execute RETURN keep the names and the values of the items in arrays of 32
elements, and `rb_add_row` copies as many cells as the result has columns.

Reading aids:
* A trace has the accesses to one array, from its declaration on.
* A query that is behind undefined behaviour elsewhere (a NULL variable compared in an aggregate) is
  not executed.
-/

namespace CodebaseMemory
namespace Cypher

open Lib
open Sqlite (CStr bytesOf)

/-- `build_return_columns` and `rb_set_columns`: the accesses to `col_names`. -/
def columnsAccesses (items : List ReturnItem) : List Access :=
  fill (items.take maxItems) ++ copy items.length ++
    eachItem (fun i item =>
      if item.itemAlias.isNone && (item.expr.hasFunc || item.expr.property.isSome) then [.read i]
      else []) 0 (items.take maxItems)

/-- The accesses to `vals` in a round of `execute_return_simple`, and to `row` in
`ret_agg_emit_row`. -/
def rowAccesses (items : List ReturnItem) : List Access :=
  fill items ++ copy items.length

/-- The accesses to `vals` in `ret_agg_build_key`. -/
def keyAccesses (items : List ReturnItem) : List Access :=
  eachItem (fun ci item =>
    if item.expr.hasFunc then [.write ci] else [.write ci, .read ci]) 0 items

/-- The accesses to `valbufs` there, which are read where they are printed. -/
def valbufsAccesses (items : List ReturnItem) : List Access :=
  eachItem (fun ci item => if item.expr.hasFunc then [] else [.write ci, .read ci]) 0 items

/-- The accesses to `bufs` in `ret_agg_emit_row`; the row keeps their addresses. -/
def bufsAccesses (items : List ReturnItem) : List Access :=
  eachItem (fun ci item => if item.expr.hasFunc then [.write ci] else []) 0 items

section Accesses

variable (lib : Libc)
variable (store : Option Store)

/-- The loop of `execute_return_agg` over the bindings; `ret_agg_init_group` copies the values of a
key that is not in `seen`. -/
def aggAccesses (items : List ReturnItem) : List CStr → List Binding → List (List Access)
  | _, [] => []
  | seen, b :: bindings =>
      let exprs := items.map ReturnItem.expr
      let key := buildKey (retAggValue lib store) exprs b
      (keyAccesses items ++ if key ∈ seen then [] else copy items.length) ::
        valbufsAccesses items ::
          if exprs.all fun e => e.canLookUp b then aggAccesses items (key :: seen) bindings else []

/-- The accesses of `execute_return_clause` without a star, a trace for each array. -/
def ReturnClause.returnAccesses (r : ReturnClause) (bindings : List Binding) (maxRows : Nat) :
    List (List Access) :=
  let items := r.returnItems
  columnsAccesses items ::
    if items.any fun item => item.expr.isAggregate then
      aggAccesses lib store items [] bindings ++
        ((executeReturnAgg lib store items bindings).getD []).flatMap fun _ =>
          [rowAccesses items, bufsAccesses items]
    else
      (bindings.take (r.projCap maxRows)).flatMap fun _ =>
        [rowAccesses items, fill items]

end Accesses

section Proper

variable {lib : Libc}
variable {store : Option Store}
variable {items : List ReturnItem}

theorem length_le_of_proper_columns (h : Proper maxItems [] (columnsAccesses items)) :
    items.length ≤ maxItems := by
  rw [columnsAccesses, proper_append, proper_append] at h
  by_contra hmany
  have hlast := (proper_copy_iff items.length).mp h.1.2 maxItems (by omega)
  exact absurd hlast.1 (Nat.lt_irrefl _)

theorem proper_columnsAccesses (h : items.length ≤ maxItems) :
    Proper maxItems [] (columnsAccesses items) := by
  rw [columnsAccesses, List.take_of_length_le h, proper_append]
  refine ⟨proper_fill_copy h, ?_⟩
  refine proper_eachItem_of_known (fun ci item known hci hknown => ?_) (by omega) fun i _ hi => ?_
  · split
    · exact ⟨hci, hknown, trivial⟩
    · trivial
  · rw [written_append]
    exact mem_written_of_mem (mem_written_fill (by omega)) _

theorem proper_rowAccesses (h : items.length ≤ maxItems) :
    Proper maxItems [] (rowAccesses items) :=
  proper_fill_copy h

theorem proper_keyAccesses (h : items.length ≤ maxItems) :
    Proper maxItems [] (keyAccesses items ++ copy items.length) := by
  refine proper_eachItem_copy (fun ci item known hci => ?_) (fun ci item known => ?_) h
  · split
    · exact ⟨hci, trivial⟩
    · exact ⟨hci, hci, List.mem_cons_self, trivial⟩
  · split
    · exact List.mem_cons_self
    · exact List.mem_cons_self

theorem proper_of_mem_aggAccesses (h : items.length ≤ maxItems) {seen : List CStr}
    {bindings : List Binding} {trace : List Access}
    (htrace : trace ∈ aggAccesses lib store items seen bindings) : Proper maxItems [] trace := by
  induction bindings generalizing seen with
  | nil => exact absurd htrace List.not_mem_nil
  | cons b bindings ih =>
      rw [aggAccesses, List.mem_cons, List.mem_cons] at htrace
      rcases htrace with rfl | rfl | hmore
      · have hboth := proper_keyAccesses h
        split
        · rw [List.append_nil]
          exact ((proper_append _ _).mp hboth).1
        · exact hboth
      · refine proper_eachItem (fun ci item known hci => ?_) (by omega)
        split
        · trivial
        · exact ⟨hci, hci, List.mem_cons_self, trivial⟩
      · split at hmore
        · exact ih hmore
        · exact absurd hmore List.not_mem_nil

theorem proper_of_mem_returnAccesses {r : ReturnClause} (h : r.returnItems.length ≤ maxItems)
    {bindings : List Binding} {maxRows : Nat} {trace : List Access}
    (htrace : trace ∈ r.returnAccesses lib store bindings maxRows) : Proper maxItems [] trace := by
  rw [ReturnClause.returnAccesses, List.mem_cons] at htrace
  rcases htrace with rfl | htrace
  · exact proper_columnsAccesses h
  split at htrace
  · rcases List.mem_append.mp htrace with hloop | hemit
    · exact proper_of_mem_aggAccesses h hloop
    · obtain ⟨row, -, htrace⟩ := List.mem_flatMap.mp hemit
      rw [List.mem_cons, List.mem_singleton] at htrace
      rcases htrace with rfl | rfl
      · exact proper_rowAccesses h
      · refine proper_eachItem (fun ci item known hci => ?_) (by omega)
        split
        · exact ⟨hci, trivial⟩
        · trivial
  · obtain ⟨b, -, htrace⟩ := List.mem_flatMap.mp htrace
    rw [List.mem_cons, List.mem_singleton] at htrace
    rcases htrace with rfl | rfl
    · exact proper_rowAccesses h
    · exact proper_fill h

end Proper

section Columns

variable {lib : Libc}
variable {store : Option Store}
variable {sub : Int → Int → Int}
variable {rb : ResultBuilder}
variable {maxRows : Nat}

/-- The columns of a query, for which its bindings are of no importance. -/
def ParsedQuery.columns (q : ParsedQuery) : List CStr :=
  match q.ret with
  | none => (executeDefaultProjection q.query.first [] 0).columns
  | some r =>
      if r.items.isNone then (executeReturnStar q.query [] 0).columns
      else buildReturnColumns r.returnItems

theorem columns_of_project {r : ReturnClause} {q : Query} {bindings : List Binding}
    (h : r.project lib store q bindings maxRows = some rb) :
    rb.columns = if r.items.isNone then (executeReturnStar q [] 0).columns
      else buildReturnColumns r.returnItems := by
  rw [ReturnClause.project] at h
  split at h
  · next hstar =>
    obtain rfl := Option.some.inj h
    rw [if_pos hstar]
    rfl
  · next hstar =>
    rw [if_neg hstar]
    split at h
    · exact absurd h (by simp)
    · split at h
      · obtain ⟨rows, -, rfl⟩ := Option.map_eq_some_iff.mp h
        rfl
      · obtain rfl := Option.some.inj h
        rfl

theorem columns_of_executeSingle {s : Store} {growth : Option Nat} {q : ParsedQuery}
    {project : Option CStr} (h : q.executeSingle lib s growth sub project maxRows = some rb) :
    rb.columns = q.columns := by
  obtain ⟨bindings, -, h⟩ := Option.bind_eq_some_iff.mp h
  rw [ParsedQuery.columns]
  cases hret : q.ret with
  | none =>
      rw [hret] at h
      obtain rfl := Option.some.inj h
      rfl
  | some r =>
      rw [hret] at h
      obtain ⟨rb', hproject, rfl⟩ := Option.map_eq_some_iff.mp h
      exact (columns_of_project hproject :)

end Columns

section Chains

variable (lib : Libc)
variable (s : Store)
variable (growth : Option Nat)
variable (sub : Int → Int → Int)
variable (project : Option CStr)
variable (maxRows : Nat)

/-- The bindings that the end of `execute_single` works on. -/
def ParsedQuery.bindings (q : ParsedQuery) : Option (List Binding) :=
  let matched := q.query.execute lib s growth project maxRows
  match q.withClause with
  | none => some matched
  | some wc => wc.executeWith lib q.postWithWhere (some s) matched

/-- The store of the bindings, which those of WITH do not have. -/
def ParsedQuery.store (q : ParsedQuery) : Option Store :=
  if q.withClause.isNone then some s else none

/-- The rows of `rb_add_row` in `execute_single`, before they are sorted and cut. -/
def ParsedQuery.addedRows (q : ParsedQuery) (bindings : List Binding) : Option ResultBuilder :=
  match q.ret with
  | none => some (executeDefaultProjection q.query.first bindings maxRows)
  | some r => r.project lib (q.store s) q.query bindings maxRows

/-- The accesses of a query are good, and no row is too short for `rb_add_row`. -/
def ParsedQuery.Inside (q : ParsedQuery) (bindings : List Binding) : Prop :=
  (∀ r, q.ret = some r → r.items.isSome →
    ∀ trace ∈ r.returnAccesses lib (q.store s) bindings maxRows, Proper maxItems [] trace) ∧
  ∀ rb, q.addedRows lib s maxRows bindings = some rb →
    ∀ row ∈ rb.rows, rb.columns.length ≤ row.length

/-- RETURN has a star or at most 32 items. -/
def ParsedQuery.ItemsFit (q : ParsedQuery) : Prop :=
  ∀ r, q.ret = some r → r.items.isSome → r.returnItems.length ≤ maxItems

/-- The queries of a chain that are executed, each with the bindings for its RETURN. -/
def executed : List ParsedQuery → List (ParsedQuery × List Binding)
  | [] => []
  | q :: more =>
      match q.bindings lib s growth project maxRows with
      | none => []
      | some bindings => (q, bindings) ::
          if (q.executeSingle lib s growth sub project maxRows).isSome then executed more else []

/-- In `cbm_cypher_execute` all accesses are good and no row is too short for `rb_add_row`, also
when the rows of a further query are copied with the columns of the first. -/
def RowsInside (queries : List ParsedQuery) : Prop :=
  (∀ p ∈ executed lib s growth sub project maxRows queries, p.1.Inside lib s maxRows p.2) ∧
  ∀ first more, executed lib s growth sub project maxRows queries = first :: more →
    ∀ p ∈ more, ∀ rb, p.1.executeSingle lib s growth sub project maxRows = some rb →
      ∀ row ∈ rb.rows, first.1.columns.length ≤ row.length

/-- Each query has a star or few items, and each further query with a row has as many columns as
the first. -/
def RowsFit (queries : List ParsedQuery) : Prop :=
  (∀ p ∈ executed lib s growth sub project maxRows queries, p.1.ItemsFit) ∧
  ∀ first more, executed lib s growth sub project maxRows queries = first :: more →
    ∀ p ∈ more, ∀ rb, p.1.executeSingle lib s growth sub project maxRows = some rb →
      rb.rows ≠ [] → first.1.columns.length ≤ p.1.columns.length

theorem inside_iff_itemsFit (q : ParsedQuery) (bindings : List Binding) :
    q.Inside lib s maxRows bindings ↔ q.ItemsFit := by
  constructor
  · rintro ⟨hproper, -⟩ r hret hitems
    exact length_le_of_proper_columns (hproper r hret hitems _ List.mem_cons_self)
  · intro hfit
    refine ⟨fun r hret hitems trace htrace =>
      proper_of_mem_returnAccesses (hfit r hret hitems) htrace, fun rb hrb row hrow => ?_⟩
    rw [ParsedQuery.addedRows] at hrb
    cases hret : q.ret with
    | none =>
        rw [hret] at hrb
        obtain rfl := Option.some.inj hrb
        exact (rectangular_default _ _ _ row hrow).ge
    | some r =>
        rw [hret] at hrb
        exact (rectangular_project hrb row hrow).ge

theorem rowsInside_iff (queries : List ParsedQuery) :
    RowsInside lib s growth sub project maxRows queries ↔
      RowsFit lib s growth sub project maxRows queries := by
  refine and_congr (forall_congr' fun p => imp_congr_right fun _ =>
    inside_iff_itemsFit lib s maxRows p.1 p.2) ?_
  refine forall_congr' fun first => forall_congr' fun more => imp_congr_right fun _ =>
    forall_congr' fun p => imp_congr_right fun _ => forall_congr' fun rb =>
      imp_congr_right fun hrb => ?_
  have hwidth : ∀ row ∈ rb.rows, row.length = p.1.columns.length := fun row hrow =>
    (length_of_mem_executeSingle hrb row hrow).trans
      (congrArg List.length (columns_of_executeSingle hrb))
  constructor
  · intro h hrows
    obtain ⟨row, hrow⟩ := List.exists_mem_of_ne_nil _ hrows
    rw [← hwidth row hrow]
    exact h row hrow
  · intro h row hrow
    rw [hwidth row hrow]
    exact h (List.ne_nil_of_mem hrow)

end Chains

def unequalColumns : CStr :=
  bytesOf "MATCH (n:Function) RETURN n.name, n.label UNION MATCH (n:Function) RETURN n.name"

theorem isSome_unequalColumns : (cbmParse (cbmLex unequalColumns)).1.isSome = true := by
  decide +kernel

/-- The parser accepts the chain, and the row of the second query is too short. -/
theorem not_rowsInside_unequalColumns :
    ∃ queries, (cbmParse (cbmLex unequalColumns)).1 = some queries ∧
      ¬ RowsInside Libc.whole oneFunction (some 10) (fun x y => x - y) (some (bytesOf "p"))
        (rowLimit 0) (queries.map Prod.fst) := by
  refine ⟨_, (Option.some_get isSome_unequalColumns).symm, fun h => ?_⟩
  have hrun : (executed Libc.whole oneFunction (some 10) (fun x y => x - y) (some (bytesOf "p"))
      (rowLimit 0) (((cbmParse (cbmLex unequalColumns)).1.get isSome_unequalColumns).map
        Prod.fst)).map (fun p =>
        (p.1.columns.length, (p.1.executeSingle Libc.whole oneFunction (some 10) (fun x y => x - y)
          (some (bytesOf "p")) (rowLimit 0)).map ResultBuilder.rows)) =
      [(2, some [[bytesOf "f", bytesOf "Function"]]), (1, some [[bytesOf "f"]])] := by
    decide +kernel
  obtain ⟨first, more, hexecuted, hfirst, hmore⟩ := List.map_eq_cons_iff.mp hrun
  obtain ⟨p, rest, rfl, hp, -⟩ := List.map_eq_cons_iff.mp hmore
  obtain ⟨rb, hrb, hrows⟩ := Option.map_eq_some_iff.mp (Prod.mk.inj hp).2
  have hshort := h.2 first _ hexecuted p List.mem_cons_self rb hrb [bytesOf "f"]
    (by rw [hrows]; exact List.mem_cons_self)
  rw [(Prod.mk.inj hfirst).1] at hshort
  exact absurd hshort (by decide)

end Cypher
end CodebaseMemory
