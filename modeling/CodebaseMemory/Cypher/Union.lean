import CodebaseMemory.Cypher.Accepts
import CodebaseMemory.Cypher.Execute
import CodebaseMemory.Cypher.Groups

/-!
# Chains of UNION (`src/cypher/cypher.c`)

A chain is evaluated from the left: UNION drops duplicates from all rows so far, UNION ALL keeps
them.  The code appends the rows of all queries and drops duplicates once, if the first operator is
UNION.
-/

namespace CodebaseMemory
namespace Cypher

open Lib
open Sqlite (CStr bytesOf)

/-- The queries of a chain, each operator with the query before it. -/
def chain : ParsedQuery → List (Bool × ParsedQuery) → List (ParsedQuery × Option Bool)
  | q, [] => [(q, none)]
  | q, (all, next) :: more => (q, some all) :: chain next more

/-- The rows of a chain from the left; `true` stands for UNION ALL. -/
def unionRows (rows : List (List CStr)) : List (Bool × List (List CStr)) → List (List CStr)
  | [] => rows
  | (all, next) :: more => unionRows (if all then rows ++ next else firsts id (rows ++ next)) more

/-- The rows between the first query and the last UNION that drops duplicates, and those behind
it. -/
def lastUnion : List (Bool × List (List CStr)) → Option (List (List CStr) × List (List CStr))
  | [] => none
  | (all, next) :: more =>
      match lastUnion more with
      | some (combined, behind) => some (next ++ combined, behind)
      | none => if all then none else some (next, (more.map Prod.snd).flatten)

/-- Dropping duplicates once, by the first operator, gives the rows of the chain: if it is UNION
ALL, there are none up to the last UNION; if it is UNION, the rows behind the last UNION are new and
different. -/
def UnionFits (rows : List (List CStr)) (more : List (Bool × List (List CStr))) : Prop :=
  ∀ combined behind, lastUnion more = some (combined, behind) →
    if more.head?.map Prod.fst = some true then (rows ++ combined).Nodup
    else (firsts id (rows ++ combined) ++ behind).Nodup

/-- The rows that the code returns. -/
def appendedRows (rows : List (List CStr)) (more : List (Bool × List (List CStr))) :
    List (List CStr) :=
  let all := rows ++ (more.map Prod.snd).flatten
  if more.head?.map Prod.fst = some false then firsts id all else all

theorem cbmParse_chain {tokens : List (Token TokenType)} {queries : List (ParsedQuery × Option Bool)}
    (h : (cbmParse tokens).1 = some queries) : ∃ q more, queries = chain q more := by
  have hfuel : ∀ (fuel : Nat) {tokens : List (Token TokenType)}
      {queries : List (ParsedQuery × Option Bool)}, (cbmParseFuel fuel tokens).1 = some queries →
      ∃ q more, queries = chain q more := by
    intro fuel
    induction fuel with
    | zero => exact fun h => absurd h (by simp [cbmParseFuel])
    | succ fuel ih =>
        intro tokens queries h
        rw [cbmParseFuel] at h
        split at h
        · exact absurd h (by simp)
        · next q p hrun =>
          split at h
          · next hunion =>
            obtain ⟨rest, hrest, rfl⟩ := Option.map_eq_some_iff.mp h
            obtain ⟨next, more, rfl⟩ := ih hrest
            obtain ⟨all, hall⟩ := parseUnion_total hunion
            exact ⟨q, (all, next) :: more, by rw [hall, chain]⟩
          · obtain rfl := Option.some.inj h
            exact ⟨q, [], rfl⟩
  exact hfuel _ h

section Rows

variable {rows : List (List CStr)}

theorem unionRows_eq (rows : List (List CStr)) (more : List (Bool × List (List CStr))) :
    unionRows rows more = match lastUnion more with
      | none => rows ++ (more.map Prod.snd).flatten
      | some (combined, behind) => firsts id (rows ++ combined) ++ behind := by
  induction more generalizing rows with
  | nil => exact (List.append_nil rows).symm
  | cons op more ih =>
      obtain ⟨all, next⟩ := op
      rw [unionRows, ih, lastUnion]
      cases lastUnion more with
      | none =>
          cases all with
          | true => simp
          | false => simp
      | some parts =>
          cases all with
          | true => simp
          | false => simp [firsts_id_firsts_append]

theorem lastUnion_of_head {more : List (Bool × List (List CStr))}
    (h : more.head?.map Prod.fst = some false) : ∃ parts, lastUnion more = some parts := by
  cases more with
  | nil => exact absurd h (by simp)
  | cons op more =>
      obtain ⟨all, next⟩ := op
      obtain rfl : all = false := Option.some.inj h
      rw [lastUnion]
      cases lastUnion more with
      | none => exact ⟨_, rfl⟩
      | some parts => exact ⟨_, rfl⟩

theorem flatten_lastUnion {more : List (Bool × List (List CStr))}
    {combined behind : List (List CStr)} (h : lastUnion more = some (combined, behind)) :
    (more.map Prod.snd).flatten = combined ++ behind := by
  induction more generalizing combined with
  | nil => exact absurd h (by simp [lastUnion])
  | cons op more ih =>
      obtain ⟨all, next⟩ := op
      rw [lastUnion] at h
      cases hmore : lastUnion more with
      | none =>
          rw [hmore] at h
          cases all with
          | true => exact absurd h (by simp)
          | false =>
              obtain ⟨rfl, rfl⟩ := Prod.mk.inj (Option.some.inj h)
              rfl
      | some parts =>
          rw [hmore] at h
          obtain ⟨rfl, rfl⟩ := Prod.mk.inj (Option.some.inj h)
          rw [List.map_cons, List.flatten_cons, ih hmore, List.append_assoc]

theorem appendedRows_iff (rows : List (List CStr)) (more : List (Bool × List (List CStr))) :
    appendedRows rows more = unionRows rows more ↔ UnionFits rows more := by
  rw [unionRows_eq, UnionFits, appendedRows]
  cases hlast : lastUnion more with
  | none =>
      have hhead : ¬ more.head?.map Prod.fst = some false := fun h => by
        obtain ⟨parts, hparts⟩ := lastUnion_of_head h
        exact absurd (hlast.symm.trans hparts) (by simp)
      rw [if_neg hhead]
      exact ⟨fun _ _ _ h => absurd h (by simp), fun _ => rfl⟩
  | some parts =>
      obtain ⟨combined, behind⟩ := parts
      rw [flatten_lastUnion hlast, ← List.append_assoc]
      have hall : (∀ c b, some (combined, behind) = some (c, b) →
          if more.head?.map Prod.fst = some true then (rows ++ c).Nodup
          else (firsts id (rows ++ c) ++ b).Nodup) ↔
          if more.head?.map Prod.fst = some true then (rows ++ combined).Nodup
          else (firsts id (rows ++ combined) ++ behind).Nodup :=
        ⟨fun h => h _ _ rfl, fun h c b heq => by
          obtain ⟨rfl, rfl⟩ := Prod.mk.inj (Option.some.inj heq)
          exact h⟩
      rw [hall]
      cases hhead : more.head?.map Prod.fst with
      | none =>
          have hnil : more = [] := by simpa using hhead
          rw [hnil] at hlast
          exact absurd hlast (by simp [lastUnion])
      | some all =>
          cases all with
          | true =>
              simp only [Option.some.injEq, Bool.true_eq_false, if_false, if_true]
              rw [List.append_cancel_right_eq, eq_comm]
              exact firsts_id_eq_iff
          | false =>
              simp only [Option.some.injEq, Bool.false_eq_true, if_false, if_true]
              rw [← firsts_id_firsts_append]
              exact firsts_id_eq_iff

end Rows

section Columns

variable {lib : Libc}
variable {store : Option Store}
variable {sub : Int → Int → Int}

/-- Every row has a value for each column. -/
def ResultBuilder.Rectangular (rb : ResultBuilder) : Prop :=
  ∀ row ∈ rb.rows, row.length = rb.columns.length

theorem length_flatMap_congr {f g : CStr → List CStr} (h : ∀ v, (f v).length = (g v).length)
    (vars : List CStr) : (vars.flatMap f).length = (vars.flatMap g).length := by
  induction vars with
  | nil => rfl
  | cons v vars ih => rw [List.flatMap_cons, List.flatMap_cons, List.length_append,
      List.length_append, h, ih]

theorem rectangular_star (q : Query) (bindings : List Binding) (maxRows : Nat) :
    (executeReturnStar q bindings maxRows).Rectangular := by
  intro row hrow
  obtain ⟨b, -, rfl⟩ := List.mem_map.mp hrow
  refine length_flatMap_congr (fun v => ?_) _
  rw [projectStarVar]
  split
  · rfl
  · split
    · rfl
    · rfl

theorem rectangular_default (pat : Pattern) (bindings : List Binding) (maxRows : Nat) :
    (executeDefaultProjection pat bindings maxRows).Rectangular := by
  intro row hrow
  obtain ⟨b, -, rfl⟩ := List.mem_map.mp hrow
  refine length_flatMap_congr (fun v => ?_) _
  split
  · rfl
  · rfl

theorem length_returnRow (b : Binding) (items : List ItemExpr) :
    (returnRow lib store b items).length = items.length := by
  induction items with
  | nil => rfl
  | cons e items ih => rw [returnRow, List.length_cons, List.length_cons, ih]

variable {rb : ResultBuilder}
variable {maxRows : Nat}

theorem rectangular_project {r : ReturnClause} {q : Query} {bindings : List Binding}
    (h : r.project lib store q bindings maxRows = some rb) : rb.Rectangular := by
  rw [ReturnClause.project] at h
  split at h
  · obtain rfl := Option.some.inj h
    exact rectangular_star q bindings maxRows
  · split at h
    · exact absurd h (by simp)
    · split at h
      · obtain ⟨rows, hagg, rfl⟩ := Option.map_eq_some_iff.mp h
        intro row hrow
        rw [executeReturnAgg] at hagg
        split at hagg
        · obtain rfl := Option.some.inj hagg
          rw [retAggRows_eq] at hrow
          obtain ⟨first, -, rfl⟩ := List.mem_map.mp hrow
          rw [List.length_map, List.length_map, buildReturnColumns, List.length_map]
        · exact absurd hagg (by simp)
      · obtain rfl := Option.some.inj h
        intro row hrow
        obtain ⟨b, -, rfl⟩ := List.mem_map.mp hrow
        rw [length_returnRow, List.length_map, buildReturnColumns, List.length_map]

theorem mem_of_mem_finish {r : ReturnClause} {row : List CStr}
    (h : row ∈ (r.finish sub maxRows rb).rows) : row ∈ rb.rows := by
  have hcut : row ∈ rbApplySkipLimit r.skip (if 0 < r.limit then r.limit else maxRows)
      (rbApplyOrderBy sub rb.columns (r.returnItems.map ReturnItem.itemAlias) r.orderBy rb.rows) := by
    rw [ReturnClause.finish] at h
    dsimp only at h
    split at h
    · exact (rbApplyDistinct_sublist _).mem h
    · exact h
  exact (rbApplyOrderBy_perm sub _ _ _ _).mem_iff.mp ((rbApplySkipLimit_sublist _ _ _).mem hcut)

theorem length_of_mem_executeSingle {s : Store} {growth : Option Nat} {q : ParsedQuery}
    {project : Option CStr} (h : q.executeSingle lib s growth sub project maxRows = some rb) :
    rb.Rectangular := by
  obtain ⟨bindings, -, h⟩ := Option.bind_eq_some_iff.mp h
  cases hret : q.ret with
  | none =>
      rw [hret] at h
      obtain rfl := Option.some.inj h
      exact rectangular_default _ _ _
  | some r =>
      rw [hret] at h
      obtain ⟨rb, hproject, rfl⟩ := Option.map_eq_some_iff.mp h
      exact fun row hrow => rectangular_project hproject row (mem_of_mem_finish hrow)

end Columns

section Execution

variable {rb : ResultBuilder}
variable {rbs : List ResultBuilder}

theorem appendRows_eq (hrect : ∀ rb2 ∈ rbs, rb2.Rectangular)
    (hcols : ∀ rb2 ∈ rbs, rb2.columns.length = rb.columns.length) :
    appendRows rb rbs = some { rb with rows := rb.rows ++ (rbs.map ResultBuilder.rows).flatten } := by
  induction rbs generalizing rb with
  | nil =>
      rw [appendRows, List.map_nil, List.flatten_nil, List.append_nil]
  | cons rb2 rbs ih =>
      have hlength : ∀ row ∈ rb2.rows, row.length = rb.columns.length := fun row hrow =>
        (hrect rb2 List.mem_cons_self row hrow).trans (hcols rb2 List.mem_cons_self)
      have hwhole : rb2.rows.map (fun row => row.take rb.columns.length) = rb2.rows := by
        refine (List.map_congr_left fun row hrow => ?_).trans (List.map_id _)
        rw [List.take_of_length_le (hlength row hrow).le]
        rfl
      have hnone : ¬ (rb2.rows.any fun row => row.length < rb.columns.length) = true := by
        rw [List.any_eq_true]
        rintro ⟨row, hrow, hshort⟩
        have hlength := hlength row hrow
        have hshort := of_decide_eq_true hshort
        omega
      have hrest := @ih { rb with rows := rb.rows ++ rb2.rows }
        (fun rb3 h => hrect rb3 (List.mem_cons_of_mem _ h))
        (fun rb3 h => hcols rb3 (List.mem_cons_of_mem _ h))
      rw [appendRows, if_neg hnone, hwhole, hrest, List.map_cons, List.flatten_cons,
        List.append_assoc]

theorem chain_eq (q : ParsedQuery) (more : List (Bool × ParsedQuery)) :
    ∃ rest, chain q more = (q, more.head?.map Prod.fst) :: rest ∧
      rest.map Prod.fst = more.map Prod.snd := by
  induction more generalizing q with
  | nil => exact ⟨[], rfl, rfl⟩
  | cons op more ih =>
      obtain ⟨all, next⟩ := op
      obtain ⟨rest, hchain, hmap⟩ := ih next
      refine ⟨chain next more, rfl, ?_⟩
      rw [hchain, List.map_cons, List.map_cons, hmap]

theorem forall_mem_of_mapM {run : ParsedQuery → Option ResultBuilder} {qs : List ParsedQuery}
    {rbs : List ResultBuilder} (h : qs.mapM run = some rbs) :
    rbs.length = qs.length ∧ ∀ rb ∈ rbs, ∃ q ∈ qs, run q = some rb := by
  induction qs generalizing rbs with
  | nil =>
      obtain rfl := Option.some.inj h
      exact ⟨rfl, fun _ h => absurd h List.not_mem_nil⟩
  | cons q qs ih =>
      rw [List.mapM_cons] at h
      obtain ⟨rb, hrb, h⟩ := Option.bind_eq_some_iff.mp h
      obtain ⟨rest, hrest, h⟩ := Option.bind_eq_some_iff.mp h
      obtain rfl := Option.some.inj h
      obtain ⟨hlength, hall⟩ := ih hrest
      refine ⟨congrArg (· + 1) hlength, fun rb' hmem => ?_⟩
      rcases List.mem_cons.mp hmem with rfl | hmem
      · exact ⟨q, List.mem_cons_self, hrb⟩
      · obtain ⟨q', hq', hrun⟩ := hall rb' hmem
        exact ⟨q', List.mem_cons_of_mem q hq', hrun⟩

variable (lib : Libc)
variable (s : Store)
variable (growth : Option Nat)
variable (sub : Int → Int → Int)
variable (project : Option CStr)
variable (maxRows : Int)
variable (q : ParsedQuery)
variable (more : List (Bool × ParsedQuery))

/-- The rows of the queries of a chain, each by itself, with the operators between them. -/
def chainRows : Option (List (List CStr) × List (Bool × List (List CStr))) := do
  let rb ← q.executeSingle lib s growth sub project (rowLimit maxRows)
  let rbs ← (more.map Prod.snd).mapM fun next =>
    next.executeSingle lib s growth sub project (rowLimit maxRows)
  some (rb.rows, (more.map Prod.fst).zip (rbs.map ResultBuilder.rows))

/-- The code returns the rows of the chain. -/
def FollowsOperators : Prop :=
  ∃ rows parts, chainRows lib s growth sub project maxRows q more = some (rows, parts) ∧
    (cbmCypherExecute lib s growth sub project maxRows (chain q more)).map ResultBuilder.rows =
      some (unionRows rows parts)

/-- The queries run, there are not too many rows, and dropping duplicates once will do. -/
def ChainFits : Prop :=
  ∃ rows parts, chainRows lib s growth sub project maxRows q more = some (rows, parts) ∧
    (appendedRows rows parts).length < cypherResultCeiling ∧ UnionFits rows parts

theorem cbmCypherExecute_chain {width : Nat}
    (hcols : ∀ p ∈ q :: more.map Prod.snd, ∀ rb,
      p.executeSingle lib s growth sub project (rowLimit maxRows) = some rb →
        rb.columns.length = width)
    {rows : List (List CStr)} {parts : List (Bool × List (List CStr))}
    (hparts : chainRows lib s growth sub project maxRows q more = some (rows, parts)) :
    (cbmCypherExecute lib s growth sub project maxRows (chain q more)).map ResultBuilder.rows =
      if cypherResultCeiling ≤ (appendedRows rows parts).length then none
      else some (appendedRows rows parts) := by
  obtain ⟨rb, hrb, hparts⟩ := Option.bind_eq_some_iff.mp hparts
  obtain ⟨rbs, hrbs, hparts⟩ := Option.bind_eq_some_iff.mp hparts
  obtain ⟨rfl, rfl⟩ := Prod.mk.inj (Option.some.inj hparts)
  obtain ⟨hlength, hall⟩ := forall_mem_of_mapM hrbs
  obtain ⟨rest, hchain, hmap⟩ := chain_eq q more
  have happend : appendRows rb rbs =
      some { rb with rows := rb.rows ++ (rbs.map ResultBuilder.rows).flatten } := by
    refine appendRows_eq (fun rb2 h => ?_) fun rb2 h => ?_
    · obtain ⟨p, -, hrun⟩ := hall rb2 h
      exact length_of_mem_executeSingle hrun
    · obtain ⟨p, hp, hrun⟩ := hall rb2 h
      rw [hcols p (List.mem_cons_of_mem q hp) rb2 hrun, hcols q List.mem_cons_self rb hrb]
  have hrows : ((more.map Prod.fst).zip (rbs.map ResultBuilder.rows)).map Prod.snd =
      rbs.map ResultBuilder.rows := by
    refine List.map_snd_zip ?_
    rw [List.length_map, List.length_map, hlength, List.length_map]
  have hfirst : ((more.map Prod.fst).zip (rbs.map ResultBuilder.rows)).head?.map Prod.fst =
      more.head?.map Prod.fst := by
    cases more with
    | nil => rfl
    | cons op more =>
        cases rbs with
        | nil => exact absurd hlength (by simp)
        | cons rb2 rbs => rfl
  rw [hchain, appendedRows, hrows, hfirst]
  simp only [cbmCypherExecute, hmap, hrb, hrbs, happend, Option.bind_eq_bind, Option.bind_some,
    finishUnion, rbApplyDistinct_eq]
  by_cases hunion : more.head?.map Prod.fst = some false
  · rw [if_pos hunion, if_pos hunion]
    split
    · rfl
    · rfl
  · rw [if_neg hunion, if_neg hunion]
    split
    · rfl
    · rfl

theorem followsOperators_iff {width : Nat}
    (hcols : ∀ p ∈ q :: more.map Prod.snd, ∀ rb,
      p.executeSingle lib s growth sub project (rowLimit maxRows) = some rb →
        rb.columns.length = width) :
    FollowsOperators lib s growth sub project maxRows q more ↔
      ChainFits lib s growth sub project maxRows q more := by
  refine exists_congr fun rows => exists_congr fun parts => and_congr_right fun hparts => ?_
  rw [cbmCypherExecute_chain lib s growth sub project maxRows q more hcols hparts]
  constructor
  · intro h
    split at h
    · exact absurd h (by simp)
    · next hfew => exact ⟨Nat.lt_of_not_le hfew, (appendedRows_iff _ _).mp (Option.some.inj h)⟩
  · rintro ⟨hfew, hfits⟩
    rw [if_neg (Nat.not_le.mpr hfew), (appendedRows_iff _ _).mpr hfits]

end Execution

def oneFunction : Store where
  nodes := [{ id := 1
              project := some (bytesOf "p")
              label := some (bytesOf "Function")
              name := some (bytesOf "f")
              qualifiedName := some (bytesOf "f")
              filePath := none
              startLine := 1
              endLine := 2
              propertiesJson := none }]
  edges := []
  nodeIds := List.nodup_singleton _
  edgeKeys := List.nodup_nil

/-- `MATCH (n:Function) RETURN n.name`. -/
def functionNames : ParsedQuery where
  unwind := none
  query :=
    { first :=
        { start := { var := some (bytesOf "n"), label := some (bytesOf "Function"), props := [] }
          steps := [] }
      firstOptional := false
      more := []
      whereClause := none }
  withClause := none
  postWithWhere := none
  ret := some
    { items := some
        [{ expr := .item (.plain (bytesOf "n") (some (bytesOf "name"))), itemAlias := none }]
      distinct := false
      orderBy := none
      skip := 0
      limit := 0 }

theorem executeSingle_functionNames :
    functionNames.executeSingle Libc.whole oneFunction (some 10) (fun x y => x - y)
        (some (bytesOf "p")) (rowLimit 0) =
      some { columns := [bytesOf "n.name"], rows := [[bytesOf "f"]] } := by
  decide +kernel

/-- Twice the same query with UNION. -/
theorem followsOperators_union :
    FollowsOperators Libc.whole oneFunction (some 10) (fun x y => x - y) (some (bytesOf "p")) 0
      functionNames [(false, functionNames)] := by
  have hcols : ∀ p ∈ functionNames :: [(false, functionNames)].map Prod.snd, ∀ rb,
      p.executeSingle Libc.whole oneFunction (some 10) (fun x y => x - y) (some (bytesOf "p"))
        (rowLimit 0) = some rb → rb.columns.length = 1 := by
    intro p hp rb hrb
    obtain rfl : p = functionNames := by simpa using hp
    rw [executeSingle_functionNames] at hrb
    obtain rfl := Option.some.inj hrb
    rfl
  refine (followsOperators_iff Libc.whole oneFunction (some 10) (fun x y => x - y) _ 0 functionNames
    [(false, functionNames)] hcols).mpr ⟨[[bytesOf "f"]], [(false, [[bytesOf "f"]])], ?_, ?_, ?_⟩
  · decide +kernel
  · decide +kernel
  · intro combined behind hlast
    obtain ⟨rfl, rfl⟩ := Prod.mk.inj (Option.some.inj hlast)
    decide

/-- Three times the same query, with UNION ALL and then UNION. -/
theorem not_followsOperators_mixed :
    ¬ FollowsOperators Libc.whole oneFunction (some 10) (fun x y => x - y) (some (bytesOf "p")) 0
      functionNames [(true, functionNames), (false, functionNames)] := by
  rintro ⟨rows, parts, hparts, hrows⟩
  have hvalue : chainRows Libc.whole oneFunction (some 10) (fun x y => x - y) (some (bytesOf "p")) 0
      functionNames [(true, functionNames), (false, functionNames)] =
        some ([[bytesOf "f"]], [(true, [[bytesOf "f"]]), (false, [[bytesOf "f"]])]) := by
    decide +kernel
  rw [hvalue] at hparts
  obtain ⟨rfl, rfl⟩ := Prod.mk.inj (Option.some.inj hparts)
  revert hrows
  decide +kernel

end Cypher
end CodebaseMemory
