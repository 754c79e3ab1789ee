import CodebaseMemory.Cypher.Store
import CodebaseMemory.Lib.Limit
import CodebaseMemory.Query.InClause

/-!
# Breadth-first traversal (`src/store/store.c`)

`cbm_store_bfs` is one recursive query.  Its table holds pairs of a node and a
number of hops, UNION drops repeated pairs, and the rows with at least one hop
come out sorted by hop, up to a limit.  A node that walks of several lengths lead
to has a row for each, and so has the start when a cycle leads back to it.
-/

namespace CodebaseMemory
namespace Query

open Lib
open Cypher (Node Edge Store bfsNext bfsLevel)
open Sqlite (CStr bytesOf)

section Distance

universe u

variable {α : Type u}
variable {step : α → α → Prop}

def Walk (step : α → α → Prop) (x : α) : Nat → α → Prop
  | 0, y => y = x
  | k + 1, y => ∃ z, Walk step x k z ∧ step z y

/-- The length of the shortest walk. -/
def IsDistance (step : α → α → Prop) (x y : α) (k : Nat) : Prop :=
  Walk step x k y ∧ ∀ j, Walk step x j y → k ≤ j

theorem IsDistance.unique {x y : α} {j k : Nat} (hj : IsDistance step x y j)
    (hk : IsDistance step x y k) : j = k :=
  Nat.le_antisymm (hj.2 k hk.1) (hk.2 j hj.1)

theorem IsDistance.ne_iff {x y : α} {k : Nat} (h : IsDistance step x y k) : y ≠ x ↔ 1 ≤ k := by
  constructor
  · intro hne
    by_contra hzero
    obtain rfl : k = 0 := by omega
    exact hne h.1
  · rintro hpos rfl
    have hle := h.2 0 rfl
    omega

end Distance

section Query

variable (s : Store)

/-- `is_inbound`; every other direction is followed outwards. -/
def isInbound (direction : Option CStr) : Bool :=
  direction = some (bytesOf "inbound")

/-- The rows before ORDER BY and LIMIT: the nodes of the recursive table at one hop
or more. -/
def bfsTable (inbound : Bool) (types : List CStr) (start maxDepth : Int) : List (Node × Nat) :=
  (List.range maxDepth.toNat).flatMap fun h =>
    (bfsLevel s inbound types start (h + 1)).filterMap fun id =>
      (s.findNodeById id).map fun n => (n, h + 1)

def limitRows (maxResults : Int) (rows : List (Node × Nat)) : List (Node × Nat) :=
  if maxResults < 0 then rows else rows.take maxResults.toNat

/-- `cbm_store_bfs`: the rows it may return.  ORDER BY leaves the order of the rows
of one hop open. -/
def CbmStoreBfs (start : Int) (direction : Option CStr) (edgeTypes : List CStr)
    (maxDepth maxResults : Int) (rows : List (Node × Nat)) : Prop :=
  s.findNodeById start ≠ none ∧
    ∃ types table, bfsTypes edgeTypes = some types ∧
      SortedBy Prod.snd (bfsTable s (isInbound direction) types start maxDepth) table ∧
      rows = limitRows maxResults table

end Query

section Purpose

variable (s : Store)

/-- One step along an edge of these types. -/
def Along (inbound : Bool) (types : List CStr) (x y : Int) : Prop :=
  ∃ e ∈ s.edges, e.type ∈ types ∧
    if inbound then e.targetId = x ∧ e.sourceId = y else e.sourceId = x ∧ e.targetId = y

/-- A stored node, other than the start, at this distance. -/
def AtDistance (inbound : Bool) (types : List CStr) (start maxDepth : Int)
    (n : Node) (k : Nat) : Prop :=
  n ∈ s.nodes ∧ n.id ≠ start ∧ (k : Int) ≤ maxDepth ∧
    IsDistance (Along s inbound types) start n.id k

open Classical in
/-- The nodes, other than the start, that are reachable within the depth. -/
noncomputable def reached (inbound : Bool) (types : List CStr) (start maxDepth : Int) :
    List Node :=
  s.nodes.filter fun n => ∃ k, AtDistance s inbound types start maxDepth n k

def ReportsOnce (inbound : Bool) (types : List CStr) (start maxDepth : Int)
    (rows : List (Node × Nat)) : Prop :=
  (rows.map Prod.fst).Nodup ∧
    ∀ n k, (n, k) ∈ rows ↔ AtDistance s inbound types start maxDepth n k

/-- A node that is found at a number of hops other than its distance. -/
def Repeat (inbound : Bool) (edgeTypes : List CStr) (start maxDepth : Int)
    (n : Node) (k : Nat) : Prop :=
  n ∈ s.nodes ∧ 1 ≤ k ∧ (k : Int) ≤ maxDepth ∧
    Walk (Along s inbound (edgeTypes.take 124)) start k n.id ∧
    ¬ IsDistance (Along s inbound edgeTypes) start n.id k

end Purpose

section Table

variable {s : Store}
variable {inbound : Bool}
variable {types : List CStr}
variable {start maxDepth : Int}

theorem mem_bfsNext {x y : Int} : y ∈ bfsNext s inbound types x ↔ Along s inbound types x y := by
  unfold bfsNext Along
  simp only [List.mem_map, List.mem_filter, Bool.and_eq_true, decide_eq_true_eq]
  cases inbound with
  | true =>
      simp only [if_true]
      constructor
      · rintro ⟨e, ⟨he, hsrc, htype⟩, htgt⟩
        exact ⟨e, he, htype, hsrc, htgt⟩
      · rintro ⟨e, he, htype, hsrc, htgt⟩
        exact ⟨e, ⟨he, hsrc, htype⟩, htgt⟩
  | false =>
      simp only [Bool.false_eq_true, if_false]
      constructor
      · rintro ⟨e, ⟨he, hsrc, htype⟩, htgt⟩
        exact ⟨e, he, htype, hsrc, htgt⟩
      · rintro ⟨e, he, htype, hsrc, htgt⟩
        exact ⟨e, ⟨he, hsrc, htype⟩, htgt⟩

theorem mem_bfsLevel (k : Nat) :
    ∀ {y : Int}, y ∈ bfsLevel s inbound types start k ↔
      Walk (Along s inbound types) start k y := by
  induction k with
  | zero =>
      intro y
      exact List.mem_singleton
  | succ k ih =>
      intro y
      rw [bfsLevel, List.mem_dedup, List.mem_flatMap]
      simp only [ih, mem_bfsNext]
      rfl

theorem nodup_bfsLevel (k : Nat) : (bfsLevel s inbound types start k).Nodup := by
  cases k with
  | zero => exact List.nodup_singleton _
  | succ k => exact List.nodup_dedup _

theorem mem_bfsTable {n : Node} {k : Nat} :
    (n, k) ∈ bfsTable s inbound types start maxDepth ↔
      n ∈ s.nodes ∧ 1 ≤ k ∧ (k : Int) ≤ maxDepth ∧
        Walk (Along s inbound types) start k n.id := by
  simp only [bfsTable, List.mem_flatMap, List.mem_range, List.mem_filterMap, mem_bfsLevel,
    Option.map_eq_some_iff, Store.findNodeById_eq_some, Prod.mk.injEq]
  constructor
  · rintro ⟨h, hh, id, hwalk, m, ⟨hm, rfl⟩, rfl, rfl⟩
    exact ⟨hm, by omega, by omega, hwalk⟩
  · rintro ⟨hn, hone, hmax, hwalk⟩
    refine ⟨k - 1, by omega, n.id, ?_, n, ⟨hn, rfl⟩, rfl, by omega⟩
    rwa [Nat.sub_add_cancel hone]

theorem nodup_bfsTable : (bfsTable s inbound types start maxDepth).Nodup := by
  refine List.nodup_flatMap.mpr ⟨fun h _ => ?_, ?_⟩
  · refine (nodup_bfsLevel (h + 1)).filterMap ?_
    intro id id' row hrow hrow'
    rw [Option.mem_def, Option.map_eq_some_iff] at hrow hrow'
    obtain ⟨n, hn, rfl⟩ := hrow
    obtain ⟨m, hm, heq⟩ := hrow'
    obtain ⟨rfl, -⟩ := Prod.mk.inj heq
    exact (Store.findNodeById_eq_some.mp hn).2.symm.trans (Store.findNodeById_eq_some.mp hm).2
  · refine List.nodup_range.imp fun {h h'} hne => ?_
    intro row hrow hrow'
    obtain ⟨_, _, hrow⟩ := List.mem_filterMap.mp hrow
    obtain ⟨_, _, hrow'⟩ := List.mem_filterMap.mp hrow'
    rw [Option.map_eq_some_iff] at hrow hrow'
    obtain ⟨n, _, rfl⟩ := hrow
    obtain ⟨m, _, heq⟩ := hrow'
    have := (Prod.mk.inj heq).2
    omega

theorem exists_cbmStoreBfs (hstart : ∃ n ∈ s.nodes, n.id = start) (direction : Option CStr)
    (edgeTypes : List CStr) (maxDepth maxResults : Int) :
    ∃ rows, CbmStoreBfs s start direction edgeTypes maxDepth maxResults rows := by
  obtain ⟨n, hn, hid⟩ := hstart
  obtain ⟨table, htable⟩ := exists_sortedBy Prod.snd
    (bfsTable s (isInbound direction) ((requestedTypes edgeTypes).take 124) start maxDepth)
  refine ⟨_, ?_, _, table, bfsTypes_eq edgeTypes, htable, rfl⟩
  rw [Store.findNodeById_eq_some.mpr ⟨hn, hid⟩]
  exact Option.some_ne_none n

end Table

section Once

variable {s : Store}
variable {inbound : Bool}
variable {edgeTypes : List CStr}
variable {start maxDepth : Int}

theorem AtDistance.unique {n : Node} {j k : Nat}
    (hj : AtDistance s inbound edgeTypes start maxDepth n j)
    (hk : AtDistance s inbound edgeTypes start maxDepth n k) : j = k :=
  hj.2.2.2.unique hk.2.2.2

theorem mem_reached {n : Node} :
    n ∈ reached s inbound edgeTypes start maxDepth ↔
      ∃ k, AtDistance s inbound edgeTypes start maxDepth n k := by
  classical
  rw [reached, List.mem_filter, decide_eq_true_iff]
  exact ⟨fun h => h.2, fun ⟨k, hk⟩ => ⟨hk.1, k, hk⟩⟩

theorem nodup_reached : (reached s inbound edgeTypes start maxDepth).Nodup :=
  (List.Nodup.of_map _ s.nodeIds).filter _

theorem exists_wanted (s : Store) (inbound : Bool) (edgeTypes : List CStr)
    (start maxDepth : Int) : ∃ wanted : List (Node × Nat),
    wanted.map Prod.fst = reached s inbound edgeTypes start maxDepth ∧
      ∀ n k, (n, k) ∈ wanted ↔ AtDistance s inbound edgeTypes start maxDepth n k := by
  classical
  let distance : Node → Nat := fun n =>
    Classical.epsilon fun k => AtDistance s inbound edgeTypes start maxDepth n k
  refine ⟨(reached s inbound edgeTypes start maxDepth).map fun n => (n, distance n), ?_, ?_⟩
  · rw [List.map_map]
    exact List.map_id _
  · intro n k
    rw [List.mem_map]
    constructor
    · rintro ⟨m, hm, heq⟩
      obtain ⟨rfl, rfl⟩ := Prod.mk.inj heq
      exact Classical.epsilon_spec (mem_reached.mp hm)
    · intro hk
      have hspec : AtDistance s inbound edgeTypes start maxDepth n (distance n) :=
        Classical.epsilon_spec ⟨k, hk⟩
      exact ⟨n, mem_reached.mpr ⟨k, hk⟩, Prod.ext rfl (hspec.unique hk)⟩

theorem reportsOnce_of_mem_iff {wanted rows : List (Node × Nat)}
    (hfst : wanted.map Prod.fst = reached s inbound edgeTypes start maxDepth)
    (hwanted : ∀ n k, (n, k) ∈ wanted ↔ AtDistance s inbound edgeTypes start maxDepth n k)
    (hrows : rows.Nodup) :
    ReportsOnce s inbound edgeTypes start maxDepth rows ↔ ∀ x, x ∈ rows ↔ x ∈ wanted := by
  constructor
  · rintro ⟨-, hmem⟩ ⟨n, k⟩
    rw [hmem, hwanted]
  · intro hmem
    refine ⟨?_, fun n k => (hmem (n, k)).trans (hwanted n k)⟩
    have hnodup : (wanted.map Prod.fst).Nodup := hfst ▸ nodup_reached
    have hperm := (List.perm_ext_iff_of_nodup hrows hnodup.of_map).mpr hmem
    exact (hperm.map Prod.fst).nodup_iff.mpr hnodup

theorem repeat_iff {n : Node} {k : Nat} :
    Repeat s inbound edgeTypes start maxDepth n k ↔
      (n, k) ∈ bfsTable s inbound (edgeTypes.take 124) start maxDepth ∧
        ¬ AtDistance s inbound edgeTypes start maxDepth n k := by
  rw [mem_bfsTable]
  constructor
  · rintro ⟨hn, hone, hmax, hwalk, hfar⟩
    exact ⟨⟨hn, hone, hmax, hwalk⟩, fun h => hfar h.2.2.2⟩
  · rintro ⟨⟨hn, hone, hmax, hwalk⟩, hfar⟩
    exact ⟨hn, hone, hmax, hwalk, fun h => hfar ⟨hn, h.ne_iff.mpr hone, hmax, h⟩⟩

end Once

theorem reportsOnce_iff_tables {s : Store} {start : Int} (hstart : ∃ n ∈ s.nodes, n.id = start)
    {direction : Option CStr} {edgeTypes : List CStr} (htypes : edgeTypes ≠ [])
    {maxDepth maxResults : Int} (hlimit : 0 ≤ maxResults) {wanted : List (Node × Nat)}
    (hfst : wanted.map Prod.fst = reached s (isInbound direction) edgeTypes start maxDepth)
    (hwanted : ∀ n k, (n, k) ∈ wanted ↔
      AtDistance s (isInbound direction) edgeTypes start maxDepth n k) :
    (∀ rows, CbmStoreBfs s start direction edgeTypes maxDepth maxResults rows →
      ReportsOnce s (isInbound direction) edgeTypes start maxDepth rows) ↔
    ∀ table, SortedBy Prod.snd
      (bfsTable s (isInbound direction) (edgeTypes.take 124) start maxDepth) table →
      ∀ x, x ∈ table.take maxResults.toNat ↔ x ∈ wanted := by
  have hfound : s.findNodeById start ≠ none := by
    obtain ⟨n, hn, hid⟩ := hstart
    rw [Store.findNodeById_eq_some.mpr ⟨hn, hid⟩]
    exact Option.some_ne_none n
  have hbound : bfsTypes edgeTypes = some (edgeTypes.take 124) := by
    rw [bfsTypes_eq, requestedTypes, if_neg htypes]
  have htake : ∀ table, limitRows maxResults table = table.take maxResults.toNat :=
    fun table => if_neg (by omega)
  have hnodup : ∀ {table}, SortedBy Prod.snd
      (bfsTable s (isInbound direction) (edgeTypes.take 124) start maxDepth) table →
      (table.take maxResults.toNat).Nodup := fun htable =>
    (htable.1.nodup_iff.mpr nodup_bfsTable).sublist (List.take_sublist _ _)
  constructor
  · intro hall table htable
    exact (reportsOnce_of_mem_iff hfst hwanted (hnodup htable)).mp
      (hall _ ⟨hfound, _, table, hbound, htable, (htake table).symm⟩)
  · rintro hall rows ⟨-, types, table, htypes, htable, rfl⟩
    rw [hbound, Option.some.injEq] at htypes
    subst htypes
    rw [htake]
    exact (reportsOnce_of_mem_iff hfst hwanted (hnodup htable)).mpr (hall table htable)

/-- Every reachable node is reported once, at its distance, if the types after the
124th shorten no distance, and either no node is found twice and the start not at
all, or the limit cuts off exactly those rows. -/
theorem reportsOnce_iff {s : Store} {start : Int} (hstart : ∃ n ∈ s.nodes, n.id = start)
    (direction : Option CStr) {edgeTypes : List CStr} (htypes : edgeTypes ≠ [])
    (maxDepth : Int) {maxResults : Int}
    (hfew : ((reached s (isInbound direction) edgeTypes start maxDepth).length : Int) ≤
      maxResults) :
    (∀ rows, CbmStoreBfs s start direction edgeTypes maxDepth maxResults rows →
      ReportsOnce s (isInbound direction) edgeTypes start maxDepth rows) ↔
    (∀ n k, AtDistance s (isInbound direction) edgeTypes start maxDepth n k →
      Walk (Along s (isInbound direction) (edgeTypes.take 124)) start k n.id) ∧
    ∀ n k, Repeat s (isInbound direction) edgeTypes start maxDepth n k →
      maxResults = (reached s (isInbound direction) edgeTypes start maxDepth).length ∧
        ∀ m j, AtDistance s (isInbound direction) edgeTypes start maxDepth m j → j < k := by
  obtain ⟨wanted, hfst, hwanted⟩ := exists_wanted s (isInbound direction) edgeTypes start
    maxDepth
  have hlength : wanted.length =
      (reached s (isInbound direction) edgeTypes start maxDepth).length := by
    rw [← hfst, List.length_map]
  have hnodup : wanted.Nodup := List.Nodup.of_map Prod.fst (hfst ▸ nodup_reached)
  have hroom : wanted.length ≤ maxResults.toNat := by omega
  rw [reportsOnce_iff_tables hstart htypes (by omega) hfst hwanted,
    take_iff_of_sortedBy hnodup nodup_bfsTable hroom]
  refine and_congr ⟨fun h n k hk => ?_, fun h ⟨n, k⟩ hx => ?_⟩
    ⟨fun h n k hk => ?_, fun h ⟨n, k⟩ hy hne => ?_⟩
  · exact (mem_bfsTable.mp (h _ ((hwanted n k).mpr hk))).2.2.2
  · have hk := (hwanted n k).mp hx
    exact mem_bfsTable.mpr ⟨hk.1, hk.2.2.2.ne_iff.mp hk.2.1, hk.2.2.1, h n k hk⟩
  · obtain ⟨hrow, hfar⟩ := repeat_iff.mp hk
    obtain ⟨hlimit, hless⟩ := h (n, k) hrow fun hin => hfar ((hwanted n k).mp hin)
    exact ⟨by omega, fun m j hj => hless (m, j) ((hwanted m j).mpr hj)⟩
  · obtain ⟨hlimit, hless⟩ := h n k (repeat_iff.mpr ⟨hy, fun hk => hne ((hwanted n k).mpr hk)⟩)
    exact ⟨by omega, fun ⟨m, j⟩ hx => hless m j ((hwanted m j).mp hx)⟩

/-- `a` calls `b` and `b` calls `c`. -/
def chainStore : Store where
  nodes := [1, 2, 3].map fun id => ⟨id, none, none, none, none, none, 0, 0, none⟩
  edges := [⟨1, 1, 2, bytesOf "CALLS", none⟩, ⟨2, 2, 3, bytesOf "CALLS", none⟩]
  nodeIds := by decide
  edgeKeys := by decide

/-- `a` and `b` call each other. -/
def cycleStore : Store where
  nodes := [1, 2].map fun id => ⟨id, none, none, none, none, none, 0, 0, none⟩
  edges := [⟨1, 1, 2, bytesOf "CALLS", none⟩, ⟨2, 2, 1, bytesOf "CALLS", none⟩]
  nodeIds := by decide
  edgeKeys := by decide

theorem chain_levels {y : Int} {k : Nat} (hone : 1 ≤ k) (htwo : k ≤ 2)
    (hwalk : Walk (Along chainStore false [bytesOf "CALLS"]) 1 k y) : y = k + 1 := by
  rw [← mem_bfsLevel] at hwalk
  obtain rfl | rfl : k = 1 ∨ k = 2 := by omega
  · exact List.mem_singleton.mp hwalk
  · exact List.mem_singleton.mp hwalk

/-- Along a chain every node has one row. -/
theorem reportsOnce_chain :
    (∃ rows, CbmStoreBfs chainStore 1 (some (bytesOf "outbound")) [bytesOf "CALLS"] 2 10 rows) ∧
    ∀ rows, CbmStoreBfs chainStore 1 (some (bytesOf "outbound")) [bytesOf "CALLS"] 2 10 rows →
      ReportsOnce chainStore false [bytesOf "CALLS"] 1 2 rows := by
  have hstart : ∃ n ∈ chainStore.nodes, n.id = 1 := ⟨_, List.mem_cons_self, rfl⟩
  refine ⟨exists_cbmStoreBfs hstart _ _ _ _, ?_⟩
  refine (reportsOnce_iff hstart (some (bytesOf "outbound"))
    (List.cons_ne_nil _ _) 2 ?_).mpr ⟨?_, ?_⟩
  · have hle : (reached chainStore false [bytesOf "CALLS"] 1 2).length ≤ 3 :=
      List.length_filter_le _ _
    exact (Int.ofNat_le.mpr hle).trans (by decide)
  · intro n k hk
    exact hk.2.2.2.1
  · rintro n k ⟨-, hone, htwo, hwalk, hfar⟩
    refine absurd ⟨hwalk, fun j hj => ?_⟩ hfar
    have hend := chain_levels hone (by omega) hwalk
    by_contra hless
    by_cases hzero : j = 0
    · subst hzero
      have hstart : n.id = 1 := hj
      omega
    · have hend' := chain_levels (by omega) (by omega) hj
      omega

/-- A cycle brings the start back. -/
theorem not_reportsOnce_cycle :
    (reached cycleStore false [bytesOf "CALLS"] 1 2).length ≤ 100 ∧
    ∃ rows, CbmStoreBfs cycleStore 1 (some (bytesOf "outbound")) [bytesOf "CALLS"] 2 100 rows ∧
      ¬ ReportsOnce cycleStore false [bytesOf "CALLS"] 1 2 rows := by
  refine ⟨(List.length_filter_le _ _).trans (by decide), ?_⟩
  have hstart : ∃ n ∈ cycleStore.nodes, n.id = 1 := ⟨_, List.mem_cons_self, rfl⟩
  obtain ⟨rows, hrows⟩ := exists_cbmStoreBfs hstart (some (bytesOf "outbound"))
    [bytesOf "CALLS"] 2 100
  refine ⟨rows, hrows, fun hreports => ?_⟩
  obtain ⟨-, types, table, htypes, htable, rfl⟩ := hrows
  rw [bfsTypes_eq, Option.some.injEq] at htypes
  subst htypes
  obtain ⟨n, hn, hid⟩ := hstart
  have hback : (n, 2) ∈ bfsTable cycleStore false [bytesOf "CALLS"] 1 2 := by
    refine mem_bfsTable.mpr ⟨hn, by decide, by decide, ?_⟩
    rw [hid, ← mem_bfsLevel]
    decide
  have hall : table.take 100 = table := by
    refine List.take_of_length_le ?_
    rw [htable.1.length_eq]
    decide
  have hrow : (n, 2) ∈ limitRows 100 table := by
    change (n, 2) ∈ table.take 100
    rw [hall]
    exact htable.1.mem_iff.mpr hback
  exact ((hreports.2 n 2).mp hrow).2.1 hid

end Query
end CodebaseMemory
