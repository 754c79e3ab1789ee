import CodebaseMemory.Cypher.Sound
import Mathlib.Data.List.Pairwise

/-!
# Variable-length relationships

`expand_var_length` takes its rows from the recursive query of `cbm_store_bfs`:
pairs of a node and a number of hops, at least one hop and at most 100 rows.  The
query follows an undirected relationship outwards only, and CALLS where no type
is given; `RelPattern.followed` is the relationship it follows.
-/

namespace CodebaseMemory
namespace Cypher

open Lib
open Sqlite (CStr bytesOf)

section Walks

variable (s : Store)

def Step (rel : RelPattern) (x y : Int) : Prop :=
  ∃ inbound, ∃ e ∈ s.edges, follows rel x inbound e = true ∧ farEnd inbound e = y

/-- A walk of a given length from a node. -/
def Walk (rel : RelPattern) (src : Int) : Nat → Int → Prop
  | 0, y => y = src
  | k + 1, y => ∃ x, Walk rel src k x ∧ Step s rel x y

/-- The node is at the end of a walk whose length the relationship allows. -/
def Reached (rel : RelPattern) (src y : Int) : Prop :=
  ∃ k, rel.minHops ≤ k ∧ k ≤ rel.maxHops ∧ Walk s rel src k y

/-- The relationship that `cbm_store_bfs` follows. -/
def RelPattern.followed (rel : RelPattern) : RelPattern where
  var := rel.var
  types := if rel.types = [] then [bytesOf "CALLS"] else rel.types
  direction := if rel.direction = .inbound then .inbound else .outbound
  minHops := rel.minHops
  maxHops := rel.maxHops

def RelPattern.depth (rel : RelPattern) : Nat :=
  if rel.maxHops > 0 then rel.maxHops else cypMaxDepth

/-- The node is at the end of a walk of this length, which the traversal finds. -/
def FoundAt (rel : RelPattern) (src y : Int) (k : Nat) : Prop :=
  rel.minHops ≤ k ∧ 1 ≤ k ∧ k ≤ rel.depth ∧ Walk s rel.followed src k y

end Walks

section Levels

variable {s : Store}
variable {rel : RelPattern}

theorem follows_followed {x : Int} {inbound : Bool} {e : Edge} :
    follows rel.followed x inbound e = true ↔
      inbound = decide (rel.direction = .inbound) ∧ e.type ∈ rel.followed.types ∧
        (if inbound then e.targetId else e.sourceId) = x := by
  have htypes : rel.followed.types ≠ [] := by
    change (if rel.types = [] then [bytesOf "CALLS"] else rel.types) ≠ []
    split
    · simp
    · assumption
  have hway : (if inbound then decide (rel.followed.direction ≠ .outbound)
      else decide (rel.followed.direction ≠ .inbound)) = true ↔
        inbound = decide (rel.direction = .inbound) := by
    change (if inbound then decide ((if rel.direction = .inbound then Direction.inbound
        else .outbound) ≠ .outbound) else decide ((if rel.direction = .inbound
          then Direction.inbound else .outbound) ≠ .inbound)) = true ↔ _
    by_cases hin : rel.direction = .inbound <;> cases inbound <;> simp [hin]
  unfold follows
  rw [Bool.and_eq_true, Bool.and_eq_true, hway]
  simp only [htypes, Bool.or_eq_true, decide_eq_true_eq, false_or]
  tauto

theorem mem_bfsNext {x y : Int} :
    y ∈ bfsNext s (rel.direction = .inbound) rel.followed.types x ↔
      Step s rel.followed x y := by
  unfold bfsNext Step
  simp only [List.mem_map, List.mem_filter, Bool.and_eq_true, follows_followed, farEnd]
  constructor
  · rintro ⟨e, ⟨he, hsrc, htype⟩, rfl⟩
    exact ⟨_, e, he, ⟨rfl, of_decide_eq_true htype, of_decide_eq_true hsrc⟩, rfl⟩
  · rintro ⟨inbound, e, he, ⟨rfl, htype, hsrc⟩, rfl⟩
    exact ⟨e, ⟨he, decide_eq_true hsrc, decide_eq_true htype⟩, rfl⟩

theorem mem_bfsLevel {src : Int} (k : Nat) :
    ∀ {y : Int}, y ∈ bfsLevel s (rel.direction = .inbound) rel.followed.types src k ↔
      Walk s rel.followed src k y := by
  induction k with
  | zero =>
      intro y
      exact List.mem_singleton
  | succ k ih =>
      intro y
      rw [bfsLevel, List.mem_dedup, List.mem_flatMap]
      simp only [ih, mem_bfsNext]
      rfl

theorem nodup_bfsLevel (src : Int) (k : Nat) :
    (bfsLevel s (rel.direction = .inbound) rel.followed.types src k).Nodup := by
  cases k with
  | zero => exact List.nodup_singleton _
  | succ k => exact List.nodup_dedup _

end Levels

section Rows

variable (lib : Libc)
variable (s : Store)

def levelNodes (rel : RelPattern) (src : Int) (k : Nat) : List Node :=
  (bfsLevel s (rel.direction = .inbound) rel.followed.types src k).filterMap s.findNodeById

/-- The rows before LIMIT. -/
def hopRows (rel : RelPattern) (src : Int) : List (Node × Nat) :=
  (List.range rel.depth).flatMap fun h =>
    (levelNodes s rel src (h + 1)).map fun n => (n, h + 1)

/-- The nodes that the target is bound to. -/
def hopTargets (rel : RelPattern) (target : NodePattern) (src : Int) : List Node :=
  (hopRows s rel src).filterMap fun hop =>
    if hop.2 < rel.minHops || !matchesTarget lib s target hop.1 then none else some hop.1

variable {lib}
variable {s}
variable {rel : RelPattern}
variable {target : NodePattern}

theorem varLengthRows_eq {src : Node} (hsrc : src ∈ s.nodes)
    (hfew : (hopRows s rel src.id).length ≤ 100) : varLengthRows s rel src = hopRows s rel src.id := by
  have hfind : s.findNodeById src.id = some src := Store.findNodeById_eq_some.mpr ⟨hsrc, rfl⟩
  unfold varLengthRows cbmStoreBfs
  rw [hfind]
  have hrows : ((List.range rel.depth).flatMap fun h =>
      (bfsLevel s (rel.direction = .inbound) rel.followed.types src.id (h + 1)).filterMap fun id =>
        (s.findNodeById id).map fun n => (n, h + 1)) = hopRows s rel src.id := by
    refine List.flatMap_congr fun h _ => ?_
    rw [levelNodes, List.map_filterMap]
  exact (congrArg (List.take 100) hrows).trans (List.take_of_length_le hfew)

theorem expandVarLength_eq {src : Node} {b : Binding} {toVar : CStr} (hsrc : src ∈ s.nodes)
    (hfew : (hopRows s rel src.id).length ≤ 100) :
    expandVarLength lib s none rel target b src toVar [] =
      (hopTargets lib s rel target src.id).map (bindingSet b toVar) := by
  unfold expandVarLength hopTargets
  rw [collect_eq, varLengthRows_eq hsrc hfew, List.map_filterMap]
  refine List.filterMap_congr fun hop _ => ?_
  unfold extendByHop
  split
  · rfl
  · rfl

theorem mem_levelNodes {src : Int} {k : Nat} {n : Node} :
    n ∈ levelNodes s rel src k ↔ n ∈ s.nodes ∧ Walk s rel.followed src k n.id := by
  simp only [levelNodes, List.mem_filterMap, mem_bfsLevel, Store.findNodeById_eq_some]
  constructor
  · rintro ⟨id, hwalk, hn, rfl⟩
    exact ⟨hn, hwalk⟩
  · rintro ⟨hn, hwalk⟩
    exact ⟨n.id, hwalk, hn, rfl⟩

theorem nodup_levelNodes (src : Int) (k : Nat) : (levelNodes s rel src k).Nodup := by
  refine (nodup_bfsLevel src k).filterMap ?_
  intro id id' n hn hn'
  exact (Store.findNodeById_eq_some.mp hn).2.symm.trans (Store.findNodeById_eq_some.mp hn').2

theorem mem_hopTargets {src : Int} {n : Node} :
    n ∈ hopTargets lib s rel target src ↔
      n ∈ s.nodes ∧ matchesTarget lib s target n = true ∧ ∃ k, FoundAt s rel src n.id k := by
  simp only [hopTargets, hopRows, List.mem_filterMap, List.mem_flatMap, List.mem_map,
    List.mem_range, mem_levelNodes]
  constructor
  · rintro ⟨hop, ⟨h, hh, m, ⟨hm, hwalk⟩, rfl⟩, hkeep⟩
    split at hkeep
    · cases hkeep
    · rename_i hok
      simp only [Bool.or_eq_true, decide_eq_true_eq, not_or, Nat.not_lt, Bool.not_eq_true',
        Bool.not_eq_false] at hok
      obtain rfl := Option.some.inj hkeep
      exact ⟨hm, hok.2, h + 1, hok.1, by omega, by omega, hwalk⟩
  · rintro ⟨hn, hmatch, k, hmin, hone, hmax, hwalk⟩
    refine ⟨(n, k), ⟨k - 1, by omega, n, ⟨hn, ?_⟩, ?_⟩, ?_⟩
    · rwa [Nat.sub_add_cancel hone]
    · rw [Nat.sub_add_cancel hone]
    · rw [hmatch]
      simp [Nat.not_lt.mpr hmin]

theorem nodup_hopTargets {src : Int} :
    (hopTargets lib s rel target src).Nodup ↔
      ∀ n ∈ s.nodes, matchesTarget lib s target n = true →
        ∀ k k', FoundAt s rel src n.id k → FoundAt s rel src n.id k' → k = k' := by
  have hlevels : hopTargets lib s rel target src = (List.range rel.depth).flatMap fun h =>
      if h + 1 < rel.minHops then []
      else (levelNodes s rel src (h + 1)).filter (matchesTarget lib s target) := by
    unfold hopTargets hopRows
    rw [List.filterMap_flatMap]
    refine List.flatMap_congr fun h _ => ?_
    rw [List.filterMap_map]
    by_cases hmin : h + 1 < rel.minHops
    · simp [hmin]
    · rw [if_neg hmin, ← List.filterMap_eq_filter]
      refine List.filterMap_congr fun n _ => ?_
      cases hmatch : matchesTarget lib s target n <;> simp [hmin, hmatch, Option.guard]
  have hmem : ∀ h n, n ∈ (if h + 1 < rel.minHops then []
      else (levelNodes s rel src (h + 1)).filter (matchesTarget lib s target)) ↔
        rel.minHops ≤ h + 1 ∧ n ∈ s.nodes ∧ matchesTarget lib s target n = true ∧
          Walk s rel.followed src (h + 1) n.id := by
    intro h n
    split
    · rename_i hmin
      simp only [List.not_mem_nil, false_iff, not_and]
      omega
    · rename_i hmin
      rw [List.mem_filter, mem_levelNodes]
      have hle : rel.minHops ≤ h + 1 := by omega
      tauto
  rw [hlevels, List.nodup_flatMap]
  constructor
  · rintro ⟨-, hdisjoint⟩ n hn hmatch k k' hk hk'
    by_contra hne
    obtain ⟨hmin, hone, hmax, hwalk⟩ := hk
    obtain ⟨hmin', hone', hmax', hwalk'⟩ := hk'
    have : Std.Symm (Function.onFun List.Disjoint fun h => if h + 1 < rel.minHops then []
        else (levelNodes s rel src (h + 1)).filter (matchesTarget lib s target)) :=
      ⟨fun _ _ h => List.Disjoint.symm h⟩
    have hk : k - 1 ∈ List.range rel.depth := List.mem_range.mpr (by omega)
    have hk' : k' - 1 ∈ List.range rel.depth := List.mem_range.mpr (by omega)
    have hapart := hdisjoint.forall hk hk' (by omega)
    refine hapart ((hmem (k - 1) n).mpr ?_) ((hmem (k' - 1) n).mpr ?_)
    · rw [Nat.sub_add_cancel hone]
      exact ⟨hmin, hn, hmatch, hwalk⟩
    · rw [Nat.sub_add_cancel hone']
      exact ⟨hmin', hn, hmatch, hwalk'⟩
  · intro honce
    refine ⟨fun h _ => ?_, ?_⟩
    · split
      · exact List.nodup_nil
      · exact (nodup_levelNodes src (h + 1)).filter _
    · refine List.nodup_range.pairwise_of_forall_ne fun h hh h' hh' hne n hn hn' => ?_
      obtain ⟨hmin, hnode, hmatch, hwalk⟩ := (hmem h n).mp hn
      obtain ⟨hmin', -, -, hwalk'⟩ := (hmem h' n).mp hn'
      have hlt := List.mem_range.mp hh
      have hlt' := List.mem_range.mp hh'
      have hsame := honce n hnode hmatch (h + 1) (h' + 1) ⟨hmin, by omega, by omega, hwalk⟩
        ⟨hmin', by omega, by omega, hwalk'⟩
      omega

end Rows

section Bound

def boundNodes (toVar : CStr) (bindings : List Binding) : List (Option Node) :=
  bindings.map fun b => bindingGet b toVar

variable (lib : Libc)
variable (s : Store)

def BoundOnce (rel : RelPattern) (target : NodePattern) (src : Node) (nodes : List (Option Node)) :
    Prop :=
  ∃ l : List Node, l.Nodup ∧
    (∀ n, n ∈ l ↔ n ∈ s.nodes ∧ matchesTarget lib s target n = true ∧ Reached s rel src.id n.id) ∧
    nodes = l.map some

/-- No node is found at two lengths, and the nodes that are found are the ones that
the walks lead to. -/
def FoundAsWalked (rel : RelPattern) (target : NodePattern) (src : Node) : Prop :=
  ∀ n ∈ s.nodes, matchesTarget lib s target n = true →
    (∀ k k', FoundAt s rel src.id n.id k → FoundAt s rel src.id n.id k' → k = k') ∧
      ((∃ k, FoundAt s rel src.id n.id k) ↔ Reached s rel src.id n.id)

variable {lib}
variable {s}
variable {rel : RelPattern}
variable {target : NodePattern}
variable {src : Node}
variable {b : Binding}
variable {toVar : CStr}

theorem boundNodes_var (hroom : HasSlot cypMaxVars b.vars toVar) (hsrc : src ∈ s.nodes)
    (hfew : (hopRows s rel src.id).length ≤ 100) :
    boundNodes toVar (expandVarLength lib s none rel target b src toVar []) =
      (hopTargets lib s rel target src.id).map some := by
  rw [expandVarLength_eq hsrc hfew, boundNodes, List.map_map]
  exact List.map_congr_left fun n _ => slot_setSlot_self n hroom

theorem boundOnce_iff :
    BoundOnce lib s rel target src ((hopTargets lib s rel target src.id).map some) ↔
      FoundAsWalked lib s rel target src := by
  have hmem : (∀ n, n ∈ hopTargets lib s rel target src.id ↔
      n ∈ s.nodes ∧ matchesTarget lib s target n = true ∧ Reached s rel src.id n.id) ↔
        ∀ n ∈ s.nodes, matchesTarget lib s target n = true →
          ((∃ k, FoundAt s rel src.id n.id k) ↔ Reached s rel src.id n.id) := by
    simp only [mem_hopTargets]
    constructor
    · intro h n hn hmatch
      have hiff := h n
      simp only [hn, hmatch, true_and] at hiff
      exact hiff
    · intro h n
      constructor
      · rintro ⟨hn, hmatch, hk⟩
        exact ⟨hn, hmatch, (h n hn hmatch).mp hk⟩
      · rintro ⟨hn, hmatch, hk⟩
        exact ⟨hn, hmatch, (h n hn hmatch).mpr hk⟩
  constructor
  · rintro ⟨l, hnodup, hl, heq⟩
    obtain rfl := (List.map_injective_iff.mpr (Option.some_injective Node)) heq
    intro n hn hmatch
    exact ⟨nodup_hopTargets.mp hnodup n hn hmatch, hmem.mp hl n hn hmatch⟩
  · intro h
    refine ⟨_, nodup_hopTargets.mpr fun n hn hmatch => (h n hn hmatch).1, ?_, rfl⟩
    exact hmem.mpr fun n hn hmatch => (h n hn hmatch).2

theorem mem_boundNodes_fixed (hroom : HasSlot cypMaxVars b.vars toVar) {n : Node} :
    some n ∈ boundNodes toVar (expandFixedLength lib s none rel target b src toVar []) ↔
      n ∈ s.nodes ∧ matchesTarget lib s target n = true ∧ Step s rel src.id n.id := by
  rw [expandFixedLength_eq, boundNodes]
  change some n ∈ List.map _ (List.filterMap _ _) ↔ _
  simp only [List.mem_map, List.mem_filterMap, mem_fixedWays, extendByEdge_eq_some]
  constructor
  · rintro ⟨c, ⟨way, ⟨he, hfollows⟩, m, hm, hmatch, rfl⟩, hget⟩
    rw [bindingGet_bindingSetEdge] at hget
    obtain rfl := Option.some.inj ((slot_setSlot_self m hroom).symm.trans hget)
    obtain ⟨hnode, hid⟩ := Store.findNodeById_eq_some.mp hm
    exact ⟨hnode, hmatch, way.1, way.2, he, hfollows, hid.symm⟩
  · rintro ⟨hn, hmatch, inbound, e, he, hfollows, hid⟩
    refine ⟨_, ⟨(inbound, e), ⟨he, hfollows⟩, n, ?_, hmatch, rfl⟩, ?_⟩
    · exact Store.findNodeById_eq_some.mpr ⟨hn, hid.symm⟩
    · rw [bindingGet_bindingSetEdge]
      exact slot_setSlot_self n hroom

theorem followed_eq (hdir : rel.direction ≠ .any) (htypes : rel.types ≠ []) :
    rel.followed = rel := by
  obtain ⟨var, types, direction, minHops, maxHops⟩ := rel
  have hway : (if direction = .inbound then Direction.inbound else .outbound) = direction := by
    cases direction with
    | outbound => rfl
    | inbound => rfl
    | any => exact absurd rfl hdir
  unfold RelPattern.followed
  dsimp only at htypes ⊢
  rw [if_neg htypes, hway]

theorem reached_oneHop (hmin : rel.minHops = 1) (hmax : rel.maxHops = 1) {y : Int} :
    Reached s rel src.id y ↔ Step s rel src.id y := by
  constructor
  · rintro ⟨k, hk, hk', hwalk⟩
    obtain rfl : k = 1 := by omega
    obtain ⟨x, rfl, hstep⟩ := hwalk
    exact hstep
  · intro hstep
    exact ⟨1, by omega, by omega, src.id, rfl, hstep⟩

theorem foundAsWalked_oneHop (hroom : HasSlot cypMaxVars b.vars toVar) (hmin : rel.minHops = 1)
    (hmax : rel.maxHops = 1) :
    FoundAsWalked lib s rel target src ↔
      ∀ n, some n ∈ (hopTargets lib s rel target src.id).map some ↔
        some n ∈ boundNodes toVar (expandFixedLength lib s none rel target b src toVar []) := by
  have hdepth : rel.depth = 1 := by rw [RelPattern.depth, hmax]; rfl
  have hiff : ∀ n, (some n ∈ (hopTargets lib s rel target src.id).map some ↔
      some n ∈ boundNodes toVar (expandFixedLength lib s none rel target b src toVar [])) ↔
        (n ∈ s.nodes → matchesTarget lib s target n = true →
          ((∃ k, FoundAt s rel src.id n.id k) ↔ Reached s rel src.id n.id)) := by
    intro n
    rw [List.mem_map, mem_boundNodes_fixed hroom, ← reached_oneHop hmin hmax]
    simp only [Option.some.injEq, exists_eq_right, mem_hopTargets]
    tauto
  simp only [hiff]
  constructor
  · intro h n hn hmatch
    exact (h n hn hmatch).2
  · intro h n hn hmatch
    refine ⟨?_, h n hn hmatch⟩
    rintro k k' ⟨-, hk, hk', -⟩ ⟨-, hk2, hk2', -⟩
    omega

theorem foundAsWalked_directed (hdir : rel.direction ≠ .any) (htypes : rel.types ≠ [])
    (hmin : 1 ≤ rel.minHops) (hle : rel.minHops ≤ rel.maxHops) :
    FoundAsWalked lib s rel target src ↔
      ∀ n ∈ s.nodes, matchesTarget lib s target n = true → ∀ k k', rel.minHops ≤ k →
        k ≤ rel.maxHops → rel.minHops ≤ k' → k' ≤ rel.maxHops → Walk s rel src.id k n.id →
        Walk s rel src.id k' n.id → k = k' := by
  have hdepth : rel.depth = rel.maxHops := by
    rw [RelPattern.depth, if_pos (by omega)]
  have hfound : ∀ y k, FoundAt s rel src.id y k ↔
      rel.minHops ≤ k ∧ k ≤ rel.maxHops ∧ Walk s rel src.id k y := by
    intro y k
    unfold FoundAt
    rw [followed_eq hdir htypes, hdepth]
    constructor
    · rintro ⟨h1, -, h2, h3⟩
      exact ⟨h1, h2, h3⟩
    · rintro ⟨h1, h2, h3⟩
      exact ⟨h1, by omega, h2, h3⟩
  constructor
  · intro h n hn hmatch k k' hk1 hk2 hk1' hk2' hwalk hwalk'
    exact (h n hn hmatch).1 k k' ((hfound _ _).mpr ⟨hk1, hk2, hwalk⟩)
      ((hfound _ _).mpr ⟨hk1', hk2', hwalk'⟩)
  · intro h n hn hmatch
    refine ⟨fun k k' hk hk' => ?_, ?_⟩
    · obtain ⟨hk1, hk2, hwalk⟩ := (hfound _ _).mp hk
      obtain ⟨hk1', hk2', hwalk'⟩ := (hfound _ _).mp hk'
      exact h n hn hmatch k k' hk1 hk2 hk1' hk2' hwalk hwalk'
    · unfold Reached
      simp only [hfound]

end Bound

/-- Two functions and one edge from the first. -/
def singleStore (type : String) (target : Nat) : Store where
  nodes := [chainNode 1, chainNode 2]
  edges := [{ id := 1, sourceId := 1, targetId := target, type := bytesOf type,
              propertiesJson := some [] }]
  nodeIds := by decide
  edgeKeys := List.nodup_singleton _

/-- `-[:types*minHops..maxHops]-`. -/
def hopsOf (types : List String) (direction : Direction) (minHops maxHops : Nat) :
    RelPattern where
  var := none
  types := types.map bytesOf
  direction := direction
  minHops := minHops
  maxHops := maxHops

theorem step_singleCall {m n : Nat} {x y : Int}
    (hstep : Step (singleStore "CALLS" 2) (hopsOf ["CALLS"] .outbound m n) x y) :
    x = 1 ∧ y = 2 := by
  obtain ⟨inbound, e, he, hfollows, hfar⟩ := hstep
  obtain rfl := List.mem_singleton.mp he
  cases inbound with
  | false =>
      simp only [follows, Bool.and_eq_true] at hfollows
      exact ⟨(of_decide_eq_true hfollows.2).symm, hfar.symm⟩
  | true => simp [follows, hopsOf] at hfollows

theorem not_boundOnce_nil {lib : Libc} {s : Store} {rel : RelPattern} {target : NodePattern}
    {src n : Node} (hn : n ∈ s.nodes) (hmatch : matchesTarget lib s target n = true)
    (hreached : Reached s rel src.id n.id) : ¬ BoundOnce lib s rel target src [] := by
  rintro ⟨l, -, hl, hnil⟩
  have hmem := (hl n).mpr ⟨hn, hmatch, hreached⟩
  rw [List.map_eq_nil_iff.mp hnil.symm] at hmem
  cases hmem

end Cypher
end CodebaseMemory
