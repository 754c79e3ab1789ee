import CodebaseMemory.Cypher.Expand
import Mathlib.Data.List.Perm.Basic
import Mathlib.Data.List.Flatten

/-!
# Patterns with one relationship

The bindings of `(a:L {..})-[:T1|T2]->(b:M {..})`.  The scan for the first node
stops at ten times `max_rows` nodes if there is no label, and finds nothing for a
label without a project; the expansion stops at ten times the number of scanned
nodes.
-/

namespace CodebaseMemory
namespace Cypher

open Lib
open Sqlite (CStr bytesOf)

structure OneRel where
  start : NodePattern
  rel : RelPattern
  target : NodePattern

/-- The query that consists of the pattern. -/
def OneRel.query (p : OneRel) : Query where
  first := { start := p.start, steps := [(p.rel, p.target)] }
  firstOptional := false
  more := []
  whereClause := none

/-- The relationship is one hop, its types and the labels of the first node are
different, and so are the two variables. -/
structure OneRel.Proper (p : OneRel) : Prop where
  fixedLength : p.rel.isVariableLength = false
  types : p.rel.types.Nodup
  labels : ∀ label, p.start.label = some label →
    (label.splitOn bar).Nodup ∧ [] ∉ label.splitOn bar
  vars : p.query.startVar ≠ p.target.toVar

/-- A way from one node to another. -/
structure Match where
  start : Node
  inbound : Bool
  edge : Edge
  stop : Node
deriving DecidableEq

section Matches

variable (lib : Libc)
variable (s : Store)
variable (project : Option CStr)

/-- The nodes that a query is about; without a project, all. -/
def inScope (n : Node) : Bool :=
  project.isNone || Store.inProject project n

structure OneRel.IsMatch (p : OneRel) (m : Match) : Prop where
  start_mem : m.start ∈ s.nodes
  inScope : inScope project m.start = true
  start : matchesTarget lib s p.start m.start = true
  edge_mem : m.edge ∈ s.edges
  follows : follows p.rel m.start.id m.inbound m.edge = true
  stop_mem : s.findNodeById (farEnd m.inbound m.edge) = some m.stop
  stop : matchesTarget lib s p.target m.stop = true

def OneRel.startNodes (p : OneRel) : List Node :=
  s.nodes.filter fun n => inScope project n && matchesTarget lib s p.start n

def OneRel.matchOf (p : OneRel) (n : Node) (inbound : Bool) (e : Edge) : Option Match :=
  match s.findNodeById (farEnd inbound e) with
  | none => none
  | some stop => if matchesTarget lib s p.target stop then some ⟨n, inbound, e, stop⟩ else none

/-- The edges that the relationship allows from a node, with the way they are
followed. -/
def OneRel.ways (p : OneRel) (n : Node) : List (Bool × Edge) :=
  [false, true].flatMap fun inbound =>
    (s.edges.filter (Cypher.follows p.rel n.id inbound)).map fun e => (inbound, e)

def OneRel.matchesFrom (p : OneRel) (n : Node) : List Match :=
  (p.ways s n).filterMap fun way => p.matchOf lib s n way.1 way.2

def OneRel.allMatches (p : OneRel) : List Match :=
  (p.startNodes lib s project).flatMap (p.matchesFrom lib s)

def OneRel.bindingOf (p : OneRel) (m : Match) : Binding :=
  bindingSetEdge
    (bindingSet (bindingSet Binding.empty p.query.startVar m.start) p.target.toVar m.stop)
    p.rel.var m.edge

def OneRel.FoundOnce (p : OneRel) (bindings : List Binding) : Prop :=
  ∃ l : List Match, l.Nodup ∧ (∀ m, m ∈ l ↔ p.IsMatch lib s project m) ∧
    bindings = l.map p.bindingOf

/-- The scan can get to the node: for a label there has to be a project, and
without a label the node has to be among the first ten times `max_rows` by name. -/
def OneRel.inReach (p : OneRel) (maxRows : Nat) (n : Node) : Bool :=
  match p.start.label with
  | some _ => project.isSome
  | none => n ∈ s.search project (some (maxRows * 10))

end Matches

section Members

variable {lib : Libc}
variable {s : Store}
variable {project : Option CStr}
variable {p : OneRel}

theorem matchOf_eq_some {n : Node} {inbound : Bool} {e : Edge} {m : Match} :
    p.matchOf lib s n inbound e = some m ↔
      m.start = n ∧ m.inbound = inbound ∧ m.edge = e ∧
        s.findNodeById (farEnd inbound e) = some m.stop ∧
        matchesTarget lib s p.target m.stop = true := by
  obtain ⟨start, way, edge, stop⟩ := m
  unfold OneRel.matchOf
  cases hfind : s.findNodeById (farEnd inbound e) with
  | none => simp
  | some found =>
      dsimp only
      split
      · rename_i hmatch
        simp only [Option.some.injEq, Match.mk.injEq]
        constructor
        · rintro ⟨rfl, rfl, rfl, rfl⟩
          exact ⟨rfl, rfl, rfl, rfl, hmatch⟩
        · rintro ⟨rfl, rfl, rfl, rfl, _⟩
          exact ⟨rfl, rfl, rfl, rfl⟩
      · rename_i hmatch
        simp only [reduceCtorEq, false_iff]
        rintro ⟨_, _, _, hstop, hok⟩
        rw [Option.some.inj hstop] at hmatch
        exact hmatch hok

theorem mem_startNodes {n : Node} :
    n ∈ p.startNodes lib s project ↔
      n ∈ s.nodes ∧ inScope project n = true ∧ matchesTarget lib s p.start n = true := by
  simp [OneRel.startNodes]

theorem mem_ways {n : Node} {way : Bool × Edge} :
    way ∈ p.ways s n ↔ way.2 ∈ s.edges ∧ follows p.rel n.id way.1 way.2 = true := by
  obtain ⟨inbound, e⟩ := way
  cases inbound <;> simp [OneRel.ways]

theorem mem_allMatches {m : Match} :
    m ∈ p.allMatches lib s project ↔ p.IsMatch lib s project m := by
  simp only [OneRel.allMatches, OneRel.matchesFrom, List.mem_flatMap, List.mem_filterMap,
    matchOf_eq_some, mem_startNodes, mem_ways]
  constructor
  · rintro ⟨n, ⟨hn, hscope, hstart⟩, way, ⟨he, hfollows⟩, rfl, hin, hedge, hstop, hok⟩
    rw [← hin, ← hedge] at hfollows hstop
    exact ⟨hn, hscope, hstart, hedge ▸ he, hfollows, hstop, hok⟩
  · intro h
    exact ⟨m.start, ⟨h.start_mem, h.inScope, h.start⟩, (m.inbound, m.edge),
      ⟨h.edge_mem, h.follows⟩, rfl, rfl, rfl, h.stop_mem, h.stop⟩

end Members

section Once

variable {lib : Libc}
variable {s : Store}
variable {project : Option CStr}
variable {p : OneRel}

theorem Store.nodup_nodes (s : Store) : s.nodes.Nodup :=
  List.Nodup.of_map _ s.nodeIds

theorem Store.nodup_edges (s : Store) : s.edges.Nodup :=
  List.Nodup.of_map _ s.edgeKeys

theorem nodup_ways (n : Node) : (p.ways s n).Nodup := by
  have hpart : ∀ inbound : Bool,
      ((s.edges.filter (follows p.rel n.id inbound)).map fun e => (inbound, e)).Nodup :=
    fun inbound => (s.nodup_edges.filter _).map fun _ _ h => (Prod.mk.inj h).2
  refine List.nodup_flatMap.mpr ⟨fun inbound _ => hpart inbound, ?_⟩
  simp [List.disjoint_left, Function.onFun]

theorem nodup_matchesFrom (n : Node) : (p.matchesFrom lib s n).Nodup := by
  refine (nodup_ways n).filterMap ?_
  intro way way' m hm hm'
  obtain ⟨-, hin, hedge, -, -⟩ := matchOf_eq_some.mp hm
  obtain ⟨-, hin', hedge', -, -⟩ := matchOf_eq_some.mp hm'
  exact Prod.ext (hin.symm.trans hin') (hedge.symm.trans hedge')

theorem start_of_mem_matchesFrom {n : Node} {m : Match} (hm : m ∈ p.matchesFrom lib s n) :
    m.start = n := by
  obtain ⟨way, -, hway⟩ := List.mem_filterMap.mp hm
  exact (matchOf_eq_some.mp hway).1

theorem nodup_allMatches : (p.allMatches lib s project).Nodup := by
  refine List.nodup_flatMap.mpr ⟨fun n _ => nodup_matchesFrom n, ?_⟩
  refine (s.nodup_nodes.filter _).imp ?_
  intro n n' hne m hm hm'
  exact hne ((start_of_mem_matchesFrom hm).symm.trans (start_of_mem_matchesFrom hm'))

theorem nodup_oneWay {rel : RelPattern} (htypes : rel.types.Nodup) (src : Int) (inbound : Bool) :
    (oneWay s rel src inbound).Nodup := by
  unfold oneWay
  split
  · cases inbound <;> exact s.nodup_edges.filter _
  · refine List.nodup_flatMap.mpr ⟨?_, htypes.imp ?_⟩
    · intro t _
      cases inbound <;> exact s.nodup_edges.filter _
    · -- an edge has one type
      intro t t' hne e he he'
      cases inbound <;>
        simp [Store.findEdgesBySourceType, Store.findEdgesByTargetType] at he he' <;>
        exact hne (he.2.2.symm.trans he'.2.2)

theorem nodup_fixedWays {rel : RelPattern} (htypes : rel.types.Nodup) (src : Int) :
    (fixedWays s rel src).Nodup := by
  have hmap : ∀ inbound : Bool,
      ((oneWay s rel src inbound).map fun e => (inbound, e)).Nodup := fun inbound =>
    (nodup_oneWay htypes src inbound).map fun _ _ h => (Prod.mk.inj h).2
  rw [fixedWays_eq]
  refine List.nodup_append.mpr ⟨hmap _, ?_, ?_⟩
  · split
    · exact hmap true
    · exact List.nodup_nil
  · intro w hw w' hw' heq
    cases hdir : rel.direction <;> simp [hdir] at hw hw'
    obtain ⟨_, _, rfl⟩ := hw
    obtain ⟨_, _, rfl⟩ := hw'
    exact Bool.false_ne_true (Prod.mk.inj heq).1

theorem fixedWays_perm (hp : p.Proper) (n : Node) :
    (fixedWays s p.rel n.id).Perm (p.ways s n) := by
  refine (List.perm_ext_iff_of_nodup (nodup_fixedWays hp.types n.id) (nodup_ways n)).mpr ?_
  intro way
  rw [mem_fixedWays, mem_ways]

end Once

section Scan

variable {lib : Libc}
variable {s : Store}
variable {project : Option CStr}
variable {p : OneRel}

theorem search_perm (s : Store) (project : Option CStr) :
    (s.search project none).Perm (s.nodes.filter (inScope project)) :=
  List.mergeSort_perm _ _

theorem search_sublist (s : Store) (project : Option CStr) (k : Nat) :
    (s.search project (some k)).Sublist (s.search project none) :=
  List.take_sublist _ _

theorem inProject_iff {n : Node} :
    Store.inProject project n = true ↔ project.isSome = true ∧ inScope project n = true := by
  cases project with
  | none => simp [Store.inProject]
  | some name => simp [Store.inProject, inScope]

theorem altSegments_eq {label : CStr} (hlabel : [] ∉ label.splitOn bar) :
    altSegments label = label.splitOn bar := by
  unfold altSegments
  refine if_neg fun hlast => hlabel ?_
  exact List.mem_of_getLast? hlast

theorem mem_labelScan {label : CStr} (hlabel : [] ∉ label.splitOn bar) {n : Node} :
    n ∈ (if bar ∈ label then scanAlternationLabels s project label
        else s.findNodesByLabel project label) ↔
      n ∈ s.nodes ∧ Store.inProject project n = true ∧ labelAltMatches n.label label = true := by
  unfold labelAltMatches
  by_cases hbar : bar ∈ label
  · rw [if_pos hbar, scanAlternationLabels, altSegments_eq hlabel]
    simp only [List.mem_flatMap, List.mem_filter, Store.findNodesByLabel]
    cases hn : n.label with
    | none => simp
    | some a =>
        simp only [if_pos hbar, decide_eq_true_eq, Bool.and_eq_true, Option.some.injEq]
        constructor
        · rintro ⟨seg, ⟨hseg, -⟩, hmem, hproj, rfl⟩
          exact ⟨hmem, hproj, hseg⟩
        · rintro ⟨hmem, hproj, hseg⟩
          refine ⟨a, ⟨hseg, ?_⟩, hmem, hproj, rfl⟩
          rintro rfl
          exact hlabel hseg
  · rw [if_neg hbar, Store.findNodesByLabel, List.mem_filter]
    cases hn : n.label with
    | none => simp
    | some a => simp [hbar]

theorem nodup_labelScan {label : CStr} (hlabel : (label.splitOn bar).Nodup) :
    (if bar ∈ label then scanAlternationLabels s project label
      else s.findNodesByLabel project label).Nodup := by
  split
  · refine List.nodup_flatMap.mpr ⟨fun _ _ => s.nodup_nodes.filter _, (hlabel.filter _).imp ?_⟩
    intro l l' hne n hn hn'
    simp only [Store.findNodesByLabel, List.mem_filter, Bool.and_eq_true,
      decide_eq_true_eq] at hn hn'
    exact hne (Option.some.inj (hn.2.2.symm.trans hn'.2.2))
  · exact s.nodup_nodes.filter _

theorem mem_scanned (hp : p.Proper) {maxRows : Nat} {n : Node} :
    n ∈ p.query.scanned lib s (some 10) project maxRows ↔
      n ∈ p.startNodes lib s project ∧ p.inReach s project maxRows n = true := by
  unfold Query.scanned scanPatternNodes OneRel.inReach
  change n ∈ List.filter _ (match p.start.label with
    | some label => if bar ∈ label then scanAlternationLabels s project label
        else s.findNodesByLabel project label
    | none => s.search project (some (maxRows * 10))) ↔ _
  rw [List.mem_filter, mem_startNodes]
  unfold matchesTarget
  cases hlabel : p.start.label with
  | none =>
      have hfound : n ∈ s.search project (some (maxRows * 10)) →
          n ∈ s.nodes ∧ inScope project n = true := by
        intro hn
        have hall := (search_perm s project).mem_iff.mp ((search_sublist s project _).subset hn)
        exact List.mem_filter.mp hall
      simp only [Bool.true_and, decide_eq_true_eq]
      constructor
      · rintro ⟨hn, hprops⟩
        exact ⟨⟨(hfound hn).1, (hfound hn).2, hprops⟩, hn⟩
      · rintro ⟨⟨_, _, hprops⟩, hn⟩
        exact ⟨hn, hprops⟩
  | some label =>
      dsimp only
      rw [mem_labelScan (hp.labels label hlabel).2, inProject_iff, Bool.and_eq_true]
      tauto

theorem nodup_scanned (hp : p.Proper) (maxRows : Nat) :
    (p.query.scanned lib s (some 10) project maxRows).Nodup := by
  refine List.Nodup.filter _ ?_
  change List.Nodup (match p.start.label with
    | some label => if bar ∈ label then scanAlternationLabels s project label
        else s.findNodesByLabel project label
    | none => s.search project (some (maxRows * 10)))
  cases hlabel : p.start.label with
  | none =>
      have hall : (s.search project none).Nodup :=
        (search_perm s project).nodup_iff.mpr (s.nodup_nodes.filter _)
      exact (search_sublist s project _).nodup hall
  | some label => exact nodup_labelScan (hp.labels label hlabel).1

theorem scanned_perm (lib : Libc) (s : Store) (project : Option CStr) (hp : p.Proper)
    (maxRows : Nat) :
    (p.query.scanned lib s (some 10) project maxRows).Perm
      ((p.startNodes lib s project).filter (p.inReach s project maxRows)) := by
  refine (List.perm_ext_iff_of_nodup (nodup_scanned hp maxRows) ?_).mpr ?_
  · exact (s.nodup_nodes.filter _).filter _
  · intro n
    rw [mem_scanned hp, List.mem_filter]

end Scan

section Expansion

variable {lib : Libc}
variable {s : Store}
variable {project : Option CStr}
variable {p : OneRel}

/-- The matches from a node, in the order of `expand_fixed_length`. -/
def OneRel.foundFrom (lib : Libc) (s : Store) (p : OneRel) (n : Node) : List Match :=
  (fixedWays s p.rel n.id).filterMap fun way => p.matchOf lib s n way.1 way.2

theorem foundFrom_perm (hp : p.Proper) (n : Node) :
    (p.foundFrom lib s n).Perm (p.matchesFrom lib s n) :=
  (fixedWays_perm hp n).filterMap _

theorem extendByEdge_eq_map (n : Node) (inbound : Bool) (e : Edge) :
    extendByEdge lib s p.target (bindingSet Binding.empty p.query.startVar n) p.target.toVar
      p.rel.var inbound e = (p.matchOf lib s n inbound e).map p.bindingOf := by
  unfold extendByEdge OneRel.matchOf farEnd
  cases s.findNodeById (if inbound then e.sourceId else e.targetId) with
  | none => rfl
  | some stop =>
      dsimp only
      split
      · rfl
      · rfl

theorem stepMatches_startBinding (hp : p.Proper) (n : Node) :
    stepMatches lib s p.rel p.target p.query.startVar
        (bindingSet Binding.empty p.query.startVar n) =
      (p.foundFrom lib s n).map p.bindingOf := by
  have hstart : bindingGet (bindingSet Binding.empty p.query.startVar n) p.query.startVar =
      some n := by rw [bindingGet_startBinding, if_pos rfl]
  unfold stepMatches OneRel.foundFrom
  rw [hstart, List.map_filterMap]
  simp only [hp.fixedLength, Bool.false_eq_true, if_false, extendByEdge_eq_map]

/-- The matches of the scanned nodes, as they are found. -/
def OneRel.found (lib : Libc) (s : Store) (project : Option CStr) (p : OneRel) (maxRows : Nat) :
    List Match :=
  (p.query.scanned lib s (some 10) project maxRows).flatMap (p.foundFrom lib s)

theorem found_perm (lib : Libc) (s : Store) (project : Option CStr) (hp : p.Proper)
    (maxRows : Nat) :
    (p.found lib s project maxRows).Perm
      (((p.startNodes lib s project).filter (p.inReach s project maxRows)).flatMap
        (p.matchesFrom lib s)) := by
  refine ((scanned_perm lib s project hp maxRows).flatMap_right _).trans ?_
  exact List.Perm.flatMap_left _ fun n _ => foundFrom_perm hp n

theorem execute_oneRel (hp : p.Proper) (maxRows : Nat) :
    p.query.execute lib s (some 10) project maxRows =
      ((p.found lib s project maxRows).take
        (10 * (p.query.scanned lib s (some 10) project maxRows).length)).map p.bindingOf := by
  have hpass : p.query.passes lib s = fun _ => true := rfl
  have hfound : (p.query.startBindings lib s (some 10) project maxRows).flatMap
      (stepMatches lib s p.rel p.target p.query.startVar) =
        (p.found lib s project maxRows).map p.bindingOf := by
    rw [Query.startBindings, List.flatMap_map, OneRel.found, List.map_flatMap]
    exact List.flatMap_congr fun n _ => stepMatches_startBinding hp n
  have hexpand : p.query.execute lib s (some 10) project maxRows =
      takeRoom (some ((if (p.query.scanned lib s (some 10) project maxRows).length > 0
        then (p.query.scanned lib s (some 10) project maxRows).length else 1) * 10)) 0
        ((p.found lib s project maxRows).map p.bindingOf) := by
    unfold Query.execute
    simp only [hpass, List.filter_true]
    rw [← hfound, ← foldl_expandBinding]
    rfl
  rw [hexpand, takeRoom, ← List.map_take, Nat.sub_zero]
  split
  · rw [Nat.mul_comm]
  · rename_i hnone
    have hnil : p.query.scanned lib s (some 10) project maxRows = [] :=
      List.length_eq_zero_iff.mp (by omega)
    simp [OneRel.found, hnil]

theorem mem_reached {maxRows : Nat} {m : Match} :
    m ∈ ((p.startNodes lib s project).filter (p.inReach s project maxRows)).flatMap
        (p.matchesFrom lib s) ↔
      m ∈ p.allMatches lib s project ∧ p.inReach s project maxRows m.start = true := by
  simp only [OneRel.allMatches, List.mem_flatMap, List.mem_filter]
  constructor
  · rintro ⟨n, ⟨hn, hreach⟩, hm⟩
    obtain rfl := start_of_mem_matchesFrom hm
    exact ⟨⟨m.start, hn, hm⟩, hreach⟩
  · rintro ⟨⟨n, hn, hm⟩, hreach⟩
    obtain rfl := start_of_mem_matchesFrom hm
    exact ⟨m.start, ⟨hn, hreach⟩, hm⟩

theorem OneRel.FoundOnce.length_eq {bindings : List Binding}
    (hfound : p.FoundOnce lib s project bindings) :
    bindings.length = (p.allMatches lib s project).length := by
  obtain ⟨l, hnodup, hmem, rfl⟩ := hfound
  have hall : l.Perm (p.allMatches lib s project) :=
    (List.perm_ext_iff_of_nodup hnodup nodup_allMatches).mpr fun m =>
      (hmem m).trans mem_allMatches.symm
  rw [List.length_map, hall.length_eq]

/-- Every match is found once if and only if every start node of a match is in
reach and there are at most ten matches to a start node. -/
theorem complete_iff (lib : Libc) (s : Store) (project : Option CStr) (maxRows : Nat)
    (p : OneRel) (hp : p.Proper) :
    p.FoundOnce lib s project (p.query.execute lib s (some 10) project maxRows) ↔
      (∀ m, p.IsMatch lib s project m → p.inReach s project maxRows m.start = true) ∧
        (p.allMatches lib s project).length ≤
          10 * ((p.startNodes lib s project).filter (p.inReach s project maxRows)).length := by
  have hscanned := (scanned_perm lib s project hp maxRows).length_eq
  have hperm := found_perm lib s project hp maxRows
  have hsub : (((p.startNodes lib s project).filter (p.inReach s project maxRows)).flatMap
      (p.matchesFrom lib s)).Sublist (p.allMatches lib s project) :=
    List.filter_sublist.flatMap _
  rw [execute_oneRel hp, hscanned]
  constructor
  · intro hfound
    have hlen := hfound.length_eq
    rw [List.length_map] at hlen
    rw [List.length_take, hperm.length_eq] at hlen
    refine ⟨fun m hm => ?_, by omega⟩
    -- as many matches are found as there are, so none is out of reach
    have hsame := hsub.eq_of_length_le (by omega)
    exact (mem_reached.mp (hsame ▸ mem_allMatches.mpr hm)).2
  · rintro ⟨hreach, hroom⟩
    have hall : (p.found lib s project maxRows).Perm (p.allMatches lib s project) := by
      refine hperm.trans ((List.perm_ext_iff_of_nodup ?_ nodup_allMatches).mpr fun m => ?_)
      · exact hsub.nodup nodup_allMatches
      · rw [mem_reached, and_iff_left_iff_imp]
        exact fun hm => hreach m (mem_allMatches.mp hm)
    refine ⟨p.found lib s project maxRows, hall.nodup_iff.mpr nodup_allMatches, ?_, ?_⟩
    · exact fun m => hall.mem_iff.trans mem_allMatches
    · rw [List.take_of_length_le]
      rw [hall.length_eq]
      exact hroom

end Expansion

/-- A node of the example, by its number. -/
def hubNode (label : String) (k : Nat) : Node where
  id := k
  project := some (bytesOf "p")
  label := some (bytesOf label)
  name := some (decimal k)
  qualifiedName := some (decimal k)
  filePath := some (bytesOf "f.py")
  startLine := 1
  endLine := 2
  propertiesJson := some []

def hubCall (k : Nat) : Edge where
  id := k
  sourceId := 0
  targetId := k
  type := bytesOf "CALLS"
  propertiesJson := some []

/-- A function that calls eleven methods. -/
def hubStore : Store where
  nodes := hubNode "Function" 0 :: (List.range' 1 11).map (hubNode "Method")
  edges := (List.range' 1 11).map hubCall
  nodeIds := by decide
  edgeKeys := by decide +kernel

/-- `(a:label)-[:CALLS]->(b)`, or the other way. -/
def hubPattern (label : String) (direction : Direction) : OneRel where
  start := { var := some (bytesOf "a"), label := some (bytesOf label), props := [] }
  rel := { var := none, types := [bytesOf "CALLS"], direction := direction, minHops := 1,
           maxHops := 1 }
  target := { var := some (bytesOf "b"), label := none, props := [] }

theorem proper_hubPattern : (hubPattern "Method" .inbound).Proper where
  fixedLength := rfl
  types := List.nodup_singleton _
  labels := by
    intro label hlabel
    obtain rfl := Option.some.inj hlabel
    decide +kernel
  vars := by decide +kernel

theorem complete_methods :
    (hubPattern "Method" .inbound).FoundOnce Libc.whole hubStore (some (bytesOf "p"))
      ((hubPattern "Method" .inbound).query.execute Libc.whole hubStore (some 10)
        (some (bytesOf "p")) 100) :=
  (complete_iff Libc.whole hubStore (some (bytesOf "p")) 100 (hubPattern "Method" .inbound)
    proper_hubPattern).mpr ⟨fun _ _ => rfl, by decide +kernel⟩

/-- Seen from the hub, one of the eleven calls is dropped, though 100 rows are
allowed. -/
theorem not_complete_hub :
    ¬ (((hubPattern "Function" .outbound).allMatches Libc.whole hubStore
          (some (bytesOf "p"))).length ≤ 100 →
      (hubPattern "Function" .outbound).FoundOnce Libc.whole hubStore (some (bytesOf "p"))
        ((hubPattern "Function" .outbound).query.execute Libc.whole hubStore (some 10)
          (some (bytesOf "p")) 100)) := by
  intro hcomplete
  have hall : ((hubPattern "Function" .outbound).allMatches Libc.whole hubStore
      (some (bytesOf "p"))).length = 11 := by decide +kernel
  have hexec : ((hubPattern "Function" .outbound).query.execute Libc.whole hubStore (some 10)
      (some (bytesOf "p")) 100).length = 10 := by decide +kernel
  have hlen := (hcomplete (by rw [hall]; decide)).length_eq
  rw [hall, hexec] at hlen
  cases hlen

end Cypher
end CodebaseMemory
