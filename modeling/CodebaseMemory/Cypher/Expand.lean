import CodebaseMemory.Cypher.Match

/-!
# What expansion adds to a binding

The loops of `expand_pattern_rels` run over a list of bindings and share one
array for the result.  Without a cap, or as long as it is not reached, every
binding is expanded on its own.
-/

namespace CodebaseMemory
namespace Cypher

open Lib
open Sqlite (CStr bytesOf)

section Steps

variable (lib : Libc)
variable (s : Store)

/-- The edges of `fixedLengthEdges`, in one list. -/
def fixedWays (rel : RelPattern) (src : Int) : List (Bool × Edge) :=
  (fixedLengthEdges s rel src).flatMap fun part => part.2.map fun e => (part.1, e)

def stepMatches (rel : RelPattern) (target : NodePattern) (varName : CStr) (b : Binding) :
    List Binding :=
  match bindingGet b varName with
  | none => []
  | some src =>
      if rel.isVariableLength then
        (varLengthRows s rel src).filterMap (extendByHop lib s rel target b target.toVar)
      else
        (fixedWays s rel src.id).filterMap fun way =>
          extendByEdge lib s target b target.toVar rel.var way.1 way.2

/-- An OPTIONAL relationship keeps a binding without a match, if it has a node
to start from. -/
def stepBindings (optional : Bool) (rel : RelPattern) (target : NodePattern) (varName : CStr)
    (b : Binding) : List Binding :=
  if optional && (bindingGet b varName).isSome && (stepMatches lib s rel target varName b).isEmpty
  then [b]
  else stepMatches lib s rel target varName b

def expandSteps (optional : Bool) :
    List (RelPattern × NodePattern) → CStr → Binding → List Binding
  | [], _, b => [b]
  | (rel, target) :: steps, varName, b =>
      (stepBindings lib s optional rel target varName b).flatMap
        (expandSteps optional steps target.toVar)

variable {lib}
variable {s}

theorem stepMatches_unbound {rel : RelPattern} {target : NodePattern} {varName : CStr}
    {b : Binding} (hb : bindingGet b varName = none) :
    stepMatches lib s rel target varName b = [] := by
  rw [stepMatches, hb]

theorem expandFixedLength_eq (cap : Option Nat) (rel : RelPattern) (target : NodePattern)
    (b : Binding) (src : Node) (toVar : CStr) (acc : List Binding) :
    expandFixedLength lib s cap rel target b src toVar acc =
      acc ++ takeRoom cap acc.length ((fixedWays s rel src.id).filterMap fun way =>
        extendByEdge lib s target b toVar rel.var way.1 way.2) := by
  have hways := foldl_collect cap (extendByEdge lib s target b toVar rel.var)
    (fixedLengthEdges s rel src.id) acc
  simp only [fixedWays, List.filterMap_flatMap, List.filterMap_map]
  exact hways

theorem expand_eq_stepMatches {cap : Option Nat} {rel : RelPattern} {target : NodePattern}
    {varName : CStr} {b : Binding} {src : Node} (hb : bindingGet b varName = some src)
    (acc : List Binding) :
    (if rel.isVariableLength then expandVarLength lib s cap rel target b src target.toVar acc
      else expandFixedLength lib s cap rel target b src target.toVar acc) =
      acc ++ takeRoom cap acc.length (stepMatches lib s rel target varName b) := by
  rw [stepMatches, hb]
  dsimp only
  split
  · exact collect_eq cap _ _ acc
  · exact expandFixedLength_eq cap rel target b src target.toVar acc

theorem expandBinding_mandatory (cap : Option Nat) (rel : RelPattern) (target : NodePattern)
    (varName : CStr) (acc : List Binding) (b : Binding) :
    expandBinding lib s cap false rel target varName acc b =
      acc ++ takeRoom cap acc.length (stepMatches lib s rel target varName b) := by
  unfold expandBinding
  cases hb : bindingGet b varName with
  | none => simp [stepMatches_unbound hb]
  | some src => simpa using expand_eq_stepMatches hb acc

theorem foldl_expandBinding (cap : Option Nat) (rel : RelPattern) (target : NodePattern)
    (varName : CStr) (bindings : List Binding) :
    bindings.foldl (expandBinding lib s cap false rel target varName) [] =
      takeRoom cap 0 (bindings.flatMap (stepMatches lib s rel target varName)) :=
  foldl_takeRoom cap (expandBinding_mandatory cap rel target varName) bindings []

theorem expandBinding_uncapped (optional : Bool) (rel : RelPattern) (target : NodePattern)
    (varName : CStr) (acc : List Binding) (b : Binding) :
    expandBinding lib s none optional rel target varName acc b =
      acc ++ stepBindings lib s optional rel target varName b := by
  unfold expandBinding stepBindings
  cases hb : bindingGet b varName with
  | none => simp [stepMatches_unbound hb]
  | some src =>
      dsimp only
      rw [expand_eq_stepMatches hb acc]
      cases hmatches : stepMatches lib s rel target varName b with
      | nil => cases optional <;> simp [takeRoom]
      | cons c rest => simp [takeRoom]

theorem expandPatternRels_uncapped (optional : Bool) (steps : List (RelPattern × NodePattern)) :
    ∀ (varName : CStr) (bindings : List Binding),
      expandPatternRels lib s none optional steps varName bindings =
        bindings.flatMap (expandSteps lib s optional steps varName) := by
  induction steps with
  | nil =>
      intro varName bindings
      simp [expandPatternRels, expandSteps]
  | cons step steps ih =>
      intro varName bindings
      obtain ⟨rel, target⟩ := step
      have hround : bindings.foldl (expandBinding lib s none optional rel target varName) [] =
          bindings.flatMap (stepBindings lib s optional rel target varName) :=
        foldl_takeRoom none (expandBinding_uncapped optional rel target varName) bindings []
      rw [expandPatternRels, hround, ih, List.flatMap_assoc]
      rfl

theorem stepBindings_mandatory (rel : RelPattern) (target : NodePattern) (varName : CStr)
    (b : Binding) :
    stepBindings lib s false rel target varName b = stepMatches lib s rel target varName b :=
  rfl

theorem mem_expandPatternRels {cap : Option Nat} (steps : List (RelPattern × NodePattern)) :
    ∀ {varName : CStr} {bindings : List Binding} {c : Binding},
      c ∈ expandPatternRels lib s cap false steps varName bindings →
      ∃ b ∈ bindings, c ∈ expandSteps lib s false steps varName b := by
  induction steps with
  | nil =>
      intro varName bindings c hc
      exact ⟨c, hc, List.mem_singleton_self c⟩
  | cons step steps ih =>
      intro varName bindings c hc
      obtain ⟨d, hd, hcd⟩ := ih hc
      rw [foldl_expandBinding] at hd
      obtain ⟨b, hb, hdb⟩ := List.mem_flatMap.mp (mem_of_mem_takeRoom hd)
      refine ⟨b, hb, List.mem_flatMap.mpr ⟨d, ?_, hcd⟩⟩
      rwa [stepBindings_mandatory]

end Steps

section Scans

variable {lib : Libc}
variable {s : Store}

theorem mem_altSegments {label segment : CStr} (hmem : segment ∈ label.splitOn bar)
    (hne : segment ≠ []) : segment ∈ altSegments label := by
  unfold altSegments
  dsimp only
  split
  · rename_i hlast
    rw [← List.dropLast_append_getLast? [] hlast, List.mem_append] at hmem
    rcases hmem with hinit | hend
    · exact hinit
    · exact absurd (List.mem_singleton.mp hend) hne
  · exact hmem

theorem matchesTarget_of_mem_scan {project : Option CStr} {limit : Option Nat}
    {first : NodePattern} {n : Node}
    (hn : n ∈ scanPatternNodes lib s project limit first) :
    matchesTarget lib s first n = true := by
  obtain ⟨hscan, hprops⟩ := List.mem_filter.mp hn
  unfold matchesTarget
  rw [hprops, Bool.and_true]
  cases hlabel : first.label with
  | none => rfl
  | some label =>
      rw [hlabel] at hscan
      dsimp only at hscan ⊢
      split at hscan
      · rename_i hbar
        obtain ⟨segment, hsegment, hfound⟩ := List.mem_flatMap.mp hscan
        simp only [List.mem_filter, decide_eq_true_eq] at hsegment
        simp only [Store.findNodesByLabel, List.mem_filter, Bool.and_eq_true,
          decide_eq_true_eq] at hfound
        simp [labelAltMatches, hfound.2.2, hbar, mem_altSegments hsegment.1 hsegment.2]
      · rename_i hbar
        simp only [Store.findNodesByLabel, List.mem_filter, Bool.and_eq_true,
          decide_eq_true_eq] at hscan
        simp [labelAltMatches, hscan.2.2, hbar]

end Scans

/-- The relationship allows the edge, followed against its direction if
`inbound`, as a way from the node with id `src`. -/
def follows (rel : RelPattern) (src : Int) (inbound : Bool) (e : Edge) : Bool :=
  (rel.types = [] || e.type ∈ rel.types) &&
    (if inbound then rel.direction ≠ .outbound else rel.direction ≠ .inbound) &&
    (if inbound then e.targetId else e.sourceId) = src

def farEnd (inbound : Bool) (e : Edge) : Int :=
  if inbound then e.sourceId else e.targetId

section Edges

variable {lib : Libc}
variable {s : Store}

/-- The edges of the relationship at a node, followed one way. -/
def oneWay (s : Store) (rel : RelPattern) (src : Int) (inbound : Bool) : List Edge :=
  match rel.types with
  | [] => if inbound then s.findEdgesByTarget src else s.findEdgesBySource src
  | types => types.flatMap fun t =>
      if inbound then s.findEdgesByTargetType src t else s.findEdgesBySourceType src t

theorem fixedWays_eq (s : Store) (rel : RelPattern) (src : Int) :
    fixedWays s rel src =
      ((oneWay s rel src (rel.direction = .inbound)).map fun e =>
          (decide (rel.direction = .inbound), e)) ++
        if rel.direction = .any then (oneWay s rel src true).map fun e => (true, e) else [] := by
  unfold fixedWays fixedLengthEdges oneWay
  cases rel.types with
  | nil => cases rel.direction <;> simp
  | cons t types =>
      rw [List.flatMap_append, List.flatMap_map, List.map_flatMap]
      cases rel.direction <;> simp [List.flatMap_map, List.map_flatMap]

variable {target : NodePattern}
variable {b c : Binding}
variable {rel : RelPattern}

theorem mem_oneWay {src : Int} {inbound : Bool} {e : Edge} :
    e ∈ oneWay s rel src inbound ↔
      e ∈ s.edges ∧ (rel.types = [] ∨ e.type ∈ rel.types) ∧
        (if inbound then e.targetId else e.sourceId) = src := by
  unfold oneWay
  cases rel.types with
  | nil => cases inbound <;> simp [Store.findEdgesBySource, Store.findEdgesByTarget]
  | cons t types =>
      simp only [List.mem_flatMap]
      constructor
      · rintro ⟨u, hu, he⟩
        cases inbound <;>
          simp [Store.findEdgesBySourceType, Store.findEdgesByTargetType] at he <;>
          exact ⟨he.1, Or.inr (he.2.2 ▸ hu), by simpa using he.2.1⟩
      · rintro ⟨he, htype, hsrc⟩
        refine ⟨e.type, htype.resolve_left (by simp), ?_⟩
        cases inbound <;>
          simpa [Store.findEdgesBySourceType, Store.findEdgesByTargetType, he] using hsrc

theorem mem_fixedWays {src : Int} {way : Bool × Edge} :
    way ∈ fixedWays s rel src ↔ way.2 ∈ s.edges ∧ follows rel src way.1 way.2 = true := by
  obtain ⟨inbound, e⟩ := way
  have hway : (inbound, e) ∈ fixedWays s rel src ↔
      e ∈ oneWay s rel src inbound ∧
        (if inbound then rel.direction ≠ .outbound else rel.direction ≠ .inbound) := by
    rw [fixedWays_eq, List.mem_append, List.mem_map]
    cases rel.direction <;> cases inbound <;> simp
  rw [hway, mem_oneWay]
  unfold follows
  cases inbound <;> simp <;> tauto

theorem extendByEdge_eq_some {toVar : CStr} {relVar : Option CStr} {inbound : Bool} {e : Edge} :
    extendByEdge lib s target b toVar relVar inbound e = some c ↔
      ∃ n, s.findNodeById (farEnd inbound e) = some n ∧ matchesTarget lib s target n = true ∧
        c = bindingSetEdge (bindingSet b toVar n) relVar e := by
  unfold extendByEdge farEnd
  cases s.findNodeById (if inbound then e.sourceId else e.targetId) with
  | none => simp
  | some n =>
      by_cases hn : matchesTarget lib s target n = true
      · simpa [hn] using eq_comm
      · simp [hn]

theorem mem_stepMatches {varName : CStr} (hrel : rel.isVariableLength = false) :
    c ∈ stepMatches lib s rel target varName b ↔
      ∃ src inbound e n, bindingGet b varName = some src ∧ e ∈ s.edges ∧
        follows rel src.id inbound e = true ∧ s.findNodeById (farEnd inbound e) = some n ∧
        matchesTarget lib s target n = true ∧
        c = bindingSetEdge (bindingSet b target.toVar n) rel.var e := by
  unfold stepMatches
  cases hb : bindingGet b varName with
  | none => simp
  | some src =>
      simp only [hrel, Bool.false_eq_true, if_false, List.mem_filterMap, mem_fixedWays,
        extendByEdge_eq_some, Option.some.injEq]
      constructor
      · rintro ⟨way, ⟨he, hfollows⟩, n, hn, hmatch, rfl⟩
        exact ⟨src, way.1, way.2, n, rfl, he, hfollows, hn, hmatch, rfl⟩
      · rintro ⟨_, inbound, e, n, rfl, he, hfollows, hn, hmatch, rfl⟩
        exact ⟨(inbound, e), ⟨he, hfollows⟩, n, hn, hmatch, rfl⟩

theorem eq_of_mem_stepMatches {varName : CStr} (hc : c ∈ stepMatches lib s rel target varName b) :
    ∃ n, matchesTarget lib s target n = true ∧
      (c = bindingSet b target.toVar n ∨
        ∃ e, c = bindingSetEdge (bindingSet b target.toVar n) rel.var e) := by
  by_cases hrel : rel.isVariableLength = true
  · unfold stepMatches at hc
    cases hb : bindingGet b varName with
    | none =>
        rw [hb] at hc
        cases hc
    | some src =>
        rw [hb] at hc
        simp only [hrel, if_true, List.mem_filterMap] at hc
        obtain ⟨hop, -, hextend⟩ := hc
        unfold extendByHop at hextend
        split at hextend
        · cases hextend
        · rename_i hkeep
          refine ⟨hop.1, ?_, Or.inl (Option.some.inj hextend).symm⟩
          simp only [Bool.or_eq_true, not_or, Bool.not_eq_true', Bool.not_eq_false] at hkeep
          exact hkeep.2
  · obtain ⟨_, _, e, n, _, _, _, _, hmatch, rfl⟩ :=
      (mem_stepMatches (Bool.eq_false_iff.mpr hrel)).mp hc
    exact ⟨n, hmatch, Or.inr ⟨e, rfl⟩⟩

end Edges

section Frames

theorem bindingGet_startBinding (start v : CStr) (n : Node) :
    bindingGet (bindingSet Binding.empty start n) v = if start = v then some n else none :=
  slot_cons (start, n) [] v

variable {target : NodePattern}
variable {b c : Binding}
variable {v varName : CStr}
variable {rel : RelPattern}

theorem bindingGet_bindingSet_of_ne {w : CStr} {n : Node} (hv : v ≠ w) :
    bindingGet (bindingSet b w n) v = bindingGet b v :=
  slot_setSlot_of_ne hv

@[simp] theorem bindingGetEdge_bindingSet (b : Binding) (v w : CStr) (n : Node) :
    bindingGetEdge (bindingSet b w n) v = bindingGetEdge b v := rfl

@[simp] theorem bindingGet_bindingSetEdge (b : Binding) (v : CStr) (w : Option CStr) (e : Edge) :
    bindingGet (bindingSetEdge b w e) v = bindingGet b v := by
  cases w <;> rfl

theorem bindingGetEdge_bindingSetEdge_of_ne {w : Option CStr} {e : Edge} (hv : w ≠ some v) :
    bindingGetEdge (bindingSetEdge b w e) v = bindingGetEdge b v := by
  cases w with
  | none => rfl
  | some w => exact slot_setSlot_of_ne fun h => hv (congrArg some h.symm)

variable {lib : Libc}
variable {s : Store}

theorem bindingGet_of_mem_stepMatches (hc : c ∈ stepMatches lib s rel target varName b)
    (hv : v ≠ target.toVar) : bindingGet c v = bindingGet b v := by
  obtain ⟨n, -, rfl | ⟨e, rfl⟩⟩ := eq_of_mem_stepMatches hc
  · exact bindingGet_bindingSet_of_ne hv
  · rw [bindingGet_bindingSetEdge, bindingGet_bindingSet_of_ne hv]

theorem bindingGetEdge_of_mem_stepMatches (hc : c ∈ stepMatches lib s rel target varName b)
    (hv : rel.var ≠ some v) : bindingGetEdge c v = bindingGetEdge b v := by
  obtain ⟨n, -, rfl | ⟨e, rfl⟩⟩ := eq_of_mem_stepMatches hc
  · rfl
  · rw [bindingGetEdge_bindingSetEdge_of_ne hv, bindingGetEdge_bindingSet]

theorem mem_stepBindings {optional : Bool}
    (hc : c ∈ stepBindings lib s optional rel target varName b) :
    c = b ∨ c ∈ stepMatches lib s rel target varName b := by
  unfold stepBindings at hc
  split at hc
  · exact Or.inl (List.mem_singleton.mp hc)
  · exact Or.inr hc

end Frames

end Cypher
end CodebaseMemory
