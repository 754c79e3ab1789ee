import CodebaseMemory.Lib.HeaviestPath
import CodebaseMemory.Pipeline.Numbered

/-!
# Transitive loop depths (`src/pipeline/pass_complexity.c`)

Without cycles a callee is never in progress, so that the search returns what is done
or goes down.  At its greatest depth it returns the loop depth of the node alone,
which is right if the node calls nothing.
-/

namespace CodebaseMemory
namespace Pipeline

open Lib
open Sqlite (CStr bytesOf)
open GraphBuffer

/-- The `loop_depth` of the function or method with this id. -/
def loopDepthAt (g : Gbuf) (id : Int) : Int :=
  jsonGetInt (textAt g id) (bytesOf "loop_depth") 0

/-- The number is one of the C type int. -/
def InInt (n : Int) : Prop :=
  -2 ^ 31 ≤ n ∧ n < 2 ^ 31

theorem intAdd_eq {a b : Int} (h : InInt (a + b)) : intAdd a b = a + b := by
  obtain ⟨hlow, hhigh⟩ := h
  rw [intAdd, Int.emod_eq_of_lt (by omega) (by omega)]
  omega

section Search

variable {r : Int → Int → Prop} {weight : Int → Int}

/-- What is done has the weight of its heaviest path. -/
def Known (r : Int → Int → Prop) (weight : Int → Int) (st : Tld) : Prop :=
  ∀ a, st.marks.state a = .done → Heaviest r weight a (st.tld a)

theorem Known.enter {st : Tld} (h : Known r weight st) (id : Int) :
    Known r weight (st.enter id) := by
  intro a ha
  by_cases heq : a = id
  · simp [heq] at ha
  · rw [Tld.marks_enter, Marks.state_enter, if_neg heq] at ha
    exact h a ha

theorem Known.leave {st : Tld} (h : Known r weight st) {id t : Int}
    (ht : Heaviest r weight id t) : Known r weight (st.leave id t) := by
  intro a ha
  by_cases heq : a = id
  · rw [heq, Tld.tld_leave, if_pos rfl]
    exact ht
  · rw [Tld.marks_leave, Marks.state_leave, if_neg heq] at ha
    rw [Tld.tld_leave, if_neg heq]
    exact h a ha

theorem foldl_tldRound_best {Inv : Tld → Prop} {dfs : Int → Tld → Int × Tld} {id : Int}
    (cs : List Int) (hself : id ∉ cs)
    (hdfs : ∀ c ∈ cs, ∀ st, Inv st → Heaviest r weight c (dfs c st).1 ∧ Inv (dfs c st).2)
    {ds : List Int} {acc : Int × Tld} (hbest : Best r weight ds acc.1) (hinv : Inv acc.2) :
    Best r weight (ds ++ cs) (cs.foldl (tldRound dfs id) acc).1 ∧
      Inv (cs.foldl (tldRound dfs id) acc).2 := by
  induction cs generalizing ds acc with
  | nil =>
      rw [List.append_nil]
      exact ⟨hbest, hinv⟩
  | cons c cs ih =>
      rw [List.mem_cons, not_or] at hself
      obtain ⟨hc, hinv'⟩ := hdfs c List.mem_cons_self acc.2 hinv
      rw [List.append_cons, List.foldl_cons, tldRound, if_neg (Ne.symm hself.1)]
      exact ih hself.2 (fun x hx => hdfs x (List.mem_cons_of_mem c hx)) (hbest.concat hc) hinv'

end Search

section LoopDepth

variable {g : Gbuf}

/-- The call graph has no cycles, and all sums of loop depths fit. -/
structure AcyclicCalls (g : Gbuf) : Prop extends CallGraph g where
  acyclic : ∀ a, ¬ OnCycle (Calls g) a
  fits : ∀ a s, IsCallable g a → PathSum (Calls g) (loopDepthAt g) a s → InInt s

/-- No call chain has more than 258 functions. -/
structure ShallowCalls (g : Gbuf) : Prop extends AcyclicCalls g where
  shallow : ∀ l : List Int, l.IsChain (Calls g) → l.length ≤ cbmTldMaxDepth + 2

theorem CallGraph.loopDepthAt_eq (h : CallGraph g) {p : Nat} (hp : p ∈ callables g) :
    loopDepthAt g (g.nodeAt p).id = loopDepthOf g p := by
  rw [loopDepthAt, h.textAt_eq hp, loopDepthOf]

variable {id : Int}
variable {S : List Int}

theorem CallGraph.seeds_loopDepth (h : CallGraph g) (hid : IsCallable g id) :
    (seeds g (g.idMark - 1)).loopDepth id = loopDepthAt g id := by
  obtain ⟨p, hp, rfl⟩ := hid
  rw [(h.seeded hp).loopDepth, h.loopDepthAt_eq hp]

theorem ShallowCalls.not_mem (h : ShallowCalls g) (hchain : (S ++ [id]).IsChain (Calls g)) :
    id ∉ S := by
  intro hid
  obtain ⟨T, l, rfl⟩ := List.append_of_mem hid
  rw [List.append_assoc] at hchain
  have hcycle := transGen_of_chain (S := []) (l := l) hchain.right_of_append fun _ _ =>
    List.not_mem_nil
  exact h.acyclic id (CycleAvoiding.onCycle hcycle)

theorem CallGraph.concat (h : CallGraph g) {c : Int} (hchain : (S ++ [id]).IsChain (Calls g))
    (hc : c ∈ callees g id) : (S ++ [id] ++ [c]).IsChain (Calls g) := by
  rw [calls_eq h] at hchain ⊢
  exact lists_next hchain c hc

variable {loopDepth : Int → Int}

theorem tldDfs_heaviest (h : ShallowCalls g)
    (hloop : ∀ id, IsCallable g id → loopDepth id = loopDepthAt g id) {levels : Nat}
    (hS : S.length + levels = cbmTldMaxDepth + 1) (hid : IsCallable g id)
    (hchain : (S ++ [id]).IsChain (Calls g)) {st : Tld} (hstack : OnStack S st.marks)
    (hknown : Known (Calls g) (loopDepthAt g) st) :
    Heaviest (Calls g) (loopDepthAt g) id (tldDfs g loopDepth (g.idMark - 1) levels id st).1 ∧
      Known (Calls g) (loopDepthAt g) (tldDfs g loopDepth (g.idMark - 1) levels id st).2 := by
  obtain ⟨hlow, hhigh, hcallees⟩ := h.inRange id hid
  have hprogress : st.marks.state id ≠ .inProgress := fun hstate =>
    h.not_mem hchain ((hstack id).mp hstate)
  induction levels generalizing S id st with
  | zero =>
      rcases tldVisited_cases ⟨hlow, hhigh⟩ st with ⟨hdone, heq⟩ | ⟨hstate, _⟩ | ⟨_, heq⟩
      · rw [tldDfs_of_visited heq]
        exact ⟨hknown id hdone, hknown⟩
      · exact absurd hstate hprogress
      · rw [tldDfs, heq, Option.getD_none, hloop id hid]
        -- a chain cannot go on from here
        have hleaf : ∀ c, Calls g id c ↔ c ∈ ([] : List Int) := by
          refine fun c => iff_of_false (fun hc => ?_) List.not_mem_nil
          have hlong := h.shallow _ (h.concat hchain ((calls_iff h.toCallGraph).mp hc))
          simp only [List.length_append, List.length_singleton] at hlong
          omega
        have hbest := (@best_nil _ (Calls g) (loopDepthAt g)).heaviest hleaf
        rw [Int.add_zero] at hbest
        exact ⟨hbest, hknown⟩
  | succ levels ih =>
      rcases tldVisited_cases ⟨hlow, hhigh⟩ st with ⟨hdone, heq⟩ | ⟨hstate, _⟩ | ⟨_, heq⟩
      · rw [tldDfs_of_visited heq]
        exact ⟨hknown id hdone, hknown⟩
      · exact absurd hstate hprogress
      · have hself : id ∉ callees g id := fun hc =>
          h.acyclic id (.single ((calls_iff h.toCallGraph).mpr hc))
        have hS' : (S ++ [id]).length + levels = cbmTldMaxDepth + 1 := by
          rw [List.length_append, List.length_singleton]
          omega
        have hround : ∀ c ∈ callees g id, ∀ st : Tld,
            (OnStack (S ++ [id]) st.marks ∧ Known (Calls g) (loopDepthAt g) st) →
            Heaviest (Calls g) (loopDepthAt g) c
                (tldDfs g loopDepth (g.idMark - 1) levels c st).1 ∧
              OnStack (S ++ [id]) (tldDfs g loopDepth (g.idMark - 1) levels c st).2.marks ∧
              Known (Calls g) (loopDepthAt g)
                (tldDfs g loopDepth (g.idMark - 1) levels c st).2 := by
          rintro c hc st ⟨hstack', hknown'⟩
          have hcall := hcallees c hc
          obtain ⟨hlow', hhigh', hcallees'⟩ := h.inRange c hcall
          have hchain' := h.concat hchain hc
          obtain ⟨hbest, hknown''⟩ := ih hS' hcall hchain' hstack' hknown' hlow' hhigh' hcallees'
            fun hstate => h.not_mem hchain' ((hstack' c).mp hstate)
          exact ⟨hbest, (tldDfs_explores h.inRange hS' hcall st).onStack hstack', hknown''⟩
        obtain ⟨hbest, _, hknown'⟩ := @foldl_tldRound_best _ _
          (fun st => OnStack (S ++ [id]) st.marks ∧ Known (Calls g) (loopDepthAt g) st) _ id
          (callees g id) hself hround [] (0, st.enter id) best_nil
          ⟨hstack.enter, hknown.enter id⟩
        have hheaviest := hbest.heaviest fun c => calls_iff h.toCallGraph
        have hsum := intAdd_eq (h.fits id _ hid hheaviest.attained)
        rw [tldDfs, heq, Option.getD_none, hloop id hid]
        dsimp only
        rw [hsum]
        exact ⟨hheaviest, hknown'.leave hheaviest⟩

theorem searched_known (h : ShallowCalls g) (k : Nat) :
    Known (Calls g) (loopDepthAt g) (searched g k) := by
  induction k with
  | zero => exact fun a ha => absurd ha (by simp [searched, passLoop, startTld])
  | succ k ih =>
      rcases searched_succ h.toCallGraph k with ⟨hid, heq⟩ | ⟨_, heq⟩
      · rw [heq, searchRound]
        split
        · exact ih
        · exact (tldDfs_heaviest h (fun id hid => h.seeds_loopDepth hid) (Nat.zero_add _) hid
            (List.isChain_singleton _) (searched_onStack h.toCallGraph k) ih).2
      · rw [heq]
        exact ih

/-- The heaviest call path from a function or method is what is written to its node. -/
def WritesHeaviest (g : Gbuf) : Prop :=
  ∀ p ∈ callables g, ∃ d recursive, Heaviest (Calls g) (loopDepthAt g) (g.nodeAt p).id d ∧
    ((cbmPipelinePassComplexity g).nodeAt p).propertiesJson =
      appendComplexityProps (g.nodeAt p).propertiesJson d recursive

theorem transitive_loop_depth (g : Gbuf) (h : ShallowCalls g) : WritesHeaviest g := by
  intro p hp
  have hdone := searched_done h.toCallGraph ⟨p, hp, rfl⟩
  exact ⟨_, _, searched_known h _ _ hdone, pass_node h.toCallGraph hp⟩

end LoopDepth

/-- Each function calls the next one. -/
def inTurn (texts : List CStr) : Gbuf :=
  numbered texts ((List.range (texts.length - 1)).map fun i => (i, i + 1))

section InTurn

variable {texts : List CStr}

theorem inTurn_edges : ∀ e ∈ (List.range (texts.length - 1)).map fun i => (i, i + 1),
    e.1 < texts.length ∧ e.2 < texts.length := by
  intro e he
  obtain ⟨i, hi, rfl⟩ := List.mem_map.mp he
  rw [List.mem_range] at hi
  dsimp only
  omega

theorem calls_inTurn (hsize : texts.length < 2 ^ 31) {x y : Int} :
    Calls (inTurn texts) x y ↔ 1 ≤ x ∧ x < texts.length ∧ y = x + 1 := by
  rw [inTurn, calls_numbered (by omega) inTurn_edges]
  constructor
  · rintro ⟨e, he, rfl, rfl⟩
    obtain ⟨i, hi, rfl⟩ := List.mem_map.mp he
    rw [List.mem_range] at hi
    dsimp only
    omega
  · rintro ⟨hlow, hhigh, rfl⟩
    refine ⟨((x - 1).toNat, (x - 1).toNat + 1), List.mem_map_of_mem (List.mem_range.mpr ?_), ?_, ?_⟩
    · omega
    · dsimp only
      omega
    · dsimp only
      omega

theorem lt_of_transGen_inTurn (hsize : texts.length < 2 ^ 31) {x y : Int}
    (h : Relation.TransGen (Calls (inTurn texts)) x y) : x < y := by
  induction h with
  | single hstep =>
      have hcall := (calls_inTurn hsize).mp hstep
      omega
  | tail _ hstep ih =>
      have hcall := (calls_inTurn hsize).mp hstep
      omega

theorem length_le_of_chain_inTurn (hsize : texts.length < 2 ^ 31) {a : Int} {l : List Int}
    (h : (a :: l).IsChain (Calls (inTurn texts))) :
    l = [] ∨ 1 ≤ a ∧ a + l.length ≤ texts.length := by
  induction l generalizing a with
  | nil => exact Or.inl rfl
  | cons b l ih =>
      obtain ⟨hcall, hrest⟩ := List.isChain_cons_cons.mp h
      have hcall := (calls_inTurn hsize).mp hcall
      rw [List.length_cons]
      push_cast
      rcases ih hrest with rfl | hle
      · refine Or.inr ⟨hcall.1, ?_⟩
        rw [List.length_nil]
        omega
      · omega

theorem acyclicCalls_inTurn (hsize : texts.length < 2 ^ 31)
    (htexts : ∀ text ∈ texts, isJsonObject text = true ∧
      0 ≤ jsonGetInt text (bytesOf "loop_depth") 0 ∧
      jsonGetInt text (bytesOf "loop_depth") 0 ≤ 1) : AcyclicCalls (inTurn texts) := by
  have hgraph : CallGraph (inTurn texts) :=
    numbered_callGraph (by omega) inTurn_edges fun text ht => (htexts text ht).1
  have hnodes := (@numbered_spec texts _ (by omega) inTurn_edges).1
  have hweight : ∀ id, 0 ≤ loopDepthAt (inTurn texts) id ∧ loopDepthAt (inTurn texts) id ≤ 1 := by
    intro id
    rw [loopDepthAt, textAt]
    cases hfind : (callables (inTurn texts)).find? fun p =>
        ((inTurn texts).nodeAt p).id = id with
    | none =>
        dsimp only
        decide
    | some p =>
        have hp := List.mem_of_find?_eq_some hfind
        rw [callables, inTurn, hnodes.functions, hnodes.methods, List.append_nil,
          List.mem_range] at hp
        dsimp only
        rw [inTurn, hnodes.properties p _ (List.getElem?_eq_getElem hp)]
        exact (htexts _ (List.getElem_mem hp)).2
  have hsum : ∀ l : List Int, 0 ≤ pathWeight (loopDepthAt (inTurn texts)) l ∧
      pathWeight (loopDepthAt (inTurn texts)) l ≤ l.length := by
    intro l
    induction l with
    | nil => exact ⟨Int.le_refl 0, Int.le_refl 0⟩
    | cons a l ih =>
        have ha := hweight a
        rw [pathWeight, List.length_cons]
        push_cast
        omega
  refine ⟨hgraph, fun a hcycle => ?_, ?_⟩
  · exact absurd (lt_of_transGen_inTurn hsize hcycle) (Int.lt_irrefl a)
  · rintro a _ _ ⟨l, hchain, rfl⟩
    have hbounds := hsum (a :: l)
    rw [List.length_cons] at hbounds
    push_cast at hbounds
    rcases length_le_of_chain_inTurn hsize hchain with rfl | hle
    · rw [List.length_nil] at hbounds
      constructor <;> omega
    · constructor <;> omega

end InTurn

/-- `{"loop_depth":1}`. -/
def depthOne : CStr :=
  bytesOf "\x7b\"loop_depth\":1\x7d"

theorem transitive_loop_depth_two : WritesHeaviest (inTurn [depthOne, depthOne]) := by
  refine transitive_loop_depth _ ⟨acyclicCalls_inTurn (by decide) (by decide), fun l hl => ?_⟩
  cases l with
  | nil => exact Nat.zero_le _
  | cons a l =>
      rcases length_le_of_chain_inTurn (by decide) hl with rfl | hle
      · rw [List.length_singleton, cbmTldMaxDepth]
        omega
      · have hlength : [depthOne, depthOne].length = 2 := rfl
        rw [List.length_cons, cbmTldMaxDepth]
        omega

/-- 258 functions without loops, and one with a loop at the end. -/
def deepTexts : List CStr :=
  List.replicate 258 emptyObject ++ [depthOne]

/-- 259 functions that call each other in turn. -/
def deepCalls : Gbuf :=
  inTurn deepTexts

theorem length_deepTexts : deepTexts.length = 259 := by
  rw [deepTexts, List.length_append, List.length_replicate, List.length_singleton]

theorem acyclicCalls_deepCalls : AcyclicCalls deepCalls := by
  refine acyclicCalls_inTurn (by rw [length_deepTexts]; decide) fun text htext => ?_
  rcases List.mem_append.mp htext with htext | htext
  · rw [List.eq_of_mem_replicate htext]
    decide
  · rw [List.mem_singleton.mp htext]
    decide

theorem nodes_deepCalls : NumberedNodes deepTexts deepCalls :=
  (numbered_spec (by rw [length_deepTexts]; decide) inTurn_edges).1

theorem isCallable_deepCalls {x : Int} (hlow : 1 ≤ x) (hhigh : x ≤ 259) :
    IsCallable deepCalls x := by
  refine ⟨(x - 1).toNat, ?_, ?_⟩
  · rw [callables, nodes_deepCalls.functions, length_deepTexts]
    exact List.mem_append_left _ (List.mem_range.mpr (by omega))
  · rw [nodes_deepCalls.id _ (by rw [length_deepTexts]; omega)]
    omega

theorem loopDepthAt_deepCalls {x : Int} (hlow : 1 ≤ x) (hhigh : x ≤ 259) :
    loopDepthAt deepCalls x = if x = 259 then 1 else 0 := by
  obtain ⟨p, hp, rfl⟩ := isCallable_deepCalls hlow hhigh
  rw [acyclicCalls_deepCalls.loopDepthAt_eq hp]
  rw [callables, nodes_deepCalls.functions, nodes_deepCalls.methods, List.append_nil,
    List.mem_range, length_deepTexts] at hp
  have hid := nodes_deepCalls.id p (by rw [length_deepTexts]; exact hp)
  have hlength : (List.replicate 258 emptyObject).length = 258 := List.length_replicate
  by_cases hlast : p = 258
  · have htext : deepTexts[p]? = some depthOne := by
      rw [deepTexts, List.getElem?_append_right (by omega), hlength, hlast]
      rfl
    rw [loopDepthOf, nodes_deepCalls.properties p _ htext, if_pos (by rw [hid]; omega)]
    decide
  · have htext : deepTexts[p]? = some emptyObject := by
      rw [deepTexts, List.getElem?_append_left (by omega), List.getElem?_replicate,
        if_pos (by omega)]
    rw [loopDepthOf, nodes_deepCalls.properties p _ htext, if_neg (by rw [hid]; omega)]
    decide

theorem callees_deepCalls {x : Int} (hlow : 1 ≤ x) (hhigh : x ≤ 258) :
    callees deepCalls x = [x + 1] := by
  have hsize : deepTexts.length < 2 ^ 31 := by
    rw [length_deepTexts]
    decide
  have hmem : ∀ y, y ∈ callees deepCalls x ↔ y = x + 1 := by
    intro y
    rw [← Among, ← calls_iff acyclicCalls_deepCalls.toCallGraph, deepCalls, calls_inTurn hsize,
      length_deepTexts]
    constructor
    · exact fun h => h.2.2
    · exact fun h => ⟨hlow, by omega, h⟩
  have hpairs : (callees deepCalls x).Pairwise fun y z => (z == y) = false := by
    rw [deepCalls, inTurn, (numbered_spec (by omega) inTurn_edges).2]
    exact pairwise_keepFirst _ _
  revert hmem hpairs
  rcases callees deepCalls x with _ | ⟨y, _ | ⟨z, ys⟩⟩
  · exact fun hmem _ => absurd ((hmem (x + 1)).mpr rfl) List.not_mem_nil
  · exact fun hmem _ => by rw [(hmem y).mp List.mem_cons_self]
  · intro hmem hpairs
    have hy := (hmem y).mp List.mem_cons_self
    have hz := (hmem z).mp (List.mem_cons_of_mem y List.mem_cons_self)
    have hne := List.rel_of_pairwise_cons hpairs (List.mem_cons_self (a := z))
    rw [hy, hz] at hne
    exact absurd hne (by simp)

theorem tld_tldDfs {g : Gbuf} {loopDepth : Int → Int} {maxid : Int} {levels : Nat} {id : Int}
    {st : Tld} (hid : 1 ≤ id ∧ id ≤ maxid) (hnew : st.marks.state id = .unvisited) :
    (tldDfs g loopDepth maxid (levels + 1) id st).2.tld id =
      (tldDfs g loopDepth maxid (levels + 1) id st).1 := by
  rw [tldDfs, tldVisited, if_neg (by omega), hnew]
  dsimp only [Option.getD_none]
  rw [Tld.tld_leave, if_pos rfl]

theorem tldDfs_deepCalls {loopDepth : Int → Int} {maxid : Int} (hmax : 259 ≤ maxid)
    (hloop : ∀ x, 1 ≤ x → x ≤ 258 → loopDepth x = 0) {levels : Nat} {x : Int} (hlow : 1 ≤ x)
    (hhigh : x + levels ≤ 258) {st : Tld} (hnew : ∀ y, x ≤ y → st.marks.state y = .unvisited) :
    (tldDfs deepCalls loopDepth maxid levels x st).1 = 0 := by
  induction levels generalizing x st with
  | zero =>
      rw [tldDfs, tldVisited, if_neg (by omega), hnew x (Int.le_refl x)]
      exact hloop x hlow (by omega)
  | succ levels ih =>
      have hnew' : ∀ y, x + 1 ≤ y → (st.enter x).marks.state y = .unvisited := by
        intro y hy
        rw [Tld.marks_enter, Marks.state_enter, if_neg (by omega)]
        exact hnew y (by omega)
      have hbelow := @ih (x + 1) (by omega) (by omega) (st.enter x) hnew'
      rw [tldDfs, tldVisited, if_neg (by omega), hnew x (Int.le_refl x)]
      dsimp only [Option.getD_none]
      rw [callees_deepCalls hlow (by omega), List.foldl_cons, List.foldl_nil, tldRound,
        if_neg (by omega)]
      dsimp only
      rw [hbelow, hloop x hlow (by omega), if_neg (Int.lt_irrefl 0)]
      rfl

theorem pathSum_deepCalls {k : Nat} (hk : k ≤ 258) :
    PathSum (Calls deepCalls) (loopDepthAt deepCalls) (259 - k) 1 := by
  have hsize : deepTexts.length < 2 ^ 31 := by
    rw [length_deepTexts]
    decide
  induction k with
  | zero =>
      refine pathSum_iff.mpr (Or.inl ?_)
      rw [loopDepthAt_deepCalls (by omega) (by omega)]
      rfl
  | succ k ih =>
      have hbelow := ih (by omega)
      refine pathSum_iff.mpr (Or.inr ⟨259 - k, ?_, 1, hbelow, ?_⟩)
      · rw [deepCalls, calls_inTurn hsize, length_deepTexts]
        omega
      · rw [loopDepthAt_deepCalls (by omega) (by omega), if_neg (by omega)]
        rfl

/-- The first function of the chain gets no loop depth. -/
theorem not_writesHeaviest : AcyclicCalls deepCalls ∧ ¬ WritesHeaviest deepCalls := by
  refine ⟨acyclicCalls_deepCalls, fun h => ?_⟩
  have hgraph := acyclicCalls_deepCalls.toCallGraph
  have hp : 0 ∈ callables deepCalls := by
    rw [callables, nodes_deepCalls.functions, length_deepTexts]
    exact List.mem_append_left _ (List.mem_range.mpr (by omega))
  have hid : (deepCalls.nodeAt 0).id = 1 :=
    nodes_deepCalls.id 0 (by rw [length_deepTexts]; omega)
  obtain ⟨d, recursive, hheaviest, htext⟩ := h 0 hp
  have hwritten := (appendComplexityProps_inj (hgraph.object 0 hp)
    (htext.symm.trans (pass_node hgraph hp))).1
  rw [hid] at hheaviest hwritten
  have hbound := hheaviest.bound 1 (pathSum_deepCalls (Nat.le_refl 258))
  have hmax := (hgraph.inRange 259 (isCallable_deepCalls (by omega) (by omega))).2.1
  have hsearched := (searched_succ hgraph 0).resolve_right fun hno =>
    hno.1 (isCallable_deepCalls (by omega) (by omega))
  have hloop : ∀ x, 1 ≤ x → x ≤ 258 →
      (seeds deepCalls (deepCalls.idMark - 1)).loopDepth x = 0 := by
    intro x hlow hhigh
    rw [hgraph.seeds_loopDepth (isCallable_deepCalls hlow (by omega)),
      loopDepthAt_deepCalls hlow (by omega), if_neg (by omega)]
  have hzero := @tldDfs_deepCalls _ _ hmax hloop (256 + 1) 1 (by omega) (by omega)
    (searched deepCalls 0) fun _ _ => rfl
  have htld := @tld_tldDfs deepCalls (seeds deepCalls (deepCalls.idMark - 1)).loopDepth
    (deepCalls.idMark - 1) 256 1 (searched deepCalls 0) (by omega) rfl
  have hone : searched deepCalls 1 =
      (tldDfs deepCalls (seeds deepCalls (deepCalls.idMark - 1)).loopDepth
        (deepCalls.idMark - 1) (256 + 1) 1 (searched deepCalls 0)).2 := by
    have hround := hsearched.2
    have hstart : ¬ (searched deepCalls 0).marks.state 1 = .done := by
      simp [searched, passLoop, startTld]
    rw [Nat.zero_add, Int.ofNat_zero, Int.zero_add, searchRound, if_neg hstart,
      cbmTldMaxDepth] at hround
    exact hround
  rw [show (1 : Int).toNat = 1 from rfl, hone, htld, hzero] at hwritten
  omega

end Pipeline
end CodebaseMemory
