import CodebaseMemory.Pipeline.Numbered
import Mathlib.Order.Interval.Finset.Nat
import Mathlib.Data.Int.Interval

/-!
# Recursive flags (`src/pipeline/pass_complexity.c`)

A search flags a node that it meets while the node is on the stack.  The other members
of its cycles are flagged only where a cycle leads around the stack, whatever the stack
is; and each call path can be the stack, with the right ids and the right order of the
edges.
-/

namespace CodebaseMemory
namespace Pipeline

open Lib
open Sqlite (CStr bytesOf)
open GraphBuffer

/-- The flag that is written says whether the node was self-recursive or is on a cycle. -/
def FlagsRight (g : Gbuf) : Prop :=
  ∀ p ∈ callables g, ∃ d recursive,
    ((cbmPipelinePassComplexity g).nodeAt p).propertiesJson =
      appendComplexityProps (g.nodeAt p).propertiesJson d recursive ∧
    (recursive = true ↔ selfRecursive g p = true ∨ OnCycle (Calls g) (g.nodeAt p).id)

/-- No call path without repetition has more than 257 functions. -/
def ShortPaths (g : Gbuf) : Prop :=
  ∀ l : List Int, SimplePath (Calls g) l → l.length ≤ cbmTldMaxDepth + 1

/-- Whatever call path leads to a member of a cycle that is not marked as self-recursive,
a cycle through the member avoids what is before it on the path. -/
def WaysAround (g : Gbuf) : Prop :=
  ∀ S, ∀ p ∈ callables g, SimplePath (Calls g) (S ++ [(g.nodeAt p).id]) →
    selfRecursive g p = false → OnCycle (Calls g) (g.nodeAt p).id →
    CycleAvoiding (Calls g) S (g.nodeAt p).id

/-- The functions of `g` with their properties and calls are in `g'` with other ids. -/
structure Renumbered (g g' : Gbuf) (f : Int → Int) : Prop where
  into : ∀ p ∈ callables g, ∃ p' ∈ callables g', (g'.nodeAt p').id = f (g.nodeAt p).id ∧
    (g'.nodeAt p').propertiesJson = (g.nodeAt p).propertiesJson
  onto : ∀ p' ∈ callables g', ∃ p ∈ callables g, (g'.nodeAt p').id = f (g.nodeAt p).id ∧
    (g'.nodeAt p').propertiesJson = (g.nodeAt p).propertiesJson
  inj : ∀ a b, IsCallable g a → IsCallable g b → f a = f b → a = b
  calls : ∀ a b, IsCallable g a → IsCallable g b → (Calls g' (f a) (f b) ↔ Calls g a b)

/-- The flags are right, whatever the ids and the order of the edges. -/
def AlwaysFlagsRight (g : Gbuf) : Prop :=
  ∀ g' f, CallGraph g' → Renumbered g g' f → FlagsRight g'

section Paths

variable {g : Gbuf}

theorem CallGraph.callable_of_chain (h : CallGraph g) {l : List Int} {v : Int}
    (hchain : (l ++ [v]).IsChain (Calls g)) (hv : IsCallable g v) :
    ∀ x ∈ l ++ [v], IsCallable g x := by
  induction l with
  | nil => exact fun x hx => List.mem_singleton.mp hx ▸ hv
  | cons a l ih =>
      rw [List.cons_append] at hchain ⊢
      have hrest := ih hchain.of_cons
      refine List.forall_mem_cons.mpr ⟨?_, hrest⟩
      cases l with
      | nil => exact (h.between a v (List.isChain_cons_cons.mp hchain).1).1
      | cons b l => exact (h.between a b (List.isChain_cons_cons.mp hchain).1).1

theorem CallGraph.callable_of_path (h : CallGraph g) {l : List Int}
    (hchain : l.IsChain (Calls g)) (hlong : 1 < l.length) : ∀ x ∈ l, IsCallable g x := by
  obtain rfl | ⟨front, v, rfl⟩ := List.eq_nil_or_concat' l
  · exact fun x hx => absurd hx List.not_mem_nil
  · refine h.callable_of_chain hchain ?_
    obtain rfl | ⟨front, u, rfl⟩ := List.eq_nil_or_concat' front
    · exact absurd hlong (by simp)
    · rw [List.append_assoc] at hchain
      exact (h.between u v (List.isChain_cons_cons.mp hchain.right_of_append).1).2

end Paths

section Right

variable {g : Gbuf}

theorem searchInv_start (g : Gbuf) :
    SearchInv (callees g) [] (startTld (seeds g (g.idMark - 1))).marks where
  stack := fun a => iff_of_false (by simp [startTld]) List.not_mem_nil
  path := ⟨List.nodup_nil, List.isChain_nil⟩
  closed := fun w hw => absurd hw (by simp [startTld])
  right := fun w hw => absurd hw (by simp [startTld])

theorem lists_singleton (id : Int) : Lists (callees g) [] [id] := by
  intro a _
  exact List.isChain_singleton a

theorem searched_sound (h : CallGraph g) (k : Nat) {id : Int}
    (hflag : (searched g k).marks.flag id = true) :
    (seeds g (g.idMark - 1)).recursive id = true ∨ OnCycle (Calls g) id := by
  have hrule := searched_rule h (P := fun m => OnStack [] m ∧ ∀ id, m.flag id = true →
    (seeds g (g.idMark - 1)).recursive id = true ∨ OnCycle (Calls g) id)
    ⟨(searchInv_start g).stack, fun _ => Or.inl⟩ ?_ k
  · exact hrule.2 id hflag
  · rintro a m m' ha ⟨hstack, hsound⟩ hexplores
    refine ⟨hexplores.onStack hstack, fun b hb => ?_⟩
    rcases hexplores.exists_cycle hstack (searchInv_start g).path (lists_singleton a) hb with
      hold | ⟨T, l, _, _, hcycle⟩
    · exact hsound b hold
    · rw [calls_eq h]
      exact Or.inr hcycle.onCycle

theorem searched_inv (h : CallGraph g) (hshort : ShortPaths g) (hway : WaysAround g) (k : Nat) :
    SearchInv (callees g) [] (searched g k).marks ∧
      ∀ id, (seeds g (g.idMark - 1)).recursive id = true →
        (searched g k).marks.flag id = true := by
  have hways : WayAround (Among (callees g)) (seeds g (g.idMark - 1)).recursive := by
    rw [← calls_eq h]
    intro S v hpath hmarked hcycle
    obtain ⟨p, hp, rfl⟩ : IsCallable g v := by
      obtain ⟨w, hstep, _⟩ := Relation.TransGen.head'_iff.mp hcycle
      exact (h.between v w hstep).1
    rw [(h.seeded hp).recursive] at hmarked
    exact hway S p hp hpath hmarked hcycle
  rw [ShortPaths, calls_eq h] at hshort
  refine searched_rule h (P := fun m => SearchInv (callees g) [] m ∧ ∀ id,
    (seeds g (g.idMark - 1)).recursive id = true → m.flag id = true)
    ⟨searchInv_start g, fun _ => id⟩ ?_ k
  rintro a m m' ha ⟨hinv, hmarked⟩ hexplores
  exact ⟨(hexplores.inv hways hshort hinv (lists_singleton a) hmarked).1,
    fun b hb => hexplores.flag_mono (hmarked b hb)⟩

theorem flagsRight_of_waysAround (h : CallGraph g) (hshort : ShortPaths g)
    (hway : WaysAround g) : FlagsRight g := by
  intro p hp
  obtain ⟨hinv, hmarked⟩ := searched_inv h hshort hway (g.nodeAt p).id.toNat
  have hseed := (h.seeded hp).recursive
  refine ⟨_, _, pass_node h hp, ⟨fun hflag => ?_, ?_⟩⟩
  · rw [← hseed]
    exact searched_sound h _ hflag
  · rintro (hself | hcycle)
    · exact hmarked _ (hseed.trans hself)
    · rw [calls_eq h] at hcycle
      exact hinv.right _ (searched_done h ⟨p, hp, rfl⟩) hcycle

end Right

section First

variable {g : Gbuf}

theorem searched_of_done (h : CallGraph g) {id : Int} {k n : Nat} (hk : k ≤ n)
    (hdone : (searched g k).marks.state id = .done) :
    (searched g n).marks.state id = .done ∧
      (searched g n).marks.flag id = (searched g k).marks.flag id := by
  induction hk with
  | refl => exact ⟨hdone, rfl⟩
  | @step n _ ih =>
      by_cases hid : IsCallable g (n + 1)
      · obtain ⟨hstate, hflag⟩ := (searched_explores h hid).state_done ih.1
        exact ⟨hstate, hflag.trans ih.2⟩
      · rcases searched_succ h n with ⟨hyes, _⟩ | ⟨_, heq⟩
        · exact absurd hyes hid
        · rw [heq]
          exact ih

theorem cycleAvoiding_of_flagsRight (h : CallGraph g) (hshort : ShortPaths g)
    (hright : FlagsRight g) {l front : List Int} {p : Nat} (hp : p ∈ callables g)
    (hpath : SimplePath (Calls g) (1 :: l)) (hfirst : FirstNext (callees g) (1 :: l))
    (hend : 1 :: l = front ++ [(g.nodeAt p).id]) (hself : selfRecursive g p = false)
    (hcycle : OnCycle (Calls g) (g.nodeAt p).id) :
    CycleAvoiding (Calls g) front (g.nodeAt p).id := by
  have hone : IsCallable g ((0 : Nat) + 1) := by
    have hall := h.callable_of_chain (hend ▸ hpath.chain) ⟨p, hp, rfl⟩
    rw [← hend] at hall
    exact hall 1 List.mem_cons_self
  have hexplores := searched_explores h hone
  rw [ShortPaths] at hshort
  rw [calls_eq h] at hshort hpath hcycle ⊢
  obtain ⟨hdone, hflag⟩ := hexplores.down hshort (searchInv_start g).stack hpath
    (fun _ _ => rfl) hfirst hend
  have hlow := (h.range p hp).1
  obtain ⟨_, hlater⟩ := searched_of_done h (n := (g.nodeAt p).id.toNat) (by omega) hdone
  obtain ⟨d, recursive, htext, hiff⟩ := hright p hp
  have hrecursive := (appendComplexityProps_inj (h.object p hp)
    (htext.symm.trans (pass_node h hp))).2
  rw [hiff.mpr (Or.inr (by rwa [calls_eq h])), hlater] at hrecursive
  refine (hflag hrecursive.symm).resolve_left ?_
  have hseed : (searched g 0).marks.flag (g.nodeAt p).id = selfRecursive g p :=
    (h.seeded hp).recursive
  rw [hseed, hself]
  exact Bool.false_ne_true

end First

section Transfer

variable {g g' : Gbuf} {f : Int → Int}

theorem Renumbered.exists_eq (hf : Renumbered g g' f) {a' : Int} (ha : IsCallable g' a') :
    ∃ a, IsCallable g a ∧ a' = f a := by
  obtain ⟨p', hp', rfl⟩ := ha
  obtain ⟨p, hp, hid, _⟩ := hf.onto p' hp'
  exact ⟨_, ⟨p, hp, rfl⟩, hid⟩

theorem Renumbered.exists_map (hf : Renumbered g g' f) {l' : List Int}
    (hl : ∀ x ∈ l', IsCallable g' x) :
    ∃ l : List Int, (∀ x ∈ l, IsCallable g x) ∧ l' = l.map f := by
  induction l' with
  | nil => exact ⟨[], fun x hx => absurd hx List.not_mem_nil, rfl⟩
  | cons a' l' ih =>
      obtain ⟨hfirst, hrest⟩ := List.forall_mem_cons.mp hl
      obtain ⟨a, ha, rfl⟩ := hf.exists_eq hfirst
      obtain ⟨l, hmap, rfl⟩ := ih hrest
      exact ⟨a :: l, List.forall_mem_cons.mpr ⟨ha, hmap⟩, rfl⟩

theorem Renumbered.mem_map (hf : Renumbered g g' f) {l : List Int}
    (hl : ∀ x ∈ l, IsCallable g x) {a : Int} (ha : IsCallable g a) :
    f a ∈ l.map f ↔ a ∈ l := by
  refine ⟨fun h => ?_, fun h => List.mem_map_of_mem h⟩
  obtain ⟨b, hb, heq⟩ := List.mem_map.mp h
  rwa [← hf.inj b a (hl b hb) ha heq]

theorem Renumbered.simplePath (hf : Renumbered g g' f) {l : List Int}
    (hl : ∀ x ∈ l, IsCallable g x) :
    SimplePath (Calls g') (l.map f) ↔ SimplePath (Calls g) l := by
  have hchain : (l.map f).IsChain (Calls g') ↔ l.IsChain (Calls g) := by
    rw [List.isChain_map]
    exact List.IsChain.iff_of_mem_imp fun a b ha hb => hf.calls a b (hl a ha) (hl b hb)
  constructor
  · exact fun h => ⟨h.nodup.of_map f, hchain.mp h.chain⟩
  · exact fun h => ⟨h.nodup.map_on fun a ha b hb => hf.inj a b (hl a ha) (hl b hb),
      hchain.mpr h.chain⟩

theorem Renumbered.cycleAvoiding (h : CallGraph g) (h' : CallGraph g')
    (hf : Renumbered g g' f) {S : List Int} (hS : ∀ x ∈ S, IsCallable g x) {a : Int}
    (ha : IsCallable g a) :
    CycleAvoiding (Calls g') (S.map f) (f a) ↔ CycleAvoiding (Calls g) S a := by
  constructor
  · intro hcycle
    have hback : ∀ y', Relation.TransGen (fun x y => Calls g' x y ∧ y ∉ S.map f) (f a) y' →
        ∃ b, IsCallable g b ∧ y' = f b ∧
          Relation.TransGen (fun x y => Calls g x y ∧ y ∉ S) a b := by
      intro y' hy'
      induction hy' with
      | single hstep =>
          obtain ⟨b, hb, rfl⟩ := hf.exists_eq (h'.between _ _ hstep.1).2
          exact ⟨b, hb, rfl, .single ⟨(hf.calls a b ha hb).mp hstep.1,
            fun hmem => hstep.2 (List.mem_map_of_mem hmem)⟩⟩
      | tail _ hstep ih =>
          obtain ⟨b, hb, rfl, hpath⟩ := ih
          obtain ⟨c, hc, rfl⟩ := hf.exists_eq (h'.between _ _ hstep.1).2
          exact ⟨c, hc, rfl, hpath.tail ⟨(hf.calls b c hb hc).mp hstep.1,
            fun hmem => hstep.2 (List.mem_map_of_mem hmem)⟩⟩
    obtain ⟨b, hb, heq, hpath⟩ := hback _ hcycle
    rwa [← hf.inj a b ha hb heq] at hpath
  · intro hcycle
    refine Relation.TransGen.lift f (fun x y hstep => ?_) a a hcycle
    obtain ⟨hx, hy⟩ := h.between x y hstep.1
    exact ⟨(hf.calls x y hx hy).mpr hstep.1, fun hmem => hstep.2 ((hf.mem_map hS hy).mp hmem)⟩

theorem Renumbered.onCycle (h : CallGraph g) (h' : CallGraph g') (hf : Renumbered g g' f)
    {a : Int} (ha : IsCallable g a) : OnCycle (Calls g') (f a) ↔ OnCycle (Calls g) a := by
  rw [← cycleAvoiding_nil, ← cycleAvoiding_nil]
  exact hf.cycleAvoiding h h' (S := []) (fun x hx => absurd hx List.not_mem_nil) ha

theorem Renumbered.selfRecursive_eq {p p' : Nat}
    (h : (g'.nodeAt p').propertiesJson = (g.nodeAt p).propertiesJson) :
    selfRecursive g' p' = selfRecursive g p := by
  rw [selfRecursive, selfRecursive, h]

theorem Renumbered.shortPaths (h' : CallGraph g') (hf : Renumbered g g' f)
    (hshort : ShortPaths g) : ShortPaths g' := by
  intro l' hpath
  by_cases hlong : 1 < l'.length
  · obtain ⟨l, hl, rfl⟩ := hf.exists_map (h'.callable_of_path hpath.chain hlong)
    rw [List.length_map]
    exact hshort l ((hf.simplePath hl).mp hpath)
  · omega

theorem Renumbered.waysAround (h : CallGraph g) (h' : CallGraph g') (hf : Renumbered g g' f)
    (hway : WaysAround g) : WaysAround g' := by
  intro S' p' hp' hpath hself hcycle
  obtain ⟨p, hp, hid, htext⟩ := hf.onto p' hp'
  have hcallable : IsCallable g (g.nodeAt p).id := ⟨p, hp, rfl⟩
  obtain ⟨S, hS, rfl⟩ := hf.exists_map fun x hx =>
    h'.callable_of_chain hpath.chain ⟨p', hp', rfl⟩ x (List.mem_append_left _ hx)
  have hall : ∀ x ∈ S ++ [(g.nodeAt p).id], IsCallable g x := by
    refine List.forall_mem_append.mpr ⟨hS, fun x hx => ?_⟩
    rwa [List.mem_singleton.mp hx]
  rw [hid] at hpath hcycle ⊢
  rw [Renumbered.selfRecursive_eq htext] at hself
  rw [hf.cycleAvoiding h h' hS hcallable]
  refine hway S p hp ?_ hself ((hf.onCycle h h' hcallable).mp hcycle)
  rw [← hf.simplePath hall, List.map_append]
  exact hpath

end Transfer

/-- The calls of `g` between places in a list, those along the list first up to one place. -/
def placedCalls (g : Gbuf) (L : List Int) (k : Nat) : List (Nat × Nat) :=
  (List.range k).map (fun i => (i, i + 1)) ++
    ((List.range L.length).product (List.range L.length)).filter fun e =>
      L.getD e.2 0 ∈ callees g (L.getD e.1 0)

/-- The functions of `g` in the order of the list. -/
def reordered (g : Gbuf) (L : List Int) (k : Nat) : Gbuf :=
  numbered (L.map (textAt g)) (placedCalls g L k)

/-- The list has the ids of all functions, and the calls along it up to one place. -/
structure Ordering (g : Gbuf) (L : List Int) (k : Nat) : Prop where
  nodup : L.Nodup
  mem : ∀ x, x ∈ L ↔ IsCallable g x
  size : L.length < 2 ^ 63
  along : ∀ i < k, ∃ a b, L[i]? = some a ∧ L[i + 1]? = some b ∧ Calls g a b

section Reordered

variable {g : Gbuf} {L : List Int} {k : Nat}

theorem Ordering.idxOf_eq (hL : Ordering g L k) {i : Nat} {a : Int} (hi : L[i]? = some a) :
    L.idxOf a = i := by
  obtain ⟨hlt, rfl⟩ := List.getElem?_eq_some_iff.mp hi
  exact hL.nodup.idxOf_getElem i hlt

theorem Ordering.mem_placedCalls (h : CallGraph g) (hL : Ordering g L k) {e : Nat × Nat} :
    e ∈ placedCalls g L k ↔ ∃ a b, L[e.1]? = some a ∧ L[e.2]? = some b ∧ Calls g a b := by
  have hget : ∀ {i a}, L[i]? = some a → i < L.length ∧ L.getD i 0 = a := by
    intro i a hi
    exact ⟨(List.getElem?_eq_some_iff.mp hi).1, by rw [List.getD, hi, Option.getD_some]⟩
  rw [placedCalls, List.mem_append, List.mem_filter, List.mem_map, List.pair_mem_product,
    List.mem_range, List.mem_range, decide_eq_true_iff]
  constructor
  · rintro (⟨i, hi, rfl⟩ | ⟨⟨hfst, hsnd⟩, hmem⟩)
    · exact hL.along i (List.mem_range.mp hi)
    · refine ⟨L[e.1], L[e.2], List.getElem?_eq_getElem hfst, List.getElem?_eq_getElem hsnd, ?_⟩
      rw [(hget (List.getElem?_eq_getElem hfst)).2,
        (hget (List.getElem?_eq_getElem hsnd)).2] at hmem
      exact (calls_iff h).mpr hmem
  · rintro ⟨a, b, ha, hb, hab⟩
    refine Or.inr ⟨⟨(hget ha).1, (hget hb).1⟩, ?_⟩
    rw [(hget ha).2, (hget hb).2]
    exact (calls_iff h).mp hab

theorem Ordering.placedCalls_lt (h : CallGraph g) (hL : Ordering g L k) :
    ∀ e ∈ placedCalls g L k,
      e.1 < (L.map (textAt g)).length ∧ e.2 < (L.map (textAt g)).length := by
  intro e he
  obtain ⟨a, b, ha, hb, _⟩ := (hL.mem_placedCalls h).mp he
  rw [List.length_map]
  exact ⟨(List.getElem?_eq_some_iff.mp ha).1, (List.getElem?_eq_some_iff.mp hb).1⟩

theorem Ordering.callGraph (h : CallGraph g) (hL : Ordering g L k) :
    CallGraph (reordered g L k) := by
  refine numbered_callGraph (by rw [List.length_map]; exact hL.size) (hL.placedCalls_lt h) ?_
  intro text htext
  obtain ⟨x, hx, rfl⟩ := List.mem_map.mp htext
  obtain ⟨p, hp, rfl⟩ := (hL.mem x).mp hx
  rw [h.textAt_eq hp]
  exact h.object p hp

theorem Ordering.nodes (h : CallGraph g) (hL : Ordering g L k) :
    NumberedNodes (L.map (textAt g)) (reordered g L k) :=
  (numbered_spec (by rw [List.length_map]; exact hL.size) (hL.placedCalls_lt h)).1

theorem Ordering.mem_callables (h : CallGraph g) (hL : Ordering g L k) {p : Nat} :
    p ∈ callables (reordered g L k) ↔ p < L.length := by
  rw [callables, (hL.nodes h).functions, (hL.nodes h).methods, List.append_nil, List.mem_range,
    List.length_map]

theorem Ordering.renumbered (h : CallGraph g) (hL : Ordering g L k) :
    Renumbered g (reordered g L k) fun x => L.idxOf x + 1 := by
  have hnodes := hL.nodes h
  have hat : ∀ i p, p ∈ callables g → L[i]? = some (g.nodeAt p).id →
      ((reordered g L k).nodeAt i).id = L.idxOf (g.nodeAt p).id + 1 ∧
        ((reordered g L k).nodeAt i).propertiesJson = (g.nodeAt p).propertiesJson := by
    intro i p hp hi
    have hlt := (List.getElem?_eq_some_iff.mp hi).1
    refine ⟨?_, ?_⟩
    · rw [hnodes.id i (by rwa [List.length_map]), hL.idxOf_eq hi]
    · refine (hnodes.properties i _ ?_).trans (h.textAt_eq hp)
      rw [List.getElem?_map, hi, Option.map_some]
  refine ⟨fun p hp => ?_, fun i hi => ?_, fun a b ha hb heq => ?_, fun a b ha hb => ?_⟩
  · have hmem : (g.nodeAt p).id ∈ L := (hL.mem _).mpr ⟨p, hp, rfl⟩
    refine ⟨L.idxOf (g.nodeAt p).id, ?_, hat _ p hp (List.getElem?_idxOf hmem)⟩
    rw [hL.mem_callables h]
    exact List.idxOf_lt_length_iff.mpr hmem
  · rw [hL.mem_callables h] at hi
    obtain ⟨p, hp, hid⟩ := (hL.mem _).mp (List.getElem_mem hi)
    exact ⟨p, hp, hat i p hp (by rw [List.getElem?_eq_getElem hi, hid])⟩
  · have hidx : L.idxOf a = L.idxOf b := by omega
    exact (List.idxOf_inj ((hL.mem a).mpr ha)).mp hidx
  · have hget : ∀ {x}, IsCallable g x → L[L.idxOf x]? = some x := fun hx =>
      List.getElem?_idxOf ((hL.mem _).mpr hx)
    rw [reordered, calls_numbered (by rw [List.length_map]; exact hL.size) (hL.placedCalls_lt h)]
    constructor
    · rintro ⟨e, he, hfst, hsnd⟩
      obtain ⟨x, y, hx, hy, hxy⟩ := (hL.mem_placedCalls h).mp he
      have hx' : e.1 = L.idxOf a := by omega
      have hy' : e.2 = L.idxOf b := by omega
      rw [hx', hget ha] at hx
      rw [hy', hget hb] at hy
      rwa [Option.some.inj hx, Option.some.inj hy]
    · intro hab
      exact ⟨(L.idxOf a, L.idxOf b), (hL.mem_placedCalls h).mpr ⟨a, b, hget ha, hget hb, hab⟩,
        rfl, rfl⟩

theorem Ordering.head?_callees (h : CallGraph g) (hL : Ordering g L k) {i : Nat} (hi : i < k) :
    (callees (reordered g L k) (i + 1)).head? = some ((i : Int) + 1 + 1) := by
  have hfind : (List.range k).find? ((fun e : Nat × Nat => decide ((e.1 : Int) + 1 = i + 1)) ∘
      fun j => (j, j + 1)) = some i := by
    rw [List.find?_range_eq_some]
    refine ⟨by simp, List.mem_range.mpr hi, fun j hj => ?_⟩
    simp only [Function.comp, Bool.not_eq_true', decide_eq_false_iff_not]
    omega
  rw [reordered, head?_callees_numbered (by rw [List.length_map]; exact hL.size)
    (hL.placedCalls_lt h), targets, List.head?_map, List.head?_filter, placedCalls,
    List.find?_append, List.find?_map, hfind]
  simp

theorem exists_ordering (h : CallGraph g) (hmark : InI64 g.idMark) {S : List Int} {v : Int}
    (hpath : SimplePath (Calls g) (S ++ [v])) (hv : IsCallable g v) :
    ∃ rest, Ordering g (S ++ [v] ++ rest) S.length := by
  let ids := ((callables g).map fun p => (g.nodeAt p).id).dedup
  have hids : ∀ x, x ∈ ids ↔ IsCallable g x := by
    intro x
    rw [List.mem_dedup, List.mem_map]
    exact Iff.rfl
  have hall := h.callable_of_chain hpath.chain hv
  refine ⟨ids.filter fun x => x ∉ S ++ [v], ?_⟩
  have hmem : ∀ x, x ∈ S ++ [v] ++ ids.filter (fun x => x ∉ S ++ [v]) ↔ IsCallable g x := by
    intro x
    rw [List.mem_append, List.mem_filter, decide_eq_true_iff, hids]
    constructor
    · exact fun hx => hx.elim (hall x) And.left
    · intro hx
      by_cases hfront : x ∈ S ++ [v]
      · exact Or.inl hfront
      · exact Or.inr ⟨hx, hfront⟩
  have hnodup : (S ++ [v] ++ ids.filter fun x => x ∉ S ++ [v]).Nodup := by
    refine List.nodup_append.mpr ⟨hpath.nodup, (List.nodup_dedup _).filter _, ?_⟩
    rintro x hx _ hy rfl
    exact (decide_eq_true_iff.mp (List.mem_filter.mp hy).2) hx
  refine ⟨hnodup, hmem, ?_, fun i hi => ?_⟩
  · rw [← List.toFinset_card_of_nodup hnodup]
    have hsub : (S ++ [v] ++ ids.filter fun x => x ∉ S ++ [v]).toFinset ⊆
        Finset.Icc 1 (g.idMark - 1) := by
      intro x hx
      obtain ⟨hlow, hhigh, _⟩ := h.inRange x ((hmem x).mp (List.mem_toFinset.mp hx))
      exact Finset.mem_Icc.mpr ⟨hlow, hhigh⟩
    have hcard := Finset.card_le_card hsub
    rw [Int.card_Icc] at hcard
    have hhigh := hmark.2
    omega
  · have hlength : (S ++ [v]).length = S.length + 1 := by simp
    have hstep := List.isChain_iff_getElem.mp hpath.chain i (by omega)
    refine ⟨_, _, ?_, ?_, hstep⟩
    · rw [List.getElem?_append_left (by omega), List.getElem?_eq_getElem]
    · rw [List.getElem?_append_left (by omega), List.getElem?_eq_getElem]

theorem Ordering.firstNext (h : CallGraph g) {S rest : List Int} {v : Int}
    (hL : Ordering g (S ++ [v] ++ rest) S.length) :
    ∃ l, (S ++ [v]).map (fun x => ((S ++ [v] ++ rest).idxOf x : Int) + 1) = 1 :: l ∧
      FirstNext (callees (reordered g (S ++ [v] ++ rest) S.length)) (1 :: l) := by
  have hplace : ∀ i, i < (S ++ [v]).length → ∀ hi : i < (S ++ [v]).length,
      (S ++ [v] ++ rest).idxOf (S ++ [v])[i] = i := by
    intro i _ hi
    refine hL.idxOf_eq ?_
    rw [List.getElem?_append_left hi, List.getElem?_eq_getElem hi]
  have hfirst : FirstNext (callees (reordered g (S ++ [v] ++ rest) S.length))
      ((S ++ [v]).map fun x => ((S ++ [v] ++ rest).idxOf x : Int) + 1) := by
    rw [FirstNext, List.isChain_iff_getElem]
    intro i hi
    rw [List.length_map] at hi
    rw [List.getElem_map, List.getElem_map, hplace i (by omega), hplace (i + 1) (by omega)]
    rw [List.length_append, List.length_singleton] at hi
    exact hL.head?_callees h (by omega)
  cases hmap : (S ++ [v]).map fun x => ((S ++ [v] ++ rest).idxOf x : Int) + 1 with
  | nil => exact absurd hmap (by simp)
  | cons a l =>
      obtain ⟨x, t, hx⟩ : ∃ x t, S ++ [v] = x :: t :=
        List.exists_cons_of_ne_nil (by simp)
      rw [hmap] at hfirst
      have ha : a = 1 := by
        rw [hx, List.map_cons] at hmap
        rw [← (List.cons.inj hmap).1, List.cons_append, List.idxOf_cons_self]
        rfl
      exact ⟨l, by rw [ha], ha ▸ hfirst⟩

theorem waysAround_of_always (h : CallGraph g) (hmark : InI64 g.idMark) (hshort : ShortPaths g)
    (halways : AlwaysFlagsRight g) : WaysAround g := by
  intro S p hp hpath hself hcycle
  have hv : IsCallable g (g.nodeAt p).id := ⟨p, hp, rfl⟩
  obtain ⟨rest, hL⟩ := exists_ordering h hmark hpath hv
  have hf := hL.renumbered h
  have h' := hL.callGraph h
  obtain ⟨l, hmap, hfirst⟩ := hL.firstNext h
  obtain ⟨p', hp', hid, htext⟩ := hf.into p hp
  have hall := h.callable_of_chain hpath.chain hv
  have hpath' := (hf.simplePath hall).mpr hpath
  rw [hmap] at hpath'
  have hend := hmap.symm
  rw [List.map_append, List.map_singleton, ← hid] at hend
  have haround := cycleAvoiding_of_flagsRight h' (hf.shortPaths h' hshort)
    (halways _ _ h' hf) hp' hpath' hfirst hend
    ((Renumbered.selfRecursive_eq htext).trans hself)
    (by rw [hid]; exact (hf.onCycle h h' hv).mpr hcycle)
  rw [hid] at haround
  exact (hf.cycleAvoiding h h' (fun x hx => hall x (List.mem_append_left _ hx)) hv).mp haround

end Reordered

/-- The flags are right in every numbering if and only if there are ways around all
paths. -/
theorem recursive_flags_iff (g : Gbuf) (h : CallGraph g) (hmark : InI64 g.idMark)
    (hshort : ShortPaths g) : AlwaysFlagsRight g ↔ WaysAround g := by
  constructor
  · exact waysAround_of_always h hmark hshort
  · exact fun hway g' f h' hf => flagsRight_of_waysAround h' (hf.shortPaths h' hshort)
      (hf.waysAround h h' hway)

theorem shortPaths_numbered {texts : List CStr} {edges : List (Nat × Nat)}
    (hsize : texts.length ≤ 257)
    (hedges : ∀ e ∈ edges, e.1 < texts.length ∧ e.2 < texts.length)
    (hgraph : CallGraph (numbered texts edges)) : ShortPaths (numbered texts edges) := by
  intro l hpath
  by_cases hlong : 1 < l.length
  · have hnodes := (numbered_spec (by omega) hedges).1
    have hsub : l.toFinset ⊆ Finset.Icc (1 : Int) texts.length := by
      intro x hx
      obtain ⟨p, hp, rfl⟩ :=
        hgraph.callable_of_path hpath.chain hlong x (List.mem_toFinset.mp hx)
      rw [callables, hnodes.functions, hnodes.methods, List.append_nil, List.mem_range] at hp
      rw [hnodes.id p hp, Finset.mem_Icc]
      omega
    have hcard := Finset.card_le_card hsub
    rw [List.toFinset_card_of_nodup hpath.nodup, Int.card_Icc] at hcard
    rw [cbmTldMaxDepth]
    omega
  · omega

def callEachOther : Gbuf :=
  numbered [emptyObject, emptyObject] [(0, 1), (1, 0)]

theorem callGraph_callEachOther : CallGraph callEachOther :=
  numbered_callGraph (by decide) (by decide) (by decide)

theorem idMark_callEachOther : InI64 callEachOther.idMark := by
  decide

theorem shortPaths_callEachOther : ShortPaths callEachOther :=
  shortPaths_numbered (by decide) (by decide) callGraph_callEachOther

theorem recursive_flags_iff_two : AlwaysFlagsRight callEachOther ↔ WaysAround callEachOther :=
  recursive_flags_iff callEachOther callGraph_callEachOther idMark_callEachOther
    shortPaths_callEachOther

/-- Only the one that is searched first is flagged. -/
theorem not_flagsRight : CallGraph callEachOther ∧ ShortPaths callEachOther ∧
    ¬ FlagsRight callEachOther := by
  refine ⟨callGraph_callEachOther, shortPaths_callEachOther, fun hright => ?_⟩
  have hedges : ∀ e ∈ [(0, 1), (1, 0)], e.1 < [emptyObject, emptyObject].length ∧
      e.2 < [emptyObject, emptyObject].length := by
    decide
  have hnodes : NumberedNodes [emptyObject, emptyObject] callEachOther :=
    (numbered_spec (by decide) hedges).1
  have hcalls : ∀ x y, Calls callEachOther x y ↔ x = 1 ∧ y = 2 ∨ x = 2 ∧ y = 1 := by
    intro x y
    rw [callEachOther, calls_numbered (by decide) hedges]
    simp [eq_comm]
  have hid : (callEachOther.nodeAt 1).id = 2 := hnodes.id 1 (by decide)
  have hp : 1 ∈ callables callEachOther := by
    rw [callables, hnodes.functions]
    decide
  have hself : selfRecursive callEachOther 1 = false := by
    rw [selfRecursive, hnodes.properties 1 emptyObject rfl]
    decide
  have hfirst : FirstNext (callees callEachOther) [1, 2] := by
    refine List.isChain_pair.mpr ?_
    rw [callEachOther, head?_callees_numbered (by decide) hedges]
    rfl
  have hpath : SimplePath (Calls callEachOther) [1, 2] :=
    ⟨by decide, List.isChain_pair.mpr ((hcalls 1 2).mpr (Or.inl ⟨rfl, rfl⟩))⟩
  have hcycle : OnCycle (Calls callEachOther) 2 :=
    .head ((hcalls 2 1).mpr (Or.inr ⟨rfl, rfl⟩)) (.single ((hcalls 1 2).mpr (Or.inl ⟨rfl, rfl⟩)))
  have haround := @cycleAvoiding_of_flagsRight callEachOther callGraph_callEachOther
    shortPaths_callEachOther hright [2] [1] 1 hp hpath hfirst (by rw [hid]; rfl) hself
    (by rwa [hid])
  -- the only call of the second function is back to the first
  rw [hid] at haround
  obtain ⟨y, ⟨hstep, hy⟩, _⟩ := Relation.TransGen.head'_iff.mp haround
  rcases (hcalls 2 y).mp hstep with ⟨h, _⟩ | ⟨_, rfl⟩
  · exact absurd h (by decide)
  · exact hy List.mem_cons_self

end Pipeline
end CodebaseMemory
