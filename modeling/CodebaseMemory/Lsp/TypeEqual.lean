import CodebaseMemory.Lsp.TypeArena

/-!
# When types are equal (`internal/cbm/lsp/type_rep.c`)

`cbm_type_equal` compares unions and intersections as sets, by one inclusion and by
their sizes.  `cbm_type_union` drops equal members, and `cbm_type_intersection` does
not; with a repeated member, `A & A` is in `A & B` but not the other way round.

`Same` is equality as the header says it, with sets compared both ways.
-/

namespace CodebaseMemory
namespace Lsp

open Lib
open Sqlite (CStr bytesOf)

/-- From an address on, no intersection has two members that are the same. -/
def NoRepeat (A : Arena) (from' : Nat) : Prop :=
  ∀ (i : Nat) (ms : List Ptr), from' ≤ i → A[i]? = some (.intersection ms) →
    ms.Pairwise fun m m' => ¬ Same A.nodes m m'

def EqualIsEquivalence (A : Arena) : Prop :=
  Equivalence fun a b => cbmTypeEqual A a b = true

section Repeat

variable {A : Arena}

theorem equal_iff_same (hA : Sound A) (h : Unrepeated A.nodes) (a b : Ptr) :
    cbmTypeEqual A a b = true ↔ Same A.nodes a b := by
  rw [cbmTypeEqual_eq hA.made]
  by_cases ha : A.Points a
  · exact equalFuel_iff_same hA.down h ha
  · refine ⟨same_of_equalFuel h _, fun hsame => ?_⟩
    rw [eq_of_same (mt holds_iff.mp ha) hsame]
    exact equalFuel_refl _ b

theorem cbmTypeEqual_refl (A : Arena) (a : Ptr) : cbmTypeEqual A a a = true := by
  rw [cbmTypeEqual]
  cases A.length with
  | zero => exact beq_self_eq_true a
  | succ n => rw [equalLayers, beq_self_eq_true, Bool.true_or]

theorem cbmTypeEqual_trans (hA : Sound A) (a b c : Ptr) (hab : cbmTypeEqual A a b = true)
    (hbc : cbmTypeEqual A b c = true) : cbmTypeEqual A a c = true := by
  rw [cbmTypeEqual_eq hA.made] at *
  exact equalFuel_trans _ hab hbc

theorem unrepeated_append (hA : Sound A) (h : Unrepeated A.nodes) {cell : Cell}
    (hfits : Fits A cell)
    (hcell : ∀ ms, cell = .intersection ms → ms.Pairwise fun m m' => ¬ Same A.nodes m m') :
    Unrepeated (A ++ [cell]).nodes := by
  rw [nodes_append]
  refine h.append hA.down (fun k hk => holds_iff.mpr (hfits.kids k hk)) fun l ms heq => ?_
  cases cell with
  | intersection ms' =>
      obtain ⟨_, rfl⟩ := DagNode.members.inj heq
      exact hcell ms' rfl
  | union ms' =>
      obtain ⟨_, rfl⟩ := DagNode.members.inj heq
      refine (hfits.members ms' rfl).1.imp fun hne hsame => ?_
      have hequal := (equal_iff_same hA h _ _).mpr ((same_equivalence A.nodes).symm hsame)
      exact absurd hequal (by simp [hne])
  | _ => exact absurd heq (by simp [Cell.shape])

structure FirstRepeat (A A₀ : Arena) (ms : List Ptr) (rest : Arena) : Prop where
  eq : A = A₀ ++ .intersection ms :: rest
  sound : Sound A₀
  unrepeated : Unrepeated A₀.nodes
  points : ∀ m ∈ ms, A₀.Points m
  repeated : ¬ ms.Pairwise fun m m' => ¬ Same A₀.nodes m m'

theorem first_repeat (h : Built A) :
    Unrepeated A.nodes ∨ ∃ A₀ ms rest, FirstRepeat A A₀ ms rest := by
  induction h with
  | refl =>
      refine Or.inl fun i l ms hi => ?_
      exact absurd (List.mem_singleton.mp (List.mem_of_getElem? hi)) (by simp [Cell.shape])
  | @tail B C hB hstep ih =>
      have hsound := sound_of_built hB
      rcases step_cases hsound hstep with rfl | ⟨cell, hfits, rfl⟩
      · exact ih
      rcases ih with hunrepeated | ⟨A₀, ms, rest, hfirst⟩
      · by_cases hcell : ∀ ms, cell = .intersection ms →
            ms.Pairwise fun m m' => ¬ Same B.nodes m m'
        · exact Or.inl (unrepeated_append hsound hunrepeated hfits hcell)
        · simp only [not_forall] at hcell
          obtain ⟨ms, rfl, hrepeated⟩ := hcell
          exact Or.inr ⟨B, ms, [], rfl, hsound, hunrepeated, hfits.kids, hrepeated⟩
      · refine Or.inr ⟨A₀, ms, rest ++ [cell], ?_, hfirst.sound, hfirst.unrepeated, hfirst.points,
          hfirst.repeated⟩
        rw [hfirst.eq, List.append_assoc, List.cons_append]

theorem FirstRepeat.not_noRepeat {A₀ rest : Arena} {ms : List Ptr} (h : FirstRepeat A A₀ ms rest) :
    ¬ NoRepeat A 0 := by
  obtain ⟨rfl, hsound, _, hpoints, hrepeated⟩ := h
  intro hno
  refine hrepeated ((hno A₀.length ms (Nat.zero_le _) (by simp)).imp_of_mem
    fun hm hm' hne hsame => hne ?_)
  rw [nodes_append]
  exact (same_append hsound.down _ (holds_iff.mpr (hpoints _ hm))
    (holds_iff.mpr (hpoints _ hm'))).mpr hsame

theorem unrepeated_of_noRepeat (h : Built A) (hno : NoRepeat A 0) : Unrepeated A.nodes :=
  (first_repeat h).resolve_right fun ⟨_, _, _, hfirst⟩ => hfirst.not_noRepeat hno

theorem equalIsEquivalence_of_noRepeat (h : Built A) (hno : NoRepeat A 0) :
    EqualIsEquivalence A := by
  have hiff := fun a b => equal_iff_same (sound_of_built h) (unrepeated_of_noRepeat h hno) a b
  refine ⟨fun a => (hiff a a).mpr ((same_equivalence _).refl a), fun hab => ?_, fun hab hbc => ?_⟩
  · exact (hiff _ _).mpr ((same_equivalence _).symm ((hiff _ _).mp hab))
  · exact (hiff _ _).mpr ((same_equivalence _).trans ((hiff _ _).mp hab) ((hiff _ _).mp hbc))

end Repeat

section Witness

variable {A : Arena}

/-- A type that is equal to itself only. -/
def freshFunc : Cell := .func none none none

theorem step_func (A : Arena) : Step A (A ++ [freshFunc]) :=
  Step.func none (fun _ hi => absurd hi List.not_mem_nil) fun _ hi => absurd hi List.not_mem_nil

theorem reaches_funcs (A : Arena) (k : Nat) :
    Relation.ReflTransGen Step A (A ++ List.replicate k freshFunc) := by
  induction k with
  | zero => exact (List.append_nil A).symm ▸ .refl
  | succ k ih =>
      rw [List.replicate_succ', ← List.append_assoc]
      exact ih.tail (step_func _)

/-- As many new types as members were repeated, behind the members that differ. -/
def replaced (A A₀ : Arena) (ms : List Ptr) : List Ptr :=
  keepFirst (cbmTypeEqual A₀) ms ++
    (List.range (ms.length - (keepFirst (cbmTypeEqual A₀) ms).length)).map fun j =>
      some (A.length + j)

/-- The arena with the new types and their intersection. -/
def withReplaced (A A₀ : Arena) (ms : List Ptr) : Arena :=
  (A ++ List.replicate (ms.length - (keepFirst (cbmTypeEqual A₀) ms).length) freshFunc) ++
    [.intersection (replaced A A₀ ms)]

variable {A₀ rest : Arena} {ms : List Ptr}

theorem FirstRepeat.length_lt (h : FirstRepeat A A₀ ms rest) :
    (keepFirst (cbmTypeEqual A₀) ms).length < ms.length := by
  have hsublist := keepFirst_sublist (cbmTypeEqual A₀) ms
  refine Nat.lt_of_le_of_ne hsublist.length_le fun hlength => h.repeated ?_
  have hpairs := pairwise_keepFirst (cbmTypeEqual A₀) ms
  rw [hsublist.eq_of_length hlength] at hpairs
  refine hpairs.imp fun hne hsame => ?_
  have hequal := (equal_iff_same h.sound h.unrepeated _ _).mpr
    ((same_equivalence A₀.nodes).symm hsame)
  exact absurd hequal (by simp [hne])

theorem length_replaced (h : FirstRepeat A A₀ ms rest) : (replaced A A₀ ms).length = ms.length := by
  have hlt := h.length_lt
  rw [replaced, List.length_append, List.length_map, List.length_range]
  omega

theorem reaches_withReplaced (h : FirstRepeat A A₀ ms rest) :
    Relation.ReflTransGen Step A (withReplaced A A₀ ms) := by
  refine (reaches_funcs A _).tail (Step.intersection fun m hm => ?_)
  rcases List.mem_append.mp hm with hm | hm
  · have hpoints := h.points m ((keepFirst_sublist _ _).subset hm)
    rintro i rfl
    have hlt := hpoints i rfl
    rw [List.length_append, h.eq, List.length_append]
    omega
  · obtain ⟨j, hj, rfl⟩ := List.mem_map.mp hm
    rintro i hi
    obtain rfl := Option.some.inj hi
    rw [List.length_append, List.length_replicate]
    have hj := List.mem_range.mp hj
    omega

theorem getElem?_withReplaced {j : Nat}
    (hj : j < ms.length - (keepFirst (cbmTypeEqual A₀) ms).length) :
    (withReplaced A A₀ ms).nodes[A.length + j]? = some .own := by
  rw [withReplaced, Arena.nodes, List.getElem?_map, List.getElem?_append_left (by
    rw [List.length_append, List.length_replicate]
    omega), List.getElem?_append_right (Nat.le_add_right _ _), Nat.add_sub_cancel_left,
    List.getElem?_replicate_of_lt hj]
  rfl

theorem exists_rest_withReplaced (h : FirstRepeat A A₀ ms rest) :
    ∃ rest', withReplaced A A₀ ms = A₀ ++ .intersection ms :: rest' :=
  ⟨rest ++ (List.replicate _ freshFunc ++ [.intersection (replaced A A₀ ms)]), by
    rw [withReplaced, List.append_assoc]
    nth_rewrite 1 [h.eq]
    rw [List.append_assoc, List.cons_append]⟩

theorem not_same_fresh {j : Nat} (hj : j < ms.length - (keepFirst (cbmTypeEqual A₀) ms).length)
    {p : Ptr} (hp : p ≠ some (A.length + j)) :
    ¬ Same (withReplaced A A₀ ms).nodes (some (A.length + j)) p :=
  fun hsame => hp (same_own (getElem?_withReplaced hj) hsame)

theorem FirstRepeat.ne_fresh (h : FirstRepeat A A₀ ms rest) {m : Ptr} (hm : m ∈ ms) (j : Nat) :
    m ≠ some (A.length + j) := by
  rintro rfl
  have hlt := h.points _ hm _ rfl
  rw [h.eq, List.length_append] at hlt
  omega

theorem noRepeat_withReplaced (h : FirstRepeat A A₀ ms rest) :
    NoRepeat (withReplaced A A₀ ms) A.length := by
  obtain ⟨rest', heq⟩ := exists_rest_withReplaced h
  have hkept : (keepFirst (cbmTypeEqual A₀) ms).Pairwise fun m m' =>
      ¬ Same (withReplaced A A₀ ms).nodes m m' := by
    refine (pairwise_keepFirst (cbmTypeEqual A₀) ms).imp_of_mem fun hm hm' hne hsame => ?_
    have hpoints := h.points _ ((keepFirst_sublist _ _).subset hm)
    have hpoints' := h.points _ ((keepFirst_sublist _ _).subset hm')
    rw [heq, nodes_append, same_append h.sound.down _ (holds_iff.mpr hpoints)
      (holds_iff.mpr hpoints')] at hsame
    have hequal := (equal_iff_same h.sound h.unrepeated _ _).mpr
      ((same_equivalence A₀.nodes).symm hsame)
    exact absurd hequal (by simp [hne])
  have hnew : (replaced A A₀ ms).Pairwise fun m m' =>
      ¬ Same (withReplaced A A₀ ms).nodes m m' := by
    refine List.pairwise_append.mpr ⟨hkept, ?_, fun m hm m' hm' hsame => ?_⟩
    · rw [List.pairwise_map]
      refine List.pairwise_lt_range.imp_of_mem fun hj _ hlt => ?_
      refine not_same_fresh (List.mem_range.mp hj) fun hsome => ?_
      have := Option.some.inj hsome
      omega
    · obtain ⟨j, hj, rfl⟩ := List.mem_map.mp hm'
      exact not_same_fresh (List.mem_range.mp hj)
        (h.ne_fresh ((keepFirst_sublist _ _).subset hm) j) ((same_equivalence _).symm hsame)
  intro i ms' hi hcell
  -- behind the old types there are the new ones and one intersection
  rw [withReplaced, List.append_assoc, List.getElem?_append_right hi] at hcell
  rcases List.mem_append.mp (List.mem_of_getElem? hcell) with hfunc | hlast
  · exact absurd (List.eq_of_mem_replicate hfunc) (by simp [freshFunc])
  · obtain rfl := Cell.intersection.inj (List.mem_singleton.mp hlast)
    exact hnew

theorem not_symmetric_withReplaced (hA : Sound A) (h : FirstRepeat A A₀ ms rest) :
    ¬ EqualIsEquivalence (withReplaced A A₀ ms) := by
  intro hequivalence
  obtain ⟨rest', heq⟩ := exists_rest_withReplaced h
  obtain ⟨hsound, _⟩ := exists_rest hA (reaches_withReplaced h)
  obtain ⟨n, hn⟩ : ∃ n, n = (A ++ List.replicate
      (ms.length - (keepFirst (cbmTypeEqual A₀) ms).length) freshFunc).length := ⟨_, rfl⟩
  have hlength : (withReplaced A A₀ ms).length = n + 1 := by
    rw [hn, withReplaced, List.length_append, List.length_singleton]
  have hlt : A₀.length < n := by
    rw [hn, List.length_append, h.eq, List.length_append, List.length_cons]
    omega
  have hold : (withReplaced A A₀ ms).nodes[A₀.length]? = some (.members (21, [], 0) ms) := by
    rw [heq, Arena.nodes, List.getElem?_map, List.getElem?_append_right (Nat.le_refl _),
      Nat.sub_self]
    rfl
  have hnew : (withReplaced A A₀ ms).nodes[n]? =
      some (.members (21, [], 0) (replaced A A₀ ms)) := by
    rw [withReplaced, Arena.nodes, List.getElem?_map, hn,
      List.getElem?_append_right (Nat.le_refl _), Nat.sub_self]
    rfl
  have hforward : cbmTypeEqual (withReplaced A A₀ ms) (some A₀.length) (some n) = true := by
    rw [cbmTypeEqual_eq hsound.made, hlength]
    refine equalFuel_succ.mpr (Or.inr ⟨_, _, _, _, rfl, rfl, hold, hnew, DagNode.equal_iff.mpr
      (Or.inr ⟨_, ms, _, rfl, rfl, (length_replaced h).symm, fun m hm => ?_⟩)⟩)
    obtain ⟨k, hk, hmk⟩ := exists_mem_keepFirst (cbmTypeEqual_refl A₀) hm
    refine ⟨k, List.mem_append_left _ hk, ?_⟩
    have hm' := h.points m hm
    have hk' := h.points k ((keepFirst_sublist _ _).subset hk)
    rw [heq, nodes_append, equalFuel_append h.sound.down _ _ (holds_iff.mpr hm')
      (holds_iff.mpr hk'), ← hmk, cbmTypeEqual_eq h.sound.made]
    exact equalFuel_stable h.sound.down _ (fun i hi => (hm' i hi).trans hlt) hm'
  have hback := hequivalence.symm hforward
  rw [cbmTypeEqual_eq hsound.made, hlength] at hback
  rcases equalFuel_succ.mp hback with hsame | ⟨i, j, c, d, hi, hj, hc, hd, hcd⟩
  · exact absurd (Option.some.inj hsame) (Nat.ne_of_gt hlt)
  obtain rfl := Option.some.inj hi
  obtain rfl := Option.some.inj hj
  obtain rfl := Option.some.inj (hnew.symm.trans hc)
  obtain rfl := Option.some.inj (hold.symm.trans hd)
  rcases DagNode.equal_iff.mp hcd with ⟨_, _, _, hkind, _⟩ | ⟨_, _, _, hleft, hright, _, hall⟩
  · exact absurd hkind (by simp)
  obtain ⟨_, rfl⟩ := DagNode.members.inj hleft
  obtain ⟨_, rfl⟩ := DagNode.members.inj hright
  -- the first of the new types has no equal in the old intersection
  have hpos : 0 < ms.length - (keepFirst (cbmTypeEqual A₀) ms).length :=
    Nat.sub_pos_of_lt h.length_lt
  obtain ⟨m', hm', hequal⟩ := hall (some (A.length + 0))
    (List.mem_append_right _ (List.mem_map_of_mem (List.mem_range.mpr hpos)))
  exact h.ne_fresh hm' 0 (equalFuel_own (getElem?_withReplaced hpos) hequal)

end Witness

/-- Equality stays an equivalence, as long as no new intersection has a repeated member,
exactly if no intersection has one. -/
theorem type_equal_iff (A : Arena) (hA : Built A) :
    (∀ A', Relation.ReflTransGen Step A A' → NoRepeat A' A.length → EqualIsEquivalence A') ↔
      NoRepeat A 0 := by
  constructor
  · intro h
    rcases first_repeat hA with hunrepeated | ⟨A₀, ms, rest, hfirst⟩
    · intro i ms _ hi
      refine hunrepeated i (21, [], 0) ms ?_
      rw [Arena.nodes, List.getElem?_map, hi]
      rfl
    · exact absurd (h _ (reaches_withReplaced hfirst) (noRepeat_withReplaced hfirst))
        (not_symmetric_withReplaced (sound_of_built hA) hfirst)
  · intro hno A' hrun hnew
    refine equalIsEquivalence_of_noRepeat (hA.trans hrun) fun i ms _ hi => ?_
    rcases Nat.lt_or_ge i A.length with hlt | hge
    · obtain ⟨_, rest, rfl⟩ := exists_rest (sound_of_built hA) hrun
      rw [List.getElem?_append_left hlt] at hi
      have hsound := sound_of_built hA
      have hpoints : ∀ m ∈ ms, Holds A.nodes m := by
        intro m hm
        have hnode : A.nodes[i]? = some (.members (21, [], 0) ms) := by
          rw [Arena.nodes, List.getElem?_map, hi]
          rfl
        exact hsound.down.holds_kid hnode hm
      refine (hno i ms (Nat.zero_le i) hi).imp_of_mem fun hm hm' hne hsame => hne ?_
      rwa [nodes_append, same_append hsound.down _ (hpoints _ hm) (hpoints _ hm')] at hsame
    · exact hnew i ms hge hi

theorem type_equal_iff_new :
    (∀ A', Relation.ReflTransGen Step newArena A' → NoRepeat A' newArena.length →
      EqualIsEquivalence A') ↔ NoRepeat newArena 0 :=
  type_equal_iff newArena .refl

/-- `A & A` and `A & B`. -/
def repeatedArena : Arena :=
  let a := cbmTypeBuiltin newArena (some (bytesOf "A"))
  let b := cbmTypeBuiltin a.1 (some (bytesOf "B"))
  let aa := cbmTypeIntersection b.1 [a.2, a.2]
  (cbmTypeIntersection aa.1 [a.2, b.2]).1

theorem built_repeatedArena : Built repeatedArena := by
  refine (((Relation.ReflTransGen.single (Step.builtin _)).tail (Step.builtin _)).tail
    (Step.intersection fun m hm => ?_)).tail (Step.intersection fun m hm => ?_)
  · rintro i rfl
    obtain rfl : i = 1 := by simpa [cbmTypeBuiltin, alloc, newArena] using hm
    decide
  · rintro i rfl
    obtain rfl | rfl : i = 1 ∨ i = 2 := by simpa [cbmTypeBuiltin, alloc, newArena] using hm
    · decide
    · decide

/-- The first is equal to the second, and the second is not equal to the first. -/
theorem not_equalIsEquivalence :
    Built repeatedArena ∧ cbmTypeEqual repeatedArena (some 3) (some 4) = true ∧
      cbmTypeEqual repeatedArena (some 4) (some 3) = false :=
  ⟨built_repeatedArena, by decide +kernel, by decide +kernel⟩

end Lsp
end CodebaseMemory
