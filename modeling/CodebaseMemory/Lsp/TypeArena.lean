import CodebaseMemory.Lsp.TypeRep

/-!
# The arenas that constructors build (`internal/cbm/lsp/type_rep.c`)

`Step A A'` is one call of a constructor, with pointers into the arena.
-/

namespace CodebaseMemory
namespace Lsp

open Lib
open Sqlite (CStr bytesOf)

def Arena.Points (A : Arena) (p : Ptr) : Prop :=
  ∀ i, p = some i → i < A.length

/-- A call of a constructor; `cbm_type_optional` is two calls. -/
inductive Step (A : Arena) : Arena → Prop
  | named (q : Option CStr) : Step A (cbmTypeNamed A q).1
  | pointer {e : Ptr} (he : A.Points e) : Step A (cbmTypePointer A e).1
  | slice {e : Ptr} (he : A.Points e) : Step A (cbmTypeSlice A e).1
  | map {k v : Ptr} (hk : A.Points k) (hv : A.Points v) : Step A (cbmTypeMap A k v).1
  | channel {e : Ptr} (d : Int) (he : A.Points e) : Step A (cbmTypeChannel A e d).1
  | func (names : Option (List CStr)) {params returns : Option (List Nat)}
      (hparams : ∀ i ∈ params.getD [], i < A.length)
      (hreturns : ∀ i ∈ returns.getD [], i < A.length) :
      Step A (cbmTypeFunc A names params returns).1
  | builtin (n : Option CStr) : Step A (cbmTypeBuiltin A n).1
  | tuple {es : List Ptr} (hes : ∀ e ∈ es, A.Points e) : Step A (cbmTypeTuple A es).1
  | typeParam (n : Option CStr) : Step A (cbmTypeTypeParam A n).1
  | reference {e : Ptr} (he : A.Points e) : Step A (cbmTypeReference A e).1
  | rvalueRef {e : Ptr} (he : A.Points e) : Step A (cbmTypeRvalueRef A e).1
  | template (n : Option CStr) {as : List Ptr} (has : ∀ a ∈ as, A.Points a) :
      Step A (cbmTypeTemplate A n as).1
  | alias (q : Option CStr) {u : Ptr} (hu : A.Points u) : Step A (cbmTypeAlias A q u).1
  | union {ms : List Ptr} (hms : ∀ m ∈ ms, A.Points m) : Step A (cbmTypeUnion A ms).1
  | literal {b : Ptr} (t : Option CStr) (hb : A.Points b) : Step A (cbmTypeLiteral A b t).1
  | protocol (q : Option CStr) (names : List CStr) {sigs : Option (List Ptr)}
      (hsigs : ∀ s ∈ sigs.getD [], A.Points s) : Step A (cbmTypeProtocol A q names sigs).1
  | module (q : Option CStr) : Step A (cbmTypeModule A q).1
  | callable {ps : List Ptr} {n : Int} {r : Ptr} (hn : ps.length = n.toNat)
      (hps : ∀ p ∈ ps, A.Points p) (hr : A.Points r) : Step A (cbmTypeCallable A ps n r).1
  | intersection {ms : List Ptr} (hms : ∀ m ∈ ms, A.Points m) :
      Step A (cbmTypeIntersection A ms).1
  | tsLiteral (t v : Option CStr) : Step A (cbmTypeTsLiteral A t v).1
  | indexed {o i : Ptr} (ho : A.Points o) (hi : A.Points i) : Step A (cbmTypeIndexed A o i).1
  | keyof {o : Ptr} (ho : A.Points o) : Step A (cbmTypeKeyof A o).1
  | typeofQuery (e : Option CStr) : Step A (cbmTypeTypeofQuery A e).1
  | conditional {c e t f : Ptr} (hc : A.Points c) (he : A.Points e) (ht : A.Points t)
      (hf : A.Points f) : Step A (cbmTypeConditional A c e t f).1
  | objectLit (names : List CStr) {types : List Nat} {call index : Ptr}
      (htypes : ∀ i ∈ types, i < A.length) (hcall : A.Points call) (hindex : A.Points index) :
      Step A (cbmTypeObjectLit A names types call index).1
  | infer (n : Option CStr) : Step A (cbmTypeInfer A n).1
  | mapped (n : Option CStr) {k v : Ptr} (hk : A.Points k) (hv : A.Points v) :
      Step A (cbmTypeMapped A n k v).1

def Built (A : Arena) : Prop :=
  Relation.ReflTransGen Step newArena A

/-- A type that may be a member of a union. -/
def Arena.Part (A : Arena) (m : Ptr) : Prop :=
  ∃ cell, A.read m = some cell ∧ cell ≠ .unknown ∧ ∀ ms, cell ≠ .union ms

/-- What holds of all arenas that calls build. -/
structure Sound (A : Arena) : Prop where
  first : A[0]? = some .unknown
  made : A.Made
  down : Down A.nodes
  members : ∀ (i : Nat) (ms : List Ptr), A[i]? = some (.union ms) →
    (ms.Pairwise fun x y => cbmTypeEqual A y x = false) ∧ ∀ m ∈ ms, A.Part m

/-- A new type, as a call may write it. -/
structure Fits (A : Arena) (cell : Cell) : Prop where
  made : cell.Made
  kids : ∀ k ∈ cell.shape.kids, A.Points k
  members : ∀ ms, cell = .union ms →
    (ms.Pairwise fun x y => cbmTypeEqual A y x = false) ∧ ∀ m ∈ ms, A.Part m

section Union

variable {A : Arena} {members : List Ptr}

/-- The members of a listed type: those of a union, none of an unknown one, else itself. -/
def flattenOne (A : Arena) (m : Ptr) : List Ptr :=
  match A.read m with
  | none => []
  | some .unknown => []
  | some (.union ms) => ms
  | some _ => [m]

/-- The listed types, with the members of listed unions in place of the unions. -/
def flatten (A : Arena) (members : List Ptr) : List Ptr :=
  members.flatMap (flattenOne A)

theorem foldl_pushFlat (cap : Nat) (l flat : List Ptr) :
    l.foldl (pushFlat cap) flat = flat ++ l.take (cap - flat.length) := by
  induction l generalizing flat with
  | nil => simp
  | cons m l ih =>
      rw [List.foldl_cons, ih, pushFlat]
      split
      · next hlt =>
          have hroom : cap - flat.length = (cap - (flat ++ [m]).length) + 1 := by
            rw [List.length_append, List.length_singleton]
            omega
          rw [hroom, List.take_succ_cons, List.append_assoc, List.singleton_append]
      · next hfull =>
          have hroom : cap - flat.length = 0 := by omega
          rw [hroom, List.take_zero, List.take_zero]

theorem flattenStep_eq (cap : Nat) (flat : List Ptr) (m : Ptr) :
    flattenStep A cap flat m = (flattenOne A m).foldl (pushFlat cap) flat := by
  unfold flattenStep flattenOne
  cases A.read m with
  | none => rfl
  | some cell => cases cell <;> rfl

theorem foldl_flattenStep (cap : Nat) :
    members.foldl (flattenStep A cap) [] = (flatten A members).take cap := by
  have hstep : flattenStep A cap = fun flat m => (flattenOne A m).foldl (pushFlat cap) flat :=
    funext fun flat => funext fun m => flattenStep_eq cap flat m
  rw [hstep, ← List.foldl_flatMap, foldl_pushFlat, List.nil_append, List.length_nil, Nat.sub_zero]
  rfl

def unionMembers (A : Arena) (members : List Ptr) : List Ptr :=
  keepFirst (cbmTypeEqual A) ((flatten A members).take (members.length * 2 + 4))

theorem cbmTypeUnion_eq (A : Arena) (members : List Ptr) :
    cbmTypeUnion A members =
      match unionMembers A members with
      | [] => (A, unknownSingleton)
      | [m] => (A, m)
      | unique => alloc A (.union unique) := by
  rw [cbmTypeUnion, foldl_flattenStep]
  rfl

theorem mem_unionMembers {m : Ptr} (h : m ∈ unionMembers A members) : m ∈ flatten A members :=
  List.mem_of_mem_take ((keepFirst_sublist _ _).subset h)

theorem Arena.Points.read {p : Ptr} {cell : Cell} (h : A.read p = some cell) : A.Points p := by
  rintro i rfl
  exact (List.getElem?_eq_some_iff.mp h).1

theorem Sound.mem_flatten (hA : Sound A) {m : Ptr} (h : m ∈ flatten A members) : A.Part m := by
  obtain ⟨p, _, hm⟩ := List.mem_flatMap.mp h
  unfold flattenOne at hm
  cases hp : A.read p with
  | none =>
      rw [hp] at hm
      exact absurd hm List.not_mem_nil
  | some cell =>
      rw [hp] at hm
      cases cell with
      | unknown => exact absurd hm List.not_mem_nil
      | union ms =>
          obtain ⟨i, rfl, hi⟩ := Option.bind_eq_some_iff.mp hp
          exact (hA.members i ms hi).2 m hm
      | _ =>
          rw [List.mem_singleton.mp hm]
          exact ⟨_, hp, by simp, by simp⟩

theorem union_cases (hA : Sound A) (members : List Ptr) :
    (cbmTypeUnion A members).1 = A ∨
      Fits A (.union (unionMembers A members)) ∧
        (cbmTypeUnion A members).1 = A ++ [.union (unionMembers A members)] := by
  have hpart : ∀ m ∈ unionMembers A members, A.Part m := fun m hm =>
    hA.mem_flatten (mem_unionMembers hm)
  have hfits : Fits A (.union (unionMembers A members)) := by
    refine ⟨trivial, fun k hk => ?_, ?_⟩
    · obtain ⟨cell, hcell, _⟩ := hpart k hk
      exact Arena.Points.read hcell
    · rintro ms heq
      obtain rfl := Cell.union.inj heq
      exact ⟨pairwise_keepFirst _ _, hpart⟩
  rw [cbmTypeUnion_eq]
  split
  · exact Or.inl rfl
  · exact Or.inl rfl
  · exact Or.inr ⟨hfits, rfl⟩

end Union

section Calls

variable {A A' : Arena}

theorem Arena.Points.or {p q : Ptr} (hp : A.Points p) (hq : A.Points q) : A.Points (p.or q) := by
  cases p with
  | none => exact hq
  | some i => exact hp

theorem points_unknown (hA : Sound A) : A.Points unknownSingleton := by
  rintro i hi
  obtain rfl := Option.some.inj hi
  exact (List.getElem?_eq_some_iff.mp hA.first).1

theorem step_cases (hA : Sound A) (h : Step A A') :
    A' = A ∨ ∃ cell, Fits A cell ∧ A' = A ++ [cell] := by
  have hleaf : ∀ cell : Cell, cell.Made → (∀ k ∈ cell.shape.kids, A.Points k) →
      (∀ ms, cell ≠ .union ms) → (∃ c, Fits A c ∧ (alloc A cell).1 = A ++ [c]) :=
    fun cell hmade hkids hunion => ⟨cell, ⟨hmade, hkids, fun ms heq => absurd heq (hunion ms)⟩, rfl⟩
  cases h with
  | union hms => exact (union_cases hA _).imp_right fun h => ⟨_, h⟩
  | callable hn hps hr =>
      refine Or.inr (hleaf _ ?_ ?_ (by simp))
      · rw [List.take_of_length_le (Nat.le_of_eq hn)]
        exact hn
      · intro k hk
        rcases List.mem_cons.mp hk with rfl | hk
        · exact hr.or (points_unknown hA)
        · exact hps k (List.mem_of_mem_take hk)
  | literal t hb =>
      refine Or.inr (hleaf _ trivial ?_ (by simp))
      intro k hk
      rw [List.mem_singleton.mp hk]
      exact hb.or (points_unknown hA)
  | pointer he | slice he | channel _ he | reference he | rvalueRef he | keyof he =>
      exact Or.inr (hleaf _ trivial (List.forall_mem_singleton.mpr he) (by simp))
  | tuple hes | template _ hes | intersection hes =>
      exact Or.inr (hleaf _ trivial hes (by simp))
  | map hk hv | indexed hk hv =>
      exact Or.inr (hleaf _ trivial (by simp [Cell.shape, DagNode.kids, hk, hv]) (by simp))
  | conditional hc he ht hf =>
      exact Or.inr (hleaf _ trivial (by simp [Cell.shape, DagNode.kids, hc, he, ht, hf]) (by simp))
  | _ => exact Or.inr (hleaf _ trivial (fun k hk => absurd hk List.not_mem_nil) (by simp))

theorem nodes_append (A rest : Arena) : (A ++ rest).nodes = A.nodes ++ rest.nodes :=
  List.map_append

theorem length_nodes (A : Arena) : A.nodes.length = A.length :=
  List.length_map _

theorem holds_iff {p : Ptr} : Holds A.nodes p ↔ A.Points p := by
  rw [Holds, length_nodes]
  exact Iff.rfl

theorem cbmTypeEqual_eq (hA : A.Made) (a b : Ptr) :
    cbmTypeEqual A a b = equalFuel A.nodes A.length a b :=
  equalLayers_eq hA A.length a b

theorem cbmTypeEqual_append (hdown : Down A.nodes) (hmade : A.Made) {rest : Arena}
    (hrest : (A ++ rest).Made) {a b : Ptr} (ha : A.Points a) (hb : A.Points b) :
    cbmTypeEqual (A ++ rest) a b = cbmTypeEqual A a b := by
  rw [cbmTypeEqual_eq hrest, cbmTypeEqual_eq hmade, nodes_append,
    equalFuel_append hdown _ _ (holds_iff.mpr ha) (holds_iff.mpr hb)]
  refine equalFuel_stable hdown _ (fun i hi => ?_) ha
  rw [List.length_append]
  exact Nat.lt_add_right _ (ha i hi)

theorem Arena.Part.points {m : Ptr} (h : A.Part m) : A.Points m := by
  obtain ⟨cell, hcell, _⟩ := h
  exact Arena.Points.read hcell

theorem read_append {p : Ptr} (rest : Arena) (h : A.Points p) : (A ++ rest).read p = A.read p := by
  cases p with
  | none => rfl
  | some i => exact List.getElem?_append_left (h i rfl)

theorem Arena.Part.append {m : Ptr} (h : A.Part m) (rest : Arena) : (A ++ rest).Part m := by
  rw [Arena.Part, read_append rest h.points]
  exact h

theorem Sound.append (hA : Sound A) {cell : Cell} (h : Fits A cell) : Sound (A ++ [cell]) := by
  have hmade : (A ++ [cell]).Made := by
    intro i c hc
    rcases Nat.lt_or_ge i A.length with hlt | hge
    · rw [List.getElem?_append_left hlt] at hc
      exact hA.made i c hc
    · rw [List.getElem?_append_right hge] at hc
      rw [List.mem_singleton.mp (List.mem_of_getElem? hc)]
      exact h.made
  have hmembers : ∀ ms : List Ptr,
      (ms.Pairwise fun x y => cbmTypeEqual A y x = false) ∧ (∀ m ∈ ms, A.Part m) →
      (ms.Pairwise fun x y => cbmTypeEqual (A ++ [cell]) y x = false) ∧
        ∀ m ∈ ms, (A ++ [cell]).Part m := by
    rintro ms ⟨hpairs, hparts⟩
    refine ⟨hpairs.imp_of_mem fun hx hy hne => ?_, fun m hm => (hparts m hm).append [cell]⟩
    rw [cbmTypeEqual_append hA.down hA.made hmade (hparts _ hy).points (hparts _ hx).points]
    exact hne
  refine ⟨?_, hmade, ?_, fun i ms hi => hmembers ms ?_⟩
  · rw [List.getElem?_append_left (List.getElem?_eq_some_iff.mp hA.first).1]
    exact hA.first
  · rw [nodes_append]
    exact hA.down.append fun k hk => holds_iff.mpr (h.kids k hk)
  · rcases Nat.lt_or_ge i A.length with hlt | hge
    · rw [List.getElem?_append_left hlt] at hi
      exact hA.members i ms hi
    · rw [List.getElem?_append_right hge] at hi
      exact h.members ms (List.mem_singleton.mp (List.mem_of_getElem? hi)).symm

theorem Sound.step (hA : Sound A) (h : Step A A') : Sound A' := by
  rcases step_cases hA h with rfl | ⟨cell, hfits, rfl⟩
  · exact hA
  · exact hA.append hfits

theorem sound_newArena : Sound newArena where
  first := rfl
  made := by
    intro i cell hi
    rw [List.mem_singleton.mp (List.mem_of_getElem? hi)]
    trivial
  down := by
    intro i node hi k hk
    rw [List.mem_singleton.mp (List.mem_of_getElem? hi)] at hk
    exact absurd hk List.not_mem_nil
  members := by
    intro i ms hi
    exact absurd (List.mem_singleton.mp (List.mem_of_getElem? hi)) (by simp)

theorem sound_of_built (h : Built A) : Sound A := by
  induction h with
  | refl => exact sound_newArena
  | tail _ hstep ih => exact ih.step hstep

theorem exists_rest (hA : Sound A) (h : Relation.ReflTransGen Step A A') :
    Sound A' ∧ ∃ rest, A' = A ++ rest := by
  induction h with
  | refl => exact ⟨hA, [], (List.append_nil A).symm⟩
  | tail _ hstep ih =>
      obtain ⟨hB, rest, rfl⟩ := ih
      refine ⟨hB.step hstep, ?_⟩
      rcases step_cases hB hstep with rfl | ⟨cell, _, rfl⟩
      · exact ⟨rest, rfl⟩
      · exact ⟨rest ++ [cell], List.append_assoc _ _ _⟩

end Calls

end Lsp
end CodebaseMemory
