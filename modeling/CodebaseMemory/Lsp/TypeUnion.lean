import CodebaseMemory.Lsp.TypeEqual
import Mathlib.Data.List.Pairwise

/-!
# Unions (`internal/cbm/lsp/type_rep.c`)

`cbm_type_union` flattens into an array that has room for two entries for each listed
type, and four more.  Entries behind these are dropped.
-/

namespace CodebaseMemory
namespace Lsp

open Lib
open Sqlite (CStr bytesOf)

/-- Unequal in both orders. -/
def Arena.Unequal (A : Arena) (x y : Ptr) : Prop :=
  cbmTypeEqual A x y = false ∧ cbmTypeEqual A y x = false

instance (A : Arena) : Std.Symm A.Unequal :=
  ⟨fun _ _ h => h.symm⟩

/-- The result has the listed types, once each, in the order in which they are first listed. -/
structure KeepsMembers (A : Arena) (members : List Ptr) : Prop where
  sublist : (flattenOne (cbmTypeUnion A members).1 (cbmTypeUnion A members).2).Sublist
    (flatten A members)
  covered : ∀ x ∈ flatten A members,
    ∃ m ∈ flattenOne (cbmTypeUnion A members).1 (cbmTypeUnion A members).2,
      cbmTypeEqual (cbmTypeUnion A members).1 x m = true
  distinct : (flattenOne (cbmTypeUnion A members).1 (cbmTypeUnion A members).2).Pairwise
    (cbmTypeUnion A members).1.Unequal
  first : ∀ x, Fresh (cbmTypeEqual (cbmTypeUnion A members).1) (flatten A members) x →
    x ∈ flattenOne (cbmTypeUnion A members).1 (cbmTypeUnion A members).2
  single : ∀ m, flattenOne (cbmTypeUnion A members).1 (cbmTypeUnion A members).2 = [m] →
    (cbmTypeUnion A members).2 = m

/-- What does not fit into the array is equal to something that does. -/
def FitsFlat (A : Arena) (members : List Ptr) : Prop :=
  ∀ x ∈ (flatten A members).drop (members.length * 2 + 4),
    ∃ y ∈ (flatten A members).take (members.length * 2 + 4), cbmTypeEqual A x y = true

/-- No type with no equal before it is equal to another such type. -/
def NoOneWay (A : Arena) (members : List Ptr) : Prop :=
  ∀ x y, Fresh (cbmTypeEqual A) (flatten A members) x →
    Fresh (cbmTypeEqual A) (flatten A members) y → x ≠ y → cbmTypeEqual A x y = false

section Members

variable {A : Arena} {members : List Ptr}

theorem Arena.Part.flattenOne {m : Ptr} (h : A.Part m) : flattenOne A m = [m] := by
  obtain ⟨cell, hcell, hunknown, hunion⟩ := h
  rw [Lsp.flattenOne, hcell]
  cases cell with
  | unknown => exact absurd rfl hunknown
  | union ms => exact absurd rfl (hunion ms)
  | _ => rfl

theorem flattenOne_unknown (hA : Sound A) : flattenOne A unknownSingleton = [] := by
  rw [flattenOne, Arena.read, unknownSingleton, Option.bind_some, hA.first]

theorem flattenOne_union (A : Arena) (ms : List Ptr) :
    flattenOne (A ++ [.union ms]) (some A.length) = ms := by
  have hread : Arena.read (A ++ [.union ms]) (some A.length) = some (.union ms) :=
    List.getElem?_concat_length
  rw [flattenOne, hread]

theorem members_union (hA : Sound A) (members : List Ptr) :
    flattenOne (cbmTypeUnion A members).1 (cbmTypeUnion A members).2 = unionMembers A members ∧
      ∀ m, unionMembers A members = [m] → (cbmTypeUnion A members).2 = m := by
  have hpart : ∀ m ∈ unionMembers A members, A.Part m := fun m hm =>
    hA.mem_flatten (mem_unionMembers hm)
  rw [cbmTypeUnion_eq]
  split
  · next hnil =>
      rw [hnil, flattenOne_unknown hA]
      exact ⟨rfl, fun m hm => absurd hm (by simp)⟩
  · next m hone =>
      refine ⟨?_, fun m' hm' => (List.cons.inj (hone.symm.trans hm')).1⟩
      rw [hone]
      exact (hpart m (hone ▸ List.mem_cons_self)).flattenOne
  · next hmany =>
      exact ⟨flattenOne_union A _, fun m hm => absurd hm (hmany m)⟩

theorem cbmTypeEqual_union (hA : Sound A) {x y : Ptr} (hx : A.Points x) (hy : A.Points y) :
    cbmTypeEqual (cbmTypeUnion A members).1 x y = cbmTypeEqual A x y := by
  rcases union_cases hA members with heq | ⟨hfits, heq⟩
  · rw [heq]
  · rw [heq]
    exact cbmTypeEqual_append hA.down hA.made (hA.append hfits).made hx hy

theorem Sound.points_flatten (hA : Sound A) {x : Ptr} (hx : x ∈ flatten A members) : A.Points x :=
  (hA.mem_flatten hx).points

theorem fresh_union_iff (hA : Sound A) {x : Ptr} :
    Fresh (cbmTypeEqual (cbmTypeUnion A members).1) (flatten A members) x ↔
      Fresh (cbmTypeEqual A) (flatten A members) x := by
  refine fresh_congr fun x hx y hy => ?_
  exact cbmTypeEqual_union hA (hA.points_flatten hx) (hA.points_flatten hy)

theorem unionMembers_eq_iff (hA : Sound A) :
    unionMembers A members = keepFirst (cbmTypeEqual A) (flatten A members) ↔
      FitsFlat A members := by
  rw [FitsFlat, ← keepFirst_append_iff (cbmTypeEqual_refl A) (cbmTypeEqual_trans hA),
    List.take_append_drop]
  exact eq_comm

theorem KeepsMembers.fitsFlat (hA : Sound A) (h : KeepsMembers A members) :
    FitsFlat A members := by
  intro x hx
  obtain ⟨m, hm, hxm⟩ := h.covered x (List.mem_of_mem_drop hx)
  rw [(members_union hA members).1] at hm
  refine ⟨m, (keepFirst_sublist _ _).subset hm, ?_⟩
  rwa [cbmTypeEqual_union hA (hA.points_flatten (List.mem_of_mem_drop hx))
    (hA.points_flatten (mem_unionMembers hm))] at hxm

theorem KeepsMembers.noOneWay (hA : Sound A) (h : KeepsMembers A members) :
    NoOneWay A members := by
  intro x y hx hy hne
  have hunequal := h.distinct.forall (h.first x ((fresh_union_iff hA).mpr hx))
    (h.first y ((fresh_union_iff hA).mpr hy)) hne
  rw [← @cbmTypeEqual_union A members hA _ _ (hA.points_flatten hx.mem)
    (hA.points_flatten hy.mem)]
  exact hunequal.1

theorem keepsMembers_of_fitsFlat (hA : Sound A) (hfits : FitsFlat A members)
    (hone : NoOneWay A members) : KeepsMembers A members := by
  have hmembers : flattenOne (cbmTypeUnion A members).1 (cbmTypeUnion A members).2 =
      keepFirst (cbmTypeEqual A) (flatten A members) :=
    (members_union hA members).1.trans ((unionMembers_eq_iff hA).mpr hfits)
  have hfresh : ∀ x, x ∈ keepFirst (cbmTypeEqual A) (flatten A members) ↔
      Fresh (cbmTypeEqual A) (flatten A members) x := fun x =>
    mem_keepFirst_iff (cbmTypeEqual_refl A) (cbmTypeEqual_trans hA)
  have hpoints : ∀ x ∈ keepFirst (cbmTypeEqual A) (flatten A members), A.Points x := fun x hx =>
    hA.points_flatten ((keepFirst_sublist _ _).subset hx)
  refine ⟨?_, fun x hx => ?_, ?_, fun x hx => ?_, fun m hm => ?_⟩
  · rw [hmembers]
    exact keepFirst_sublist _ _
  · obtain ⟨m, hm, hxm⟩ := exists_mem_keepFirst (cbmTypeEqual_refl A) hx
    refine ⟨m, hmembers.symm ▸ hm, ?_⟩
    rw [cbmTypeEqual_union hA (hA.points_flatten hx) (hpoints m hm)]
    exact hxm
  · rw [hmembers]
    refine (pairwise_keepFirst _ _).imp_of_mem fun hx hy hyx => ?_
    rw [Arena.Unequal, cbmTypeEqual_union hA (hpoints _ hx) (hpoints _ hy),
      cbmTypeEqual_union hA (hpoints _ hy) (hpoints _ hx)]
    refine ⟨hone _ _ ((hfresh _).mp hx) ((hfresh _).mp hy) ?_, hyx⟩
    rintro rfl
    exact Bool.false_ne_true (hyx.symm.trans (cbmTypeEqual_refl A _))
  · rw [hmembers]
    exact (hfresh x).mpr ((fresh_union_iff hA).mp hx)
  · rw [(members_union hA members).1] at hm
    exact (members_union hA members).2 m hm

theorem keepsMembers_iff (hA : Sound A) :
    KeepsMembers A members ↔ FitsFlat A members ∧ NoOneWay A members :=
  ⟨fun h => ⟨h.fitsFlat hA, h.noOneWay hA⟩, fun h => keepsMembers_of_fitsFlat hA h.1 h.2⟩

end Members

section Regroup

variable {A : Arena} {front listed back : List Ptr}

theorem flatten_append (A : Arena) (ms ms' : List Ptr) :
    flatten A (ms ++ ms') = flatten A ms ++ flatten A ms' :=
  List.flatMap_append

theorem flatten_singleton (A : Arena) (m : Ptr) : flatten A [m] = flattenOne A m :=
  List.append_nil _

theorem flatten_union (hA : Sound A) {ms : List Ptr} (hms : ∀ m ∈ ms, A.Points m) :
    flatten (cbmTypeUnion A listed).1 ms = flatten A ms := by
  rcases union_cases hA listed with heq | ⟨_, heq⟩
  · rw [heq]
  · refine List.flatMap_congr fun m hm => ?_
    rw [heq, flattenOne, flattenOne, read_append _ (hms m hm)]

theorem regroup (hA : Sound A) (hms : ∀ m ∈ front ++ listed ++ back, A.Points m)
    (hlisted : FitsFlat A listed)
    (hgrouped : FitsFlat (cbmTypeUnion A listed).1 (front ++ [(cbmTypeUnion A listed).2] ++ back))
    (hwhole : FitsFlat A (front ++ listed ++ back)) :
    unionMembers (cbmTypeUnion A listed).1 (front ++ [(cbmTypeUnion A listed).2] ++ back) =
      unionMembers A (front ++ listed ++ back) := by
  have hB : Sound (cbmTypeUnion A listed).1 := by
    rcases union_cases hA listed with heq | ⟨hfits, heq⟩
    · rwa [heq]
    · rw [heq]
      exact hA.append hfits
  have hflat : flatten (cbmTypeUnion A listed).1 (front ++ [(cbmTypeUnion A listed).2] ++ back) =
      flatten A front ++ keepFirst (cbmTypeEqual A) (flatten A listed) ++ flatten A back := by
    rw [flatten_append, flatten_append, flatten_singleton, (members_union hA listed).1,
      (unionMembers_eq_iff hA).mpr hlisted, flatten_union hA, flatten_union hA]
    · exact fun m hm => hms m (List.mem_append_right _ hm)
    · exact fun m hm => hms m (List.mem_append_left _ (List.mem_append_left _ hm))
  have hpoints : ∀ x ∈ flatten A front ++ keepFirst (cbmTypeEqual A) (flatten A listed) ++
      flatten A back, A.Points x := by
    intro x hx
    rcases List.mem_append.mp hx with hx | hx
    · rcases List.mem_append.mp hx with hx | hx
      · exact hA.points_flatten hx
      · exact hA.points_flatten ((keepFirst_sublist _ _).subset hx)
    · exact hA.points_flatten hx
  have hequal := keepFirst_congr fun x hx y hy =>
    @cbmTypeEqual_union A listed hA _ _ (hpoints x hx) (hpoints y hy)
  rw [(unionMembers_eq_iff hB).mpr hgrouped, (unionMembers_eq_iff hA).mpr hwhole, hflat, hequal,
    keepFirst_regroup (cbmTypeEqual_refl A) (cbmTypeEqual_trans hA), flatten_append, flatten_append]

end Regroup

/-- A union in place of some of the listed types makes no difference, if all of them fit. -/
def Regroups (A : Arena) (members : List Ptr) : Prop :=
  ∀ front listed back, members = front ++ listed ++ back → FitsFlat A listed →
    FitsFlat (cbmTypeUnion A listed).1 (front ++ [(cbmTypeUnion A listed).2] ++ back) →
    FitsFlat A members →
    flattenOne (cbmTypeUnion (cbmTypeUnion A listed).1
        (front ++ [(cbmTypeUnion A listed).2] ++ back)).1
      (cbmTypeUnion (cbmTypeUnion A listed).1
        (front ++ [(cbmTypeUnion A listed).2] ++ back)).2 =
    flattenOne (cbmTypeUnion A members).1 (cbmTypeUnion A members).2

/-- When `cbm_type_union` keeps every listed type, and that it can be called on parts first. -/
theorem type_union_iff (A : Arena) (members : List Ptr) (hA : Built A)
    (hms : ∀ m ∈ members, A.Points m) :
    (KeepsMembers A members ↔ FitsFlat A members ∧ NoOneWay A members) ∧ Regroups A members := by
  have hsound := sound_of_built hA
  refine ⟨keepsMembers_iff hsound, ?_⟩
  rintro front listed back rfl hlisted hgrouped hwhole
  have hB : Sound (cbmTypeUnion A listed).1 :=
    hsound.step (Step.union fun m hm => hms m
      (List.mem_append_left _ (List.mem_append_right _ hm)))
  rw [(members_union hB _).1, (members_union hsound _).1]
  exact regroup hsound hms hlisted hgrouped hwhole

/-- Types with the given names. -/
def builtinsArena (names : List String) : Arena :=
  names.foldl (fun A name => (cbmTypeBuiltin A (some (bytesOf name))).1) newArena

theorem built_builtinsArena (names : List String) : Built (builtinsArena names) := by
  have hrun : ∀ A, Built A →
      Built (names.foldl (fun A name => (cbmTypeBuiltin A (some (bytesOf name))).1) A) := by
    induction names with
    | nil => exact fun A hA => hA
    | cons name names ih => exact fun A hA => ih _ (hA.tail (Step.builtin _))
  exact hrun newArena .refl

/-- `str | int`. -/
theorem type_union_iff_builtins :
    (KeepsMembers (builtinsArena ["str", "int"]) [some 1, some 2] ↔
      FitsFlat (builtinsArena ["str", "int"]) [some 1, some 2] ∧
        NoOneWay (builtinsArena ["str", "int"]) [some 1, some 2]) ∧
    Regroups (builtinsArena ["str", "int"]) [some 1, some 2] :=
  type_union_iff _ _ (built_builtinsArena _) (by simp [Arena.Points, builtinsArena, cbmTypeBuiltin,
    alloc, newArena])

/-- Eight types and their union, which has the address 9. -/
def eightArena : Arena :=
  (cbmTypeUnion (builtinsArena ["int", "str", "bool", "bytes", "float", "list", "dict", "set"])
    [some 1, some 2, some 3, some 4, some 5, some 6, some 7, some 8]).1

/-- With `None`, as `cbm_type_optional` lists it. -/
def optionalArena : Arena :=
  (cbmTypeBuiltin eightArena (some (bytesOf "None"))).1

theorem built_optionalArena : Built optionalArena := by
  refine ((built_builtinsArena _).tail (Step.union fun m hm => ?_)).tail (Step.builtin _)
  rintro i rfl
  simp at hm
  simp [builtinsArena, cbmTypeBuiltin, alloc, newArena]
  omega

/-- `None` is lost. -/
theorem not_keepsMembers :
    Built optionalArena ∧
      cbmTypeOptional eightArena (some 9) = cbmTypeUnion optionalArena [some 9, some 10] ∧
      ¬ KeepsMembers optionalArena [some 9, some 10] := by
  have haddress : (cbmTypeBuiltin eightArena (some (bytesOf "None"))).2 = some 10 := by
    decide +kernel
  refine ⟨built_optionalArena, by rw [cbmTypeOptional, haddress, optionalArena], fun h => ?_⟩
  obtain ⟨m, hm, heq⟩ := h.covered (some 10) (by decide +kernel)
  have hnone : ∀ m ∈ flattenOne (cbmTypeUnion optionalArena [some 9, some 10]).1
      (cbmTypeUnion optionalArena [some 9, some 10]).2,
      cbmTypeEqual (cbmTypeUnion optionalArena [some 9, some 10]).1 (some 10) m = false := by
    decide +kernel
  exact absurd heq (by simp [hnone m hm])

end Lsp
end CodebaseMemory
