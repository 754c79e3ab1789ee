import Mathlib.Data.List.Induction

/-!
# Keeping the first of equal elements

A loop that goes through a list and keeps an element if it is not equal to one that
it has kept.  The comparison need not be symmetric.
-/

namespace CodebaseMemory
namespace Lib

section KeepFirst

variable {α : Type} (eq : α → α → Bool)

/-- One turn of the loop. -/
def keepStep (kept : List α) (x : α) : List α :=
  if kept.any (eq x) then kept else kept ++ [x]

/-- The loop. -/
def keepFirst (l : List α) : List α :=
  l.foldl (keepStep eq) []

/-- An element of a list with no equal before it. -/
def Fresh (l : List α) (x : α) : Prop :=
  ∃ front back, l = front ++ x :: back ∧ ∀ y ∈ front, eq x y = false

variable {eq} in
theorem Fresh.mem {l : List α} {x : α} (h : Fresh eq l x) : x ∈ l := by
  obtain ⟨front, back, rfl, _⟩ := h
  exact List.mem_append_right _ List.mem_cons_self

theorem keepFirst_concat (l : List α) (x : α) :
    keepFirst eq (l ++ [x]) = keepStep eq (keepFirst eq l) x := by
  rw [keepFirst, List.foldl_append]
  rfl

theorem keepStep_of_any {kept : List α} {x : α} (h : ∃ y ∈ kept, eq x y = true) :
    keepStep eq kept x = kept :=
  if_pos (List.any_eq_true.mpr h)

theorem keepStep_of_not_any {kept : List α} {x : α} (h : ∀ y ∈ kept, eq x y = false) :
    keepStep eq kept x = kept ++ [x] := by
  refine if_neg fun hany => ?_
  obtain ⟨y, hy, heq⟩ := List.any_eq_true.mp hany
  exact absurd heq (by simp [h y hy])

theorem keepStep_cases (kept : List α) (x : α) :
    ((∃ y ∈ kept, eq x y = true) ∧ keepStep eq kept x = kept) ∨
      ((∀ y ∈ kept, eq x y = false) ∧ keepStep eq kept x = kept ++ [x]) := by
  by_cases h : ∃ y ∈ kept, eq x y = true
  · exact Or.inl ⟨h, keepStep_of_any eq h⟩
  · have hnone : ∀ y ∈ kept, eq x y = false := fun y hy =>
      Bool.eq_false_iff.mpr fun heq => h ⟨y, hy, heq⟩
    exact Or.inr ⟨hnone, keepStep_of_not_any eq hnone⟩

theorem keepFirst_sublist (l : List α) : (keepFirst eq l).Sublist l := by
  induction l using List.reverseRecOn with
  | nil => exact List.Sublist.refl _
  | append_singleton l x ih =>
      rw [keepFirst_concat]
      rcases keepStep_cases eq (keepFirst eq l) x with ⟨_, heq⟩ | ⟨_, heq⟩
      · rw [heq]
        exact ih.trans (List.sublist_append_left l [x])
      · rw [heq]
        exact ih.append_right [x]

theorem pairwise_keepFirst (l : List α) : (keepFirst eq l).Pairwise fun x y => eq y x = false := by
  induction l using List.reverseRecOn with
  | nil => exact List.Pairwise.nil
  | append_singleton l x ih =>
      rw [keepFirst_concat]
      rcases keepStep_cases eq (keepFirst eq l) x with ⟨_, heq⟩ | ⟨hnone, heq⟩
      · rw [heq]
        exact ih
      · rw [heq, List.pairwise_append]
        refine ⟨ih, List.pairwise_singleton _ _, fun y hy z hz => ?_⟩
        rw [List.mem_singleton.mp hz]
        exact hnone y hy

theorem keepFirst_prefix (l l' : List α) : keepFirst eq l <+: keepFirst eq (l ++ l') := by
  induction l' using List.reverseRecOn with
  | nil => exact ⟨[], by rw [List.append_nil, List.append_nil]⟩
  | append_singleton l' x ih =>
      rw [← List.append_assoc, keepFirst_concat]
      rcases keepStep_cases eq (keepFirst eq (l ++ l')) x with ⟨_, heq⟩ | ⟨_, heq⟩
      · rw [heq]
        exact ih
      · rw [heq]
        exact ih.trans (List.prefix_append _ _)

variable {eq}

theorem fresh_congr {eq' : α → α → Bool} {l : List α} {x : α}
    (h : ∀ x ∈ l, ∀ y ∈ l, eq x y = eq' x y) : Fresh eq l x ↔ Fresh eq' l x := by
  refine exists_congr fun front => exists_congr fun back => and_congr_right ?_
  rintro rfl
  refine forall₂_congr fun y hy => ?_
  rw [h x (List.mem_append_right _ List.mem_cons_self) y (List.mem_append_left _ hy)]

theorem keepFirst_congr {eq' : α → α → Bool} {l : List α}
    (h : ∀ x ∈ l, ∀ y ∈ l, eq x y = eq' x y) : keepFirst eq l = keepFirst eq' l := by
  induction l using List.reverseRecOn with
  | nil => rfl
  | append_singleton l z ih =>
      have hany : (keepFirst eq' l).any (eq z) = (keepFirst eq' l).any (eq' z) := by
        rw [Bool.eq_iff_iff, List.any_eq_true, List.any_eq_true]
        refine exists_congr fun y => and_congr_right fun hy => ?_
        rw [h z (List.mem_append_right _ List.mem_cons_self) y
          (List.mem_append_left _ ((keepFirst_sublist eq' l).subset hy))]
      rw [keepFirst_concat, keepFirst_concat, ih fun x hx y hy =>
        h x (List.mem_append_left _ hx) y (List.mem_append_left _ hy), keepStep, keepStep, hany]

section Preorder

variable (hrefl : ∀ x, eq x x = true)

include hrefl

theorem exists_mem_keepFirst {l : List α} {x : α} (hx : x ∈ l) :
    ∃ y ∈ keepFirst eq l, eq x y = true := by
  induction l using List.reverseRecOn with
  | nil => exact absurd hx List.not_mem_nil
  | append_singleton l z ih =>
      rw [keepFirst_concat]
      have hstep : ∀ y ∈ keepFirst eq l, y ∈ keepStep eq (keepFirst eq l) z := by
        intro y hy
        rcases keepStep_cases eq (keepFirst eq l) z with ⟨_, heq⟩ | ⟨_, heq⟩
        · rw [heq]
          exact hy
        · rw [heq]
          exact List.mem_append_left _ hy
      rcases List.mem_append.mp hx with hold | hlast
      · obtain ⟨y, hy, heq⟩ := ih hold
        exact ⟨y, hstep y hy, heq⟩
      · rw [List.mem_singleton.mp hlast]
        rcases keepStep_cases eq (keepFirst eq l) z with ⟨⟨y, hy, heq⟩, _⟩ | ⟨_, hkeep⟩
        · exact ⟨y, hstep y hy, heq⟩
        · exact ⟨z, hkeep ▸ List.mem_append_right _ List.mem_cons_self, hrefl z⟩

variable (htrans : ∀ x y z, eq x y = true → eq y z = true → eq x z = true)

include htrans

theorem mem_keepFirst_iff {l : List α} {x : α} : x ∈ keepFirst eq l ↔ Fresh eq l x := by
  constructor
  · intro hx
    induction l using List.reverseRecOn with
    | nil => exact absurd hx List.not_mem_nil
    | append_singleton l z ih =>
        rw [keepFirst_concat] at hx
        have hold : x ∈ keepFirst eq l → Fresh eq (l ++ [z]) x := by
          intro hx
          obtain ⟨front, back, rfl, hfront⟩ := ih hx
          exact ⟨front, back ++ [z], by simp, hfront⟩
        rcases keepStep_cases eq (keepFirst eq l) z with ⟨_, hstep⟩ | ⟨hnone, hstep⟩
        · exact hold (hstep ▸ hx)
        · rw [hstep] at hx
          rcases List.mem_append.mp hx with hx | hx
          · exact hold hx
          · obtain rfl := List.mem_singleton.mp hx
            refine ⟨l, [], rfl, fun y hy => Bool.eq_false_iff.mpr fun hxy => ?_⟩
            obtain ⟨k, hk, hyk⟩ := exists_mem_keepFirst hrefl hy
            exact absurd (htrans _ _ _ hxy hyk) (by simp [hnone k hk])
  · rintro ⟨front, back, rfl, hfront⟩
    have hx : x ∈ keepFirst eq (front ++ [x]) := by
      rw [keepFirst_concat, keepStep_of_not_any eq fun y hy =>
        hfront y ((keepFirst_sublist eq front).subset hy)]
      exact List.mem_append_right _ List.mem_cons_self
    have hprefix := keepFirst_prefix eq (front ++ [x]) back
    rw [List.append_assoc, List.singleton_append] at hprefix
    exact hprefix.subset hx

theorem keepFirst_append_iff {l l' : List α} :
    keepFirst eq (l ++ l') = keepFirst eq l ↔ ∀ x ∈ l', ∃ y ∈ l, eq x y = true := by
  constructor
  · intro h x hx
    obtain ⟨y, hy, hxy⟩ := exists_mem_keepFirst hrefl (List.mem_append_right l hx)
    exact ⟨y, (keepFirst_sublist eq l).subset (h ▸ hy), hxy⟩
  · intro h
    induction l' using List.reverseRecOn with
    | nil => rw [List.append_nil]
    | append_singleton l' z ih =>
        rw [← List.append_assoc, keepFirst_concat, ih fun x hx => h x (List.mem_append_left _ hx)]
        obtain ⟨y, hy, hzy⟩ := h z (List.mem_append_right _ List.mem_cons_self)
        obtain ⟨k, hk, hyk⟩ := exists_mem_keepFirst hrefl hy
        exact keepStep_of_any eq ⟨k, hk, htrans _ _ _ hzy hyk⟩

theorem keepFirst_append_keepFirst (front l : List α) :
    keepFirst eq (front ++ keepFirst eq l) = keepFirst eq (front ++ l) := by
  induction l using List.reverseRecOn with
  | nil => rfl
  | append_singleton l z ih =>
      rw [keepFirst_concat, ← List.append_assoc, keepFirst_concat]
      rcases keepStep_cases eq (keepFirst eq l) z with ⟨⟨y, hy, hzy⟩, hstep⟩ | ⟨_, hstep⟩
      · have hmem : y ∈ front ++ l :=
          List.mem_append_right _ ((keepFirst_sublist eq l).subset hy)
        obtain ⟨k, hk, hyk⟩ := exists_mem_keepFirst hrefl hmem
        rw [hstep, ih, keepStep_of_any eq ⟨k, hk, htrans _ _ _ hzy hyk⟩]
      · rw [hstep, ← List.append_assoc, keepFirst_concat, ih]

theorem keepFirst_regroup (front l back : List α) :
    keepFirst eq (front ++ keepFirst eq l ++ back) = keepFirst eq (front ++ l ++ back) := by
  have hfront := keepFirst_append_keepFirst hrefl htrans front l
  rw [keepFirst] at hfront ⊢
  rw [List.foldl_append, hfront, keepFirst, keepFirst, ← List.foldl_append]

end Preorder

end KeepFirst

end Lib
end CodebaseMemory
