import Mathlib.Data.List.Chain
import Mathlib.Data.List.Perm.Basic

/-!
# Bubble sort

The sort is given by a test `bad x y`, which says that two neighbours are to be swapped.  Nothing is
assumed of the test: it need not come from an order.
-/

namespace CodebaseMemory
namespace Lib

universe u

variable {α : Type u}

section Bubble

variable (bad : α → α → Bool)

/-- Carry an element through a number of comparisons: the one that is not carried on is left. -/
def carry : Nat → α → List α → List α
  | 0, x, ys => x :: ys
  | _ + 1, x, [] => [x]
  | n + 1, x, y :: ys => if bad x y then y :: carry n x ys else x :: carry n y ys

def bubblePass (n : Nat) : List α → List α
  | [] => []
  | x :: xs => carry bad n x xs

/-- The passes, each with one comparison less. -/
def bubbleLoop : Nat → List α → List α
  | 0, l => l
  | n + 1, l => bubbleLoop n (bubblePass bad (n + 1) l)

def bubbleSort (l : List α) : List α :=
  bubbleLoop bad (l.length - 1) l

end Bubble

section Any

variable {bad bad' : α → α → Bool}

theorem carry_perm (n : Nat) (x : α) (ys : List α) : (carry bad n x ys).Perm (x :: ys) := by
  induction n generalizing x ys with
  | zero => exact List.Perm.refl _
  | succ n ih =>
      cases ys with
      | nil => exact List.Perm.refl _
      | cons y ys =>
          rw [carry]
          split
          · exact ((ih x ys).cons y).trans (List.Perm.swap x y ys)
          · exact (ih y ys).cons x

theorem bubblePass_perm (n : Nat) (l : List α) : (bubblePass bad n l).Perm l := by
  cases l with
  | nil => exact List.Perm.refl _
  | cons x xs => exact carry_perm n x xs

theorem bubbleLoop_perm (n : Nat) (l : List α) : (bubbleLoop bad n l).Perm l := by
  induction n generalizing l with
  | zero => exact List.Perm.refl _
  | succ n ih => exact (ih _).trans (bubblePass_perm (n + 1) l)

theorem bubbleSort_perm (l : List α) : (bubbleSort bad l).Perm l :=
  bubbleLoop_perm _ l

variable {l ys : List α}
variable {x : α}

theorem carry_of_isChain (n : Nat) (hchain : (x :: ys).IsChain fun x y => bad x y = false) :
    carry bad n x ys = x :: ys := by
  induction n generalizing x ys with
  | zero => rfl
  | succ n ih =>
      cases ys with
      | nil => rfl
      | cons y ys =>
          obtain ⟨hxy, hrest⟩ := List.isChain_cons_cons.mp hchain
          rw [carry, hxy, if_neg Bool.false_ne_true, ih hrest]

theorem bubbleLoop_of_isChain (n : Nat) (hchain : l.IsChain fun x y => bad x y = false) :
    bubbleLoop bad n l = l := by
  induction n with
  | zero => rfl
  | succ n ih =>
      have hpass : bubblePass bad (n + 1) l = l := by
        cases l with
        | nil => rfl
        | cons x xs => exact carry_of_isChain (n + 1) hchain
      rw [bubbleLoop, hpass, ih]

theorem bubbleSort_of_isChain (hchain : l.IsChain fun x y => bad x y = false) :
    bubbleSort bad l = l :=
  bubbleLoop_of_isChain _ hchain

theorem carry_append {zs : List α} (hbad : ∀ y ∈ ys, bad x y = true) (n : Nat) :
    carry bad (ys.length + n) x (ys ++ zs) = ys ++ carry bad n x zs := by
  induction ys with
  | nil => rw [List.length_nil, Nat.zero_add, List.nil_append, List.nil_append]
  | cons y ys ih =>
      rw [List.length_cons, Nat.add_right_comm, List.cons_append, carry,
        if_pos (hbad y List.mem_cons_self), ih fun z hz => hbad z (List.mem_cons_of_mem y hz),
        List.cons_append]

theorem bubbleSort_of_front {zs : List α} (hbad : ∀ y ∈ ys, bad x y = true)
    (hchain : (ys ++ x :: zs).IsChain fun x y => bad x y = false) :
    bubbleSort bad (x :: (ys ++ zs)) = ys ++ x :: zs := by
  by_cases hnil : ys ++ zs = []
  · obtain ⟨rfl, rfl⟩ := List.append_eq_nil_iff.mp hnil
    rfl
  · have hpass : bubblePass bad (ys.length + zs.length) (x :: (ys ++ zs)) = ys ++ x :: zs := by
      rw [bubblePass, carry_append hbad, carry_of_isChain _ hchain.right_of_append]
    have hlength : (x :: (ys ++ zs)).length - 1 = (ys.length + zs.length - 1) + 1 := by
      have hpos := List.length_pos_iff.mpr hnil
      rw [List.length_append] at hpos
      rw [List.length_cons, List.length_append]
      omega
    have hpos : ys.length + zs.length - 1 + 1 = ys.length + zs.length := by
      rw [List.length_cons, List.length_append] at hlength
      omega
    rw [bubbleSort, hlength, bubbleLoop, hpos, hpass, bubbleLoop_of_isChain _ hchain]

section Congr

variable {r : α → α → Prop}

theorem carry_congr (hagree : ∀ x y, r x y → bad x y = bad' x y)
    (hswap : ∀ x y, r x y → bad x y = true → r y x) (n : Nat) (h : (x :: ys).Pairwise r) :
    carry bad n x ys = carry bad' n x ys ∧ (carry bad n x ys).Pairwise r := by
  induction n generalizing x ys with
  | zero => exact ⟨rfl, h⟩
  | succ n ih =>
      cases ys with
      | nil => exact ⟨rfl, h⟩
      | cons y ys =>
          obtain ⟨hx, hrest⟩ := List.pairwise_cons.mp h
          obtain ⟨hy, hys⟩ := List.pairwise_cons.mp hrest
          have hxy := hx y List.mem_cons_self
          rw [carry, carry, ← hagree x y hxy]
          by_cases hbad : bad x y = true
          · rw [if_pos hbad, if_pos hbad]
            have hnext := ih (List.pairwise_cons.mpr
              ⟨fun z hz => hx z (List.mem_cons_of_mem y hz), hys⟩)
            refine ⟨congrArg (y :: ·) hnext.1, List.pairwise_cons.mpr ⟨?_, hnext.2⟩⟩
            intro z hz
            rcases List.mem_cons.mp ((carry_perm n x ys).mem_iff.mp hz) with rfl | hz
            · exact hswap z y hxy hbad
            · exact hy z hz
          · rw [if_neg hbad, if_neg hbad]
            have hnext := ih hrest
            refine ⟨congrArg (x :: ·) hnext.1, List.pairwise_cons.mpr ⟨?_, hnext.2⟩⟩
            intro z hz
            exact hx z ((carry_perm n y ys).mem_iff.mp hz)

theorem bubbleSort_congr (hagree : ∀ x y, r x y → bad x y = bad' x y)
    (hswap : ∀ x y, r x y → bad x y = true → r y x) (h : l.Pairwise r) :
    bubbleSort bad l = bubbleSort bad' l := by
  have hpass : ∀ (n : Nat) {l : List α}, l.Pairwise r →
      bubblePass bad n l = bubblePass bad' n l ∧ (bubblePass bad n l).Pairwise r := by
    intro n l hl
    cases l with
    | nil => exact ⟨rfl, hl⟩
    | cons x xs => exact carry_congr hagree hswap n hl
  have hloop : ∀ (n : Nat) {l : List α}, l.Pairwise r →
      bubbleLoop bad n l = bubbleLoop bad' n l := by
    intro n
    induction n with
    | zero => exact fun _ => rfl
    | succ n ih =>
        intro l hl
        obtain ⟨heq, hnext⟩ := hpass (n + 1) hl
        rw [bubbleLoop, bubbleLoop, ← heq, ih hnext]
  exact hloop _ h

end Congr

end Any

section Order

variable {bad : α → α → Bool}
variable {le : α → α → Prop}

theorem exists_carry_eq (htrans : ∀ x y z, le x y → le y z → le x z) (hrefl : ∀ x, le x x)
    {x : α} {ys : List α} (hgood : ∀ y ∈ x :: ys, ∀ z ∈ x :: ys,
      if bad y z then le z y else le y z) (zs : List α) :
    ∃ front top, carry bad ys.length x (ys ++ zs) = front ++ top :: zs ∧
      front.length = ys.length ∧ ∀ y ∈ x :: ys, le y top := by
  induction ys generalizing x with
  | nil =>
      refine ⟨[], x, rfl, rfl, fun y hy => ?_⟩
      rw [List.mem_singleton.mp hy]
      exact hrefl x
  | cons y ys ih =>
      have hxy := hgood x List.mem_cons_self y (List.mem_cons_of_mem x List.mem_cons_self)
      rw [List.length_cons, List.cons_append, carry]
      by_cases hbad : bad x y = true
      · rw [if_pos hbad] at hxy ⊢
        have hsub : ∀ z ∈ x :: ys, z ∈ x :: y :: ys := fun z hz =>
          (List.mem_cons.mp hz).elim (fun h => h ▸ List.mem_cons_self)
            fun h => List.mem_cons_of_mem x (List.mem_cons_of_mem y h)
        obtain ⟨front, top, heq, hlength, htop⟩ :=
          ih fun u hu v hv => hgood u (hsub u hu) v (hsub v hv)
        refine ⟨y :: front, top, by rw [heq, List.cons_append], by rw [List.length_cons, hlength],
          fun z hz => ?_⟩
        rcases List.mem_cons.mp hz with rfl | hz
        · exact htop z List.mem_cons_self
        · rcases List.mem_cons.mp hz with rfl | hz
          · exact htrans _ _ _ hxy (htop x List.mem_cons_self)
          · exact htop z (List.mem_cons_of_mem x hz)
      · rw [if_neg hbad] at hxy ⊢
        obtain ⟨front, top, heq, hlength, htop⟩ := ih fun u hu v hv =>
          hgood u (List.mem_cons_of_mem x hu) v (List.mem_cons_of_mem x hv)
        refine ⟨x :: front, top, by rw [heq, List.cons_append], by rw [List.length_cons, hlength],
          fun z hz => ?_⟩
        rcases List.mem_cons.mp hz with rfl | hz
        · exact htrans _ _ _ hxy (htop y List.mem_cons_self)
        · exact htop z hz

theorem pairwise_bubbleSort (htrans : ∀ x y z, le x y → le y z → le x z) (hrefl : ∀ x, le x x)
    {l : List α} (hgood : ∀ x ∈ l, ∀ y ∈ l, if bad x y then le y x else le x y) :
    (bubbleSort bad l).Pairwise le := by
  -- the end of the list is sorted, and nothing before it is greater
  have hloop : ∀ (n : Nat) {front sorted : List α}, front.length = n + 1 →
      (∀ x ∈ front ++ sorted, ∀ y ∈ front ++ sorted, if bad x y then le y x else le x y) →
      sorted.Pairwise le → (∀ x ∈ front, ∀ y ∈ sorted, le x y) →
      (bubbleLoop bad n (front ++ sorted)).Pairwise le := by
    intro n
    induction n with
    | zero =>
        intro front sorted hlength _ hsorted hfront
        obtain ⟨x, rfl⟩ := List.length_eq_one_iff.mp hlength
        exact List.pairwise_cons.mpr ⟨hfront x (List.mem_singleton_self x), hsorted⟩
    | succ n ih =>
        intro front sorted hlength hgood hsorted hfront
        obtain ⟨x, ys, rfl⟩ := List.exists_cons_of_length_eq_add_one hlength
        have hys : ys.length = n + 1 := by
          rw [List.length_cons] at hlength
          omega
        obtain ⟨next, top, heq, hnext, htop⟩ := exists_carry_eq htrans hrefl
          (fun u hu v hv => hgood u (List.mem_append_left sorted hu) v
            (List.mem_append_left sorted hv)) sorted
        have hperm : (next ++ top :: sorted).Perm (x :: ys ++ sorted) := by
          rw [← heq]
          exact carry_perm _ x (ys ++ sorted)
        have hfrontPerm : (next ++ [top]).Perm (x :: ys) := by
          rw [← List.perm_append_right_iff sorted, List.append_assoc]
          exact hperm
        have hpass : bubblePass bad (n + 1) (x :: ys ++ sorted) = next ++ top :: sorted := by
          rw [← hys]
          exact heq
        rw [bubbleLoop, hpass]
        refine ih (hnext.trans hys) (fun u hu v hv =>
          hgood u (hperm.mem_iff.mp hu) v (hperm.mem_iff.mp hv)) ?_ ?_
        · refine List.pairwise_cons.mpr ⟨fun y hy => hfront top ?_ y hy, hsorted⟩
          exact hfrontPerm.mem_iff.mp (List.mem_append_right next (List.mem_singleton_self top))
        · intro u hu v hv
          have hu' : u ∈ x :: ys := hfrontPerm.mem_iff.mp (List.mem_append_left [top] hu)
          rcases List.mem_cons.mp hv with rfl | hv
          · exact htop u hu'
          · exact hfront u hu' v hv
  cases l with
  | nil => exact List.Pairwise.nil
  | cons x xs =>
      have hsorted : (bubbleLoop bad xs.length (x :: xs ++ [])).Pairwise le :=
        hloop xs.length List.length_cons (by rwa [List.append_nil]) List.Pairwise.nil
          fun _ _ _ h => absurd h List.not_mem_nil
      rwa [List.append_nil] at hsorted

theorem filter_bubbleSort {p : α → Bool} (hp : ∀ x y, p x = true → p y = true → bad x y = false)
    (l : List α) : (bubbleSort bad l).filter p = l.filter p := by
  have hcarry : ∀ (n : Nat) (x : α) (ys : List α),
      (carry bad n x ys).filter p = (x :: ys).filter p := by
    intro n
    induction n with
    | zero => exact fun _ _ => rfl
    | succ n ih =>
        intro x ys
        cases ys with
        | nil => rfl
        | cons y ys =>
            rw [carry]
            split
            · next hbad =>
              rw [List.filter_cons (x := y), ih]
              simp only [List.filter_cons]
              by_cases hx : p x = true
              · have hy : ¬ p y = true := fun hy => by
                  rw [hp x y hx hy] at hbad
                  exact Bool.false_ne_true hbad
                simp only [if_pos hx, if_neg hy]
              · simp only [if_neg hx]
            · rw [List.filter_cons, ih, List.filter_cons (x := x)]
  have hloop : ∀ (n : Nat) (l : List α), (bubbleLoop bad n l).filter p = l.filter p := by
    intro n
    induction n with
    | zero => exact fun _ => rfl
    | succ n ih =>
        intro l
        rw [bubbleLoop, ih]
        cases l with
        | nil => rfl
        | cons x xs => exact hcarry (n + 1) x xs
  exact hloop _ l

theorem eq_of_stable {same : α → α → Bool} (hrefl : ∀ x, same x x = true)
    (hsame : ∀ x y, le x y → le y x → same x y = true) {l l' : List α} (hsorted : l.Pairwise le)
    (hsorted' : l'.Pairwise le) (hstable : ∀ x, l.filter (same x) = l'.filter (same x)) :
    l = l' := by
  have hmem : ∀ {l l' : List α}, (∀ x, l.filter (same x) = l'.filter (same x)) →
      ∀ x ∈ l, x ∈ l' := by
    intro l l' hstable x hx
    have hin : x ∈ l.filter (same x) := List.mem_filter.mpr ⟨hx, hrefl x⟩
    rw [hstable x] at hin
    exact (List.mem_filter.mp hin).1
  induction l generalizing l' with
  | nil =>
      cases l' with
      | nil => rfl
      | cons y ys =>
          exact absurd (hmem (fun x => (hstable x).symm) y List.mem_cons_self) List.not_mem_nil
  | cons x xs ih =>
      cases l' with
      | nil => exact absurd (hmem hstable x List.mem_cons_self) List.not_mem_nil
      | cons y ys =>
          obtain ⟨hx, hxs⟩ := List.pairwise_cons.mp hsorted
          obtain ⟨hy, hys⟩ := List.pairwise_cons.mp hsorted'
          -- the two heads are the same element
          have hheads : x = y := by
            rcases List.mem_cons.mp (hmem hstable x List.mem_cons_self) with h | hxin
            · exact h
            · rcases List.mem_cons.mp (hmem (fun z => (hstable z).symm) y List.mem_cons_self) with
                h | hyin
              · exact h.symm
              · have hxy : same x y = true := hsame x y (hx y hyin) (hy x hxin)
                have heq := hstable x
                rw [List.filter_cons, List.filter_cons, if_pos (hrefl x), if_pos hxy] at heq
                exact (List.cons.inj heq).1
          subst hheads
          refine congrArg (x :: ·) (ih hxs hys fun z => ?_)
          have heq := hstable z
          rw [List.filter_cons, List.filter_cons] at heq
          by_cases hz : same z x = true
          · rw [if_pos hz, if_pos hz] at heq
            exact (List.cons.inj heq).2
          · rwa [if_neg hz, if_neg hz] at heq

end Order

section MergeSort

variable {le : α → α → Bool}

theorem filter_mergeSort (htrans : ∀ x y z, le x y = true → le y z = true → le x z = true)
    (htotal : ∀ x y, (le x y || le y x) = true) {p : α → Bool}
    (hp : ∀ x y, p x = true → p y = true → le x y = true) (l : List α) :
    (l.mergeSort le).filter p = l.filter p := by
  have hsorted : (l.filter p).Pairwise fun x y => le x y = true :=
    List.pairwise_of_forall_mem_list fun x hx y hy =>
      hp x y (List.mem_filter.mp hx).2 (List.mem_filter.mp hy).2
  have hsub := (List.sublist_mergeSort htrans htotal hsorted List.filter_sublist).filter p
  rw [List.filter_filter, List.filter_congr fun x _ => Bool.and_self (p x)] at hsub
  exact (hsub.eq_of_length ((List.mergeSort_perm l le).filter p).length_eq.symm).symm

theorem eq_mergeSort (htrans : ∀ x y z, le x y = true → le y z = true → le x z = true)
    (htotal : ∀ x y, (le x y || le y x) = true) {l l' : List α}
    (hsorted : l'.Pairwise fun x y => le x y = true)
    (hstable : ∀ x, l'.filter (fun y => le x y && le y x) = l.filter fun y => le x y && le y x) :
    l' = l.mergeSort le := by
  have hrefl : ∀ x, le x x = true := fun x => by
    have htotal := htotal x x
    rwa [Bool.or_self] at htotal
  refine @eq_of_stable α (fun x y => le x y = true) (fun x y => le x y && le y x) (fun x => ?_)
    (fun x y hxy hyx => ?_) _ _ hsorted (List.pairwise_mergeSort htrans htotal l) fun x => ?_
  · rw [hrefl x]
    rfl
  · rw [hxy, hyx]
    rfl
  · rw [hstable]
    refine (filter_mergeSort htrans htotal (fun y z hy hz => ?_) l).symm
    rw [Bool.and_eq_true] at hy hz
    exact htrans y x z hy.2 hz.1

theorem bubbleSort_eq_mergeSort (htrans : ∀ x y z, le x y = true → le y z = true → le x z = true)
    (htotal : ∀ x y, (le x y || le y x) = true) {bad : α → α → Bool} {l : List α}
    (hbad : ∀ x ∈ l, ∀ y ∈ l, bad x y = !le x y) : bubbleSort bad l = l.mergeSort le := by
  have hexact : bubbleSort bad l = bubbleSort (fun x y => !le x y) l :=
    bubbleSort_congr (r := fun x y => x ∈ l ∧ y ∈ l) (fun x y h => hbad x h.1 y h.2)
      (fun x y h _ => h.symm) (List.pairwise_of_forall_mem_list fun x hx y hy => ⟨hx, hy⟩)
  have hrefl : ∀ x, le x x = true := fun x => by
    have htotal := htotal x x
    rwa [Bool.or_self] at htotal
  have hright : ∀ x ∈ l, ∀ y ∈ l, if !le x y then le y x = true else le x y = true := by
    intro x _ y _
    cases hle : le x y with
    | true => exact rfl
    | false =>
        have htotal := htotal x y
        rwa [hle, Bool.false_or] at htotal
  rw [hexact]
  refine eq_mergeSort htrans htotal (pairwise_bubbleSort htrans hrefl hright) fun x => ?_
  refine filter_bubbleSort (fun y z hy hz => ?_) l
  rw [Bool.and_eq_true] at hy hz
  rw [htrans y x z hy.2 hz.1]
  rfl

end MergeSort

theorem pair_sublist_or {l : List α} {x y : α} (hx : x ∈ l) (hy : y ∈ l) (hne : x ≠ y) :
    [x, y].Sublist l ∨ [y, x].Sublist l := by
  induction l with
  | nil => exact absurd hx List.not_mem_nil
  | cons z l ih =>
      rcases List.mem_cons.mp hx with hxz | hxl
      · have hyl : y ∈ l := (List.mem_cons.mp hy).resolve_left fun hyz => hne (hxz.trans hyz.symm)
        exact Or.inl (hxz ▸ (List.singleton_sublist.mpr hyl).cons_cons x)
      · rcases List.mem_cons.mp hy with hyz | hyl
        · exact Or.inr (hyz ▸ (List.singleton_sublist.mpr hxl).cons_cons y)
        · exact (ih hxl hyl).imp (List.Sublist.cons z) (List.Sublist.cons z)

theorem pair_sublist_append {l l' : List α} {x y : α} (hx : x ∈ l) (hy : y ∈ l') :
    [x, y].Sublist (l ++ l') :=
  (List.singleton_sublist.mpr hx).append (List.singleton_sublist.mpr hy)

end Lib
end CodebaseMemory
