import CodebaseMemory.Lib.Bubble
import CodebaseMemory.Lib.Group
import Mathlib.Data.List.Sort

/-!
# Dropping duplicates, sorting and taking rows

`firsts id` leaves the first occurrence of each element.  It can be done before or after a stable
sort; before or after rows are dropped and taken it makes a difference.
-/

namespace CodebaseMemory
namespace Lib

/-!
## Dropping repeated keys

`dropRepeats key` leaves out an entry if the next one has the same key.  On a
list that is sorted by key, the last entry of each key is left.
-/

universe u v

section Dedup

variable {α : Type u} {κ : Type v} [LinearOrder κ] (key : α → κ)

/-- Leave out an entry if the next one has the same key. -/
def dropRepeats : List α → List α
  | [] => []
  | [x] => [x]
  | x :: y :: l => if key x = key y then dropRepeats (y :: l) else x :: dropRepeats (y :: l)

theorem dropRepeats_sublist (l : List α) : (dropRepeats key l).Sublist l := by
  induction l using dropRepeats.induct key with
  | case1 => exact List.Sublist.refl _
  | case2 x => exact List.Sublist.refl _
  | case3 x y l heq ih =>
      rw [dropRepeats, if_pos heq]
      exact ih.cons x
  | case4 x y l hne ih =>
      rw [dropRepeats, if_neg hne]
      exact ih.cons_cons x

theorem mem_keys_dropRepeats (l : List α) (k : κ) :
    k ∈ (dropRepeats key l).map key ↔ k ∈ l.map key := by
  induction l using dropRepeats.induct key with
  | case1 => exact Iff.rfl
  | case2 x => exact Iff.rfl
  | case3 x y l heq ih =>
      rw [dropRepeats, if_pos heq, ih]
      constructor
      · exact List.mem_cons_of_mem (key x)
      · intro hk
        rcases List.mem_cons.mp hk with hk | hk
        · rw [hk, heq]
          exact List.mem_cons_self
        · exact hk
  | case4 x y l hne ih =>
      rw [dropRepeats, if_neg hne, List.map_cons, List.map_cons, List.mem_cons, List.mem_cons, ih]

theorem pairwise_dropRepeats {l : List α} (hsorted : l.Pairwise fun x y => key x ≤ key y) :
    (dropRepeats key l).Pairwise fun x y => key x < key y := by
  induction l using dropRepeats.induct key with
  | case1 => exact List.Pairwise.nil
  | case2 x => exact List.pairwise_singleton _ x
  | case3 x y l heq ih =>
      rw [dropRepeats, if_pos heq]
      exact ih (List.pairwise_cons.mp hsorted).2
  | case4 x y l hne ih =>
      obtain ⟨hx, hrest⟩ := List.pairwise_cons.mp hsorted
      rw [dropRepeats, if_neg hne]
      refine List.pairwise_cons.mpr ⟨?_, ih hrest⟩
      have hxy : key x < key y := lt_of_le_of_ne (hx y List.mem_cons_self) hne
      intro z hz
      rcases List.mem_cons.mp ((dropRepeats_sublist key (y :: l)).subset hz) with rfl | hz
      · exact hxy
      · exact lt_of_lt_of_le hxy ((List.pairwise_cons.mp hrest).1 z hz)

end Dedup

variable {α : Type u} [DecidableEq α]

theorem mem_firsts_id {l : List α} {x : α} : x ∈ firsts id l ↔ x ∈ l := by
  have hmem := mem_keys_firsts id l x
  rwa [List.map_id, List.map_id] at hmem

theorem nodup_firsts_id (l : List α) : (firsts id l).Nodup := by
  have hnodup := nodup_keys_firsts id l
  rwa [List.map_id] at hnodup

theorem firsts_id_concat (l : List α) (x : α) :
    firsts id (l ++ [x]) = if x ∈ l then firsts id l else firsts id l ++ [x] := by
  have hnext := firsts_concat id l x
  by_cases hmem : x ∈ l
  · rw [if_pos hmem, hnext, if_pos (by rwa [List.map_id, id, mem_firsts_id])]
  · rw [if_neg hmem, hnext, if_neg (by rwa [List.map_id, id, mem_firsts_id])]

theorem firsts_id_of_nodup {l : List α} (h : l.Nodup) : firsts id l = l := by
  induction l using List.reverseRecOn with
  | nil => rfl
  | append_singleton l x ih =>
      obtain ⟨hl, -, hdisjoint⟩ := List.nodup_append.mp h
      have hnew : x ∉ l := fun hx => hdisjoint x hx x (List.mem_singleton_self x) rfl
      rw [firsts_id_concat, if_neg hnew, ih hl]

theorem nodup_of_length_firsts {l : List α} (h : l.length ≤ (firsts id l).length) : l.Nodup := by
  have heq := (firsts_sublist id l).eq_of_length_le h
  rw [← heq]
  exact nodup_firsts_id l

theorem firsts_id_append (l l' : List α) :
    firsts id (l ++ l') = firsts id l ++ (firsts id l').filter fun x => x ∉ l := by
  induction l' using List.reverseRecOn with
  | nil =>
      rw [List.append_nil]
      exact (List.append_nil _).symm
  | append_singleton l' x ih =>
      rw [← List.append_assoc, firsts_id_concat, firsts_id_concat, ih]
      by_cases hnew : x ∈ l'
      · rw [if_pos (List.mem_append_right l hnew), if_pos hnew]
      · rw [if_neg hnew, List.filter_append, ← List.append_assoc]
        by_cases hold : x ∈ l
        · rw [if_pos (List.mem_append_left l' hold), List.filter_singleton,
            decide_eq_false (not_not.mpr hold)]
          exact (List.append_nil _).symm
        · rw [if_neg fun h => (List.mem_append.mp h).elim hold hnew, List.filter_singleton,
            decide_eq_true hold]
          rfl

theorem firsts_id_firsts_append (l l' : List α) :
    firsts id (firsts id l ++ l') = firsts id (l ++ l') := by
  rw [firsts_id_append, firsts_id_append, firsts_id_of_nodup (nodup_firsts_id l)]
  exact congrArg (firsts id l ++ ·)
    (List.filter_congr fun x _ => decide_eq_decide.mpr (not_congr mem_firsts_id))

theorem firsts_id_eq_iff {l : List α} : firsts id l = l ↔ l.Nodup :=
  ⟨fun h => h ▸ nodup_firsts_id l, firsts_id_of_nodup⟩

theorem filter_firsts_id (p : α → Bool) (l : List α) :
    (firsts id l).filter p = firsts id (l.filter p) := by
  induction l using List.reverseRecOn with
  | nil => rfl
  | append_singleton l x ih =>
      rw [firsts_id_concat, List.filter_append, List.filter_singleton]
      by_cases hp : p x = true
      · rw [hp, Bool.cond_true, firsts_id_concat, ← ih]
        have hmem : x ∈ l.filter p ↔ x ∈ l := by
          rw [List.mem_filter, and_iff_left hp]
        by_cases hold : x ∈ l
        · rw [if_pos hold, if_pos (hmem.mpr hold)]
        · rw [if_neg hold, if_neg (mt hmem.mp hold), List.filter_append, List.filter_singleton, hp,
            Bool.cond_true]
      · rw [Bool.eq_false_iff.mpr hp, Bool.cond_false, List.append_nil, ← ih]
        split
        · rfl
        · rw [List.filter_append, List.filter_singleton, Bool.eq_false_iff.mpr hp, Bool.cond_false,
            List.append_nil]

theorem find?_firsts_id (p : α → Bool) (l : List α) : (firsts id l).find? p = l.find? p := by
  rw [← List.head?_filter, ← List.head?_filter, filter_firsts_id]
  cases l.filter p with
  | nil => rfl
  | cons x rest =>
      obtain ⟨more, hmore⟩ : firsts id [x] <+: firsts id ([x] ++ rest) :=
        firsts_prefix_append id [x] rest
      rw [← List.singleton_append, ← hmore]
      rfl

section Sorting

variable {le : α → α → Bool}

theorem mergeSort_firsts (htrans : ∀ x y z, le x y = true → le y z = true → le x z = true)
    (htotal : ∀ x y, (le x y || le y x) = true) (l : List α) :
    firsts id (l.mergeSort le) = (firsts id l).mergeSort le := by
  refine eq_mergeSort htrans htotal
    ((List.pairwise_mergeSort htrans htotal l).sublist (firsts_sublist id _)) fun x => ?_
  rw [filter_firsts_id, filter_firsts_id, filter_mergeSort htrans htotal fun y z hy hz => ?_]
  rw [Bool.and_eq_true] at hy hz
  exact htrans y x z hy.2 hz.1

end Sorting

/-- Dropping duplicates leaves the window as it should be: nothing before it is there twice or
again inside, and either nothing in it is there twice, or nothing new comes behind it. -/
def WindowFits (l : List α) (skip limit : Nat) : Prop :=
  l.length ≤ skip ∨ (l.take skip).Nodup ∧
    (∀ x ∈ (l.drop skip).take limit, x ∉ l.take skip) ∧
    (((l.drop skip).take limit).Nodup ∨ ∀ x ∈ l, x ∈ l.take (skip + limit))

instance (l : List α) (skip limit : Nat) : Decidable (WindowFits l skip limit) :=
  inferInstanceAs (Decidable (_ ∨ _))

theorem nodup_take_of_getElem? {l : List α} {skip : Nat} {x : α} (hx : l[skip]? = some x)
    (hdistinct : (firsts id l)[skip]? = some x) : (l.take skip).Nodup := by
  refine nodup_of_length_firsts ?_
  by_contra hshort
  rw [List.length_take] at hshort
  obtain ⟨hlt, hget⟩ := List.getElem?_eq_some_iff.mp hx
  have hsplit : l = l.take skip ++ [x] ++ l.drop (skip + 1) := by
    rw [← hget, List.take_append_getElem, List.take_append_drop]
  have hfront : firsts id (l.take skip ++ [x]) <+: firsts id l := by
    nth_rewrite 2 [hsplit]
    exact firsts_prefix_append id _ _
  have hfew : (firsts id (l.take skip ++ [x])).length ≤ skip := by
    rw [firsts_id_concat]
    split
    · omega
    · rw [List.length_append, List.length_singleton]
      omega
  have hmem : x ∈ (firsts id l).take skip := by
    have hin : x ∈ firsts id (l.take skip ++ [x]) :=
      mem_firsts_id.mpr (List.mem_append_right _ (List.mem_singleton_self x))
    obtain ⟨j, hj, hjx⟩ := List.mem_iff_getElem.mp hin
    rw [List.mem_take_iff_getElem]
    have hjl : j < (firsts id l).length := lt_of_lt_of_le hj hfront.length_le
    exact ⟨j, by omega, (hfront.getElem hj).symm.trans hjx⟩
  obtain ⟨i, hi, hix⟩ := List.mem_take_iff_getElem.mp hmem
  obtain ⟨hskip, hskipx⟩ := List.getElem?_eq_some_iff.mp hdistinct
  have heq := (nodup_firsts_id l).getElem_inj_iff.mp (hix.trans hskipx.symm)
  omega

theorem drop_firsts_id {before window after : List α} (hnodup : before.Nodup)
    (hnew : ∀ x ∈ window, x ∉ before) :
    (firsts id (before ++ (window ++ after))).drop before.length =
      firsts id window ++
        ((firsts id after).filter fun x => x ∉ window).filter fun x => x ∉ before := by
  have hwindow : (firsts id window).filter (fun x => x ∉ before) = firsts id window := by
    rw [List.filter_eq_self]
    exact fun x hx => decide_eq_true (hnew x (mem_firsts_id.mp hx))
  rw [firsts_id_append, firsts_id_append, firsts_id_of_nodup hnodup, List.drop_left,
    List.filter_append, hwindow]

theorem firsts_eq_take_iff {window rest : List α} {limit : Nat} (hwindow : window.length ≤ limit)
    (hlast : window.length < limit → rest = []) :
    firsts id window = (firsts id window ++ rest).take limit ↔ window.Nodup ∨ rest = [] := by
  have hle := (firsts_sublist id window).length_le
  constructor
  · intro heq
    by_cases hrest : rest = []
    · exact Or.inr hrest
    · left
      have hpos := List.length_pos_iff.mpr hrest
      have hlength := congrArg List.length heq
      rw [List.length_take, List.length_append] at hlength
      refine nodup_of_length_firsts ?_
      omega
  · rintro (hnodup | hnil)
    · rw [firsts_id_of_nodup hnodup]
      rcases Nat.lt_or_eq_of_le hwindow with hlt | hfull
      · rw [hlast hlt, List.append_nil, List.take_of_length_le hwindow]
      · rw [List.take_left' hfull]
    · rw [hnil, List.append_nil, List.take_of_length_le (hle.trans hwindow)]

theorem firsts_window_iff {limit : Nat} (hlimit : 0 < limit) (l : List α) (skip : Nat) :
    firsts id ((l.drop skip).take limit) = ((firsts id l).drop skip).take limit ↔
      WindowFits l skip limit := by
  by_cases hlong : l.length ≤ skip
  · have hfew := (firsts_sublist id l).length_le.trans hlong
    rw [List.drop_eq_nil_of_le hlong, List.drop_eq_nil_of_le hfew, List.take_nil]
    exact ⟨fun _ => Or.inl hlong, fun _ => rfl⟩
  · rw [Nat.not_le] at hlong
    set before := l.take skip with hbefore
    set window := (l.drop skip).take limit with hwindow
    set after := (l.drop skip).drop limit with hafter
    have hsplit : l = before ++ (window ++ after) := by
      rw [hwindow, hafter, List.take_append_drop, hbefore, List.take_append_drop]
    have hlength : before.length = skip := by
      rw [hbefore, List.length_take, Nat.min_eq_left hlong.le]
    have htake : l.take (skip + limit) = before ++ window := by
      rw [List.take_add, hbefore, hwindow]
    have hcap : window.length ≤ limit := List.length_take_le _ _
    have hlast : window.length < limit →
        ((firsts id after).filter fun x => x ∉ window).filter (fun x => x ∉ before) = [] := by
      intro hlt
      rw [hwindow, List.length_take] at hlt
      have hnone : after = [] := by
        rw [hafter]
        exact List.drop_eq_nil_of_le (by omega)
      rw [hnone]
      rfl
    have hbehind :
        ((firsts id after).filter fun x => x ∉ window).filter (fun x => x ∉ before) = [] ↔
          ∀ x ∈ l, x ∈ before ++ window := by
      simp only [List.filter_eq_nil_iff, List.mem_filter, mem_firsts_id, decide_eq_true_eq]
      constructor
      · intro hnone x hx
        by_contra hout
        rw [List.mem_append, not_or] at hout
        rw [hsplit, List.mem_append, List.mem_append] at hx
        exact hnone x ⟨(hx.resolve_left hout.1).resolve_left hout.2, hout.2⟩ hout.1
      · rintro hall x ⟨hx, hnot⟩ hout
        have hin := hall x (hsplit ▸ List.mem_append_right _ (List.mem_append_right _ hx))
        exact (List.mem_append.mp hin).elim hout hnot
    constructor
    · intro heq
      have hfirst : l[skip]? = some l[skip] := List.getElem?_eq_getElem hlong
      have hhead : window[0]? = some l[skip] := by
        rw [hwindow, List.getElem?_take_of_lt hlimit, List.getElem?_drop, Nat.add_zero, hfirst]
      have hdistinct : (firsts id l)[skip]? = some l[skip] := by
        have hne : window ≠ [] := fun h => by
          rw [h] at hhead
          exact absurd hhead (by simp)
        obtain ⟨x, rest, hx⟩ := List.exists_cons_of_ne_nil hne
        rw [hx, List.getElem?_cons_zero, Option.some.injEq] at hhead
        obtain ⟨more, hmore⟩ : firsts id [x] <+: firsts id ([x] ++ rest) :=
          firsts_prefix_append id [x] rest
        have hget : (firsts id window)[0]? = some x := by
          rw [hx, ← List.singleton_append, ← hmore]
          rfl
        rw [heq, List.getElem?_take_of_lt hlimit, List.getElem?_drop, Nat.add_zero, hhead] at hget
        exact hget
      have hnodup : before.Nodup := nodup_take_of_getElem? hfirst hdistinct
      have hnew : ∀ x ∈ window, x ∉ before := by
        intro x hx hin
        have hx : x ∈ firsts id window := mem_firsts_id.mpr hx
        rw [heq, hsplit, firsts_id_append, firsts_id_of_nodup hnodup, ← hlength,
          List.drop_left] at hx
        have hout := (List.mem_filter.mp (List.mem_of_mem_take hx)).2
        exact of_decide_eq_true hout hin
      rw [hsplit, ← hlength, drop_firsts_id hnodup hnew, firsts_eq_take_iff hcap hlast,
        hbehind] at heq
      refine Or.inr ⟨hnodup, hnew, ?_⟩
      rw [htake]
      exact heq
    · rintro (hshort | ⟨hnodup, hnew, hrest⟩)
      · omega
      · rw [htake] at hrest
        rw [hsplit, ← hlength, drop_firsts_id hnodup hnew, firsts_eq_take_iff hcap hlast, hbehind]
        exact hrest

end Lib
end CodebaseMemory
