import CodebaseMemory.Lib.Index
import Mathlib.Data.List.Count
import Mathlib.Data.List.Induction
import Mathlib.Order.MinMax

/-!
# Tables that count

A table counts how often a key occurs, or keeps the largest value that was given for a key.
The pairs of a list are those of an element and one behind it.
-/

namespace CodebaseMemory
namespace Lib

section Counting

variable {K V : Type} [DecidableEq K] [LinearOrder V]

/-- Count one more occurrence of a key. -/
def bump (t : Table K Nat) (k : K) : Table K Nat :=
  match t.lookup k with
  | some n => t.insert k (n + 1)
  | none => t.insert k 1

/-- Keep the larger value of a key. -/
def raise (t : Table K V) (k : K) (v : V) : Table K V :=
  match t.lookup k with
  | some m => if m < v then t.insert k v else t
  | none => t.insert k v

theorem lookup_bump (t : Table K Nat) (k k' : K) :
    (bump t k).lookup k' =
      if k' = k then some ((t.lookup k).getD 0 + 1) else t.lookup k' := by
  have hinsert : ∀ n, (t.insert k n).lookup k' = if k' = k then some n else t.lookup k' := by
    intro n
    split
    · next h => rw [h, AList.lookup_insert]
    · next h => rw [AList.lookup_insert_ne h]
  rw [bump]
  cases t.lookup k with
  | some n => exact hinsert (n + 1)
  | none => exact hinsert 1

theorem lookup_foldl_bump (xs : List K) (k : K) :
    (xs.foldl bump ∅).lookup k = if xs.count k = 0 then none else some (xs.count k) := by
  induction xs using List.reverseRecOn with
  | nil => rfl
  | append_singleton xs x ih =>
      rw [List.foldl_append, List.foldl_cons, List.foldl_nil, lookup_bump, List.count_append]
      by_cases h : k = x
      · subst h
        rw [if_pos rfl, ih, List.count_singleton_self, if_neg (Nat.succ_ne_zero _)]
        split
        · next hzero => rw [hzero]; rfl
        · rfl
      · have hnone : List.count k [x] = 0 := List.count_eq_zero.mpr fun hmem =>
          h (List.mem_singleton.mp hmem)
        rw [if_neg h, ih, hnone, Nat.add_zero]

theorem mem_of_lookup_foldl_bump {xs : List K} {k : K} {n : Nat}
    (h : (xs.foldl bump ∅).lookup k = some n) : k ∈ xs := by
  rw [lookup_foldl_bump] at h
  split at h
  · exact absurd h (by simp)
  · next hcount => exact List.count_pos_iff.mp (Nat.pos_of_ne_zero hcount)

theorem count_flatMap_eq {α : Type} {l : List α} {f : α → List K}
    (hnodup : ∀ x ∈ l, (f x).Nodup) (k : K) [∀ x, Decidable (k ∈ f x)] :
    (l.flatMap f).count k = (l.filter fun x => k ∈ f x).length := by
  induction l with
  | nil => rfl
  | cons x l ih =>
      rw [List.flatMap_cons, List.count_append, List.filter_cons,
        ih fun y hy => hnodup y (List.mem_cons_of_mem x hy)]
      have hx := hnodup x List.mem_cons_self
      split
      · next h =>
          rw [List.count_eq_one_of_mem hx (of_decide_eq_true h), List.length_cons, Nat.add_comm]
      · next h =>
          rw [List.count_eq_zero.mpr fun hmem => h (decide_eq_true hmem), Nat.zero_add]

theorem lookup_raise (t : Table K V) (k k' : K) (v : V) :
    (raise t k v).lookup k' =
      if k' = k then some (((t.lookup k).map fun m => max m v).getD v) else t.lookup k' := by
  have hinsert : (t.insert k v).lookup k' = if k' = k then some v else t.lookup k' := by
    split
    · next h => rw [h, AList.lookup_insert]
    · next h => rw [AList.lookup_insert_ne h]
  rw [raise]
  cases hk : t.lookup k with
  | none => exact hinsert
  | some m =>
      dsimp only [Option.map_some, Option.getD_some]
      split
      · next hlt => rw [hinsert, max_eq_right hlt.le]
      · next hge =>
          rw [max_eq_left (not_lt.mp hge)]
          split
          · next h => rw [h, hk]
          · rfl

theorem lookup_foldl_raise {ws : List (K × V)} {k : K} :
    (∀ v, (k, v) ∈ ws → ∃ m, (ws.foldl (fun t w => raise t w.1 w.2) ∅).lookup k = some m) ∧
      ∀ m, (ws.foldl (fun t w => raise t w.1 w.2) ∅).lookup k = some m →
        (k, m) ∈ ws ∧ ∀ v, (k, v) ∈ ws → v ≤ m := by
  induction ws using List.reverseRecOn with
  | nil => exact ⟨fun v hv => absurd hv List.not_mem_nil, fun m hm => absurd hm (by simp)⟩
  | append_singleton ws w ih =>
      obtain ⟨hsome, hmax⟩ := ih
      rw [List.foldl_append, List.foldl_cons, List.foldl_nil, lookup_raise]
      generalize ws.foldl (fun t w => raise t w.1 w.2) ∅ = t at hsome hmax ⊢
      by_cases h : k = w.1
      · rw [if_pos h, ← h]
        refine ⟨fun v _ => ⟨_, rfl⟩, fun m hm => ?_⟩
        have hw : w = (k, w.2) := Prod.ext h.symm rfl
        obtain rfl := Option.some.inj hm
        cases ht : t.lookup k with
        | none =>
            refine ⟨List.mem_append_right _ (List.mem_singleton.mpr hw.symm), fun v hv => ?_⟩
            rcases List.mem_append.mp hv with hold | hnew
            · obtain ⟨m, hm⟩ := hsome v hold
              rw [ht] at hm
              exact absurd hm (by simp)
            · exact (congrArg Prod.snd (List.mem_singleton.mp hnew)).le
        | some m =>
            obtain ⟨hmem, hle⟩ := hmax m ht
            dsimp only [Option.map_some, Option.getD_some]
            refine ⟨?_, fun v hv => ?_⟩
            · rcases le_total m w.2 with hmw | hwm
              · rw [max_eq_right hmw]
                exact List.mem_append_right _ (List.mem_singleton.mpr hw.symm)
              · rw [max_eq_left hwm]
                exact List.mem_append_left _ hmem
            · rcases List.mem_append.mp hv with hold | hnew
              · exact (hle v hold).trans (le_max_left _ _)
              · exact (congrArg Prod.snd (List.mem_singleton.mp hnew)).le.trans (le_max_right _ _)
      · rw [if_neg h]
        have hmem : ∀ v, (k, v) ∈ ws ++ [w] ↔ (k, v) ∈ ws := by
          intro v
          rw [List.mem_append, List.mem_singleton]
          exact or_iff_left fun heq => h (congrArg Prod.fst heq)
        simp only [hmem]
        exact ⟨hsome, hmax⟩

end Counting

section Pairs

variable {α : Type}

/-- The pairs of an element and one behind it. -/
def pairsOf : List α → List (α × α)
  | [] => []
  | x :: xs => xs.map (fun y => (x, y)) ++ pairsOf xs

variable {a b : α}
variable {xs : List α}

theorem mem_pairsOf (h : (a, b) ∈ pairsOf xs) : a ∈ xs ∧ b ∈ xs := by
  induction xs with
  | nil => exact absurd h List.not_mem_nil
  | cons x xs ih =>
      rcases List.mem_append.mp h with hhead | htail
      · obtain ⟨y, hy, heq⟩ := List.mem_map.mp hhead
        obtain ⟨rfl, rfl⟩ := Prod.mk.inj heq
        exact ⟨List.mem_cons_self, List.mem_cons_of_mem _ hy⟩
      · exact (ih htail).imp (List.mem_cons_of_mem x) (List.mem_cons_of_mem x)

theorem ne_of_mem_pairsOf (hnodup : xs.Nodup) (h : (a, b) ∈ pairsOf xs) : a ≠ b := by
  induction xs with
  | nil => exact absurd h List.not_mem_nil
  | cons x xs ih =>
      obtain ⟨hx, hxs⟩ := List.nodup_cons.mp hnodup
      rcases List.mem_append.mp h with hhead | htail
      · obtain ⟨y, hy, heq⟩ := List.mem_map.mp hhead
        obtain ⟨rfl, rfl⟩ := Prod.mk.inj heq
        exact fun hab => hx (hab ▸ hy)
      · exact ih hxs htail

theorem pairsOf_total (ha : a ∈ xs) (hb : b ∈ xs) (hne : a ≠ b) :
    (a, b) ∈ pairsOf xs ∨ (b, a) ∈ pairsOf xs := by
  induction xs with
  | nil => exact absurd ha List.not_mem_nil
  | cons x xs ih =>
      have hhead : ∀ {y}, y ∈ xs → (x, y) ∈ pairsOf (x :: xs) := fun hy =>
        List.mem_append_left _ (List.mem_map_of_mem hy)
      rcases List.mem_cons.mp ha with hax | hax
      · rcases List.mem_cons.mp hb with hbx | hbx
        · exact absurd (hax.trans hbx.symm) hne
        · exact Or.inl (hax ▸ hhead hbx)
      · rcases List.mem_cons.mp hb with hbx | hbx
        · exact Or.inr (hbx ▸ hhead hax)
        · exact (ih hax hbx).imp (List.mem_append_right _) (List.mem_append_right _)

theorem nodup_map_pairsOf {β : Type} {f : α × α → β} (hnodup : xs.Nodup)
    (hf : ∀ a ∈ xs, ∀ b ∈ xs, ∀ c ∈ xs, ∀ d ∈ xs, a ≠ b → f (a, b) = f (c, d) →
      a = c ∧ b = d ∨ a = d ∧ b = c) : ((pairsOf xs).map f).Nodup := by
  induction xs with
  | nil => exact List.nodup_nil
  | cons x xs ih =>
      obtain ⟨hx, hxs⟩ := List.nodup_cons.mp hnodup
      have hne : ∀ {y}, y ∈ xs → x ≠ y := fun hy heq => hx (heq ▸ hy)
      have hself : x ∈ x :: xs := List.mem_cons_self
      have hmem : ∀ {y}, y ∈ xs → y ∈ x :: xs := List.mem_cons_of_mem x
      rw [pairsOf, List.map_append, List.map_map, List.nodup_append]
      refine ⟨hxs.map_on fun y hy z hz heq => ?_, ih hxs fun a ha b hb c hc d hd =>
        hf a (hmem ha) b (hmem hb) c (hmem hc) d (hmem hd), ?_⟩
      · rcases hf x hself y (hmem hy) x hself z (hmem hz) (hne hy) heq with h | h
        · exact h.2
        · exact absurd h.1 (hne hz)
      · intro u hu v hv huv
        obtain ⟨y, hy, rfl⟩ := List.mem_map.mp hu
        obtain ⟨⟨c, d⟩, hcd, rfl⟩ := List.mem_map.mp hv
        obtain ⟨hc, hd⟩ := mem_pairsOf hcd
        rcases hf x hself y (hmem hy) c (hmem hc) d (hmem hd) (hne hy) huv with h | h
        · exact hne hc h.1
        · exact hne hd h.1

end Pairs

end Lib
end CodebaseMemory
