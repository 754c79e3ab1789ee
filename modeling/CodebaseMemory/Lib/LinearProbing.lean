import Mathlib.Data.List.Nodup
import Mathlib.Data.List.Perm.Subperm
import Mathlib.Data.Nat.Find
import Mathlib.Data.Nat.ModEq

/-!
# Sets in an open-addressing table

A table of `size` places, some of them empty.  An element is looked for from its home
place on, one place after the other, up to the first empty one.
-/

namespace CodebaseMemory
namespace Lib

section LinearProbing

variable {α : Type} [DecidableEq α] (empty : α) (size : Nat) (home : α → Nat)

def probePlace (x : α) (k : Nat) : Nat :=
  (home x + k) % size

/-- The probes from `k` on: whether the element is new, and the table with it.  A full table
looks as if it had the element. -/
def probe (slots : Nat → α) (x : α) : Nat → Nat → Bool × (Nat → α)
  | 0, _ => (false, slots)
  | n + 1, k =>
      if slots (probePlace size home x k) = empty then
        (true, Function.update slots (probePlace size home x k) x)
      else if slots (probePlace size home x k) = x then (false, slots)
      else probe slots x n (k + 1)

/-- Insertion, with as many probes as places. -/
def insertInto (slots : Nat → α) (x : α) : Bool × (Nat → α) :=
  probe empty size home slots x size 0

/-- The elements of the list are in the table, each once and within reach of its probes. -/
structure TableOf (slots : Nat → α) (xs : List α) : Prop where
  mem : ∀ x, x ≠ empty → (x ∈ xs ↔ ∃ s < size, slots s = x)
  inj : ∀ s < size, ∀ t < size, slots s = slots t → slots s ≠ empty → s = t
  reach : ∀ x k, x ≠ empty → k < size → slots (probePlace size home x k) = x →
    ∀ j < k, slots (probePlace size home x j) ≠ empty

variable {empty size home} {slots : Nat → α} {xs : List α} {x : α} {k : Nat}

omit [DecidableEq α] in
theorem tableOf_nil : TableOf empty size home (fun _ => empty) [] where
  mem := fun _ hx => iff_of_false List.not_mem_nil fun ⟨_, _, h⟩ => hx h.symm
  inj := fun _ _ _ _ _ hne => absurd rfl hne
  reach := fun _ _ hx _ h => absurd h.symm hx

omit [DecidableEq α] in
theorem probePlace_lt (hsize : 0 < size) (x : α) (k : Nat) : probePlace size home x k < size :=
  Nat.mod_lt _ hsize

omit [DecidableEq α] in
theorem probePlace_inj {j : Nat} (hk : k < size) (hj : j < size)
    (h : probePlace size home x k = probePlace size home x j) : k = j := by
  have hmod : k ≡ j [MOD size] := Nat.ModEq.add_left_cancel' (home x) h
  rwa [Nat.ModEq, Nat.mod_eq_of_lt hk, Nat.mod_eq_of_lt hj] at hmod

omit [DecidableEq α] in
theorem exists_probePlace (x : α) {s : Nat} (hs : s < size) :
    ∃ k < size, probePlace size home x k = s := by
  have hlt : home x % size < size := Nat.mod_lt _ (by omega)
  refine ⟨(s + (size - home x % size)) % size, Nat.mod_lt _ (by omega), ?_⟩
  rw [probePlace, Nat.add_mod_mod, ← Nat.mod_add_mod]
  have hsum : home x % size + (s + (size - home x % size)) = s + size := by omega
  rw [hsum, Nat.add_mod_right, Nat.mod_eq_of_lt hs]

omit [DecidableEq α] in
theorem TableOf.exists_empty (h : TableOf empty size home slots xs) (hlt : xs.length < size) :
    ∃ s < size, slots s = empty := by
  by_contra hfull
  push Not at hfull
  have hnodup : ((List.range size).map slots).Nodup := by
    refine List.Nodup.map_on (fun s hs t ht heq => ?_) List.nodup_range
    exact h.inj s (List.mem_range.mp hs) t (List.mem_range.mp ht) heq
      (hfull s (List.mem_range.mp hs))
  have hsub : (List.range size).map slots ⊆ xs := by
    intro y hy
    obtain ⟨s, hs, rfl⟩ := List.mem_map.mp hy
    exact (h.mem _ (hfull s (List.mem_range.mp hs))).mpr ⟨s, List.mem_range.mp hs, rfl⟩
  have hle := (List.subperm_of_subset hnodup hsub).length_le
  rw [List.length_map, List.length_range] at hle
  omega

theorem probe_of_first {k₀ n : Nat}
    (hbefore : ∀ j, k ≤ j → j < k₀ → slots (probePlace size home x j) ≠ empty ∧
      slots (probePlace size home x j) ≠ x)
    (hat : slots (probePlace size home x k₀) = empty ∨ slots (probePlace size home x k₀) = x)
    (hlow : k ≤ k₀) (hhigh : k₀ < k + n) :
    probe empty size home slots x n k =
      if slots (probePlace size home x k₀) = empty then
        (true, Function.update slots (probePlace size home x k₀) x)
      else (false, slots) := by
  induction n generalizing k with
  | zero => omega
  | succ n ih =>
      by_cases heq : k = k₀
      · subst heq
        rw [probe]
        split
        · rfl
        · next hne => rw [if_pos (hat.resolve_left hne)]
      · obtain ⟨hempty, hx⟩ := hbefore k (Nat.le_refl k) (by omega)
        rw [probe, if_neg hempty, if_neg hx]
        exact ih (fun j hj => hbefore j (by omega)) (by omega) (by omega)

omit [DecidableEq α] in
theorem TableOf.not_mem (h : TableOf empty size home slots xs) (hx : x ≠ empty) (hk : k < size)
    (hat : slots (probePlace size home x k) = empty)
    (hbefore : ∀ j < k, slots (probePlace size home x j) ≠ x) : x ∉ xs := by
  intro hmem
  obtain ⟨s, hs, hslot⟩ := (h.mem x hx).mp hmem
  obtain ⟨j, hj, rfl⟩ := @exists_probePlace _ _ home x s hs
  rcases Nat.lt_trichotomy j k with hlt | rfl | hgt
  · exact hbefore j hlt hslot
  · exact hx (hslot.symm.trans hat)
  · exact h.reach x j hx hj hslot k hgt hat

omit [DecidableEq α] in
theorem TableOf.update (h : TableOf empty size home slots xs) (hx : x ≠ empty) (hk : k < size)
    (hat : slots (probePlace size home x k) = empty)
    (hbefore : ∀ j < k, slots (probePlace size home x j) ≠ empty ∧
      slots (probePlace size home x j) ≠ x) :
    TableOf empty size home (Function.update slots (probePlace size home x k) x)
      (xs ++ [x]) := by
  have hnew := h.not_mem hx hk hat fun j hj => (hbefore j hj).2
  have hplace : probePlace size home x k < size := probePlace_lt (by omega) x k
  have hself : Function.update slots (probePlace size home x k) x (probePlace size home x k) = x :=
    Function.update_self ..
  have hother : ∀ s, s ≠ probePlace size home x k →
      Function.update slots (probePlace size home x k) x s = slots s := fun s hs =>
    Function.update_of_ne hs ..
  have hfree : ∀ s < size, slots s ≠ x := fun s hs heq =>
    hnew ((h.mem x hx).mpr ⟨s, hs, heq⟩)
  refine ⟨fun y hy => ?_, fun s hs t ht heq hne => ?_, fun y j hy hj hslot i hi => ?_⟩
  · rw [List.mem_append, List.mem_singleton, h.mem y hy]
    constructor
    · rintro (⟨s, hs, hslot⟩ | rfl)
      · refine ⟨s, hs, ?_⟩
        rwa [hother s]
        rintro rfl
        exact hy (hslot.symm.trans hat)
      · exact ⟨_, hplace, hself⟩
    · rintro ⟨s, hs, hslot⟩
      by_cases hp : s = probePlace size home x k
      · rw [hp, hself] at hslot
        exact Or.inr hslot.symm
      · rw [hother s hp] at hslot
        exact Or.inl ⟨s, hs, hslot⟩
  · by_cases hsp : s = probePlace size home x k
    · by_cases htp : t = probePlace size home x k
      · rw [hsp, htp]
      · rw [hsp, hself, hother t htp] at heq
        exact absurd heq.symm (hfree t ht)
    · by_cases htp : t = probePlace size home x k
      · rw [htp, hself, hother s hsp] at heq
        exact absurd heq (hfree s hs)
      · rw [hother s hsp, hother t htp] at heq
        rw [hother s hsp] at hne
        exact h.inj s hs t ht heq hne
  · by_cases hip : probePlace size home y i = probePlace size home x k
    · rw [hip, hself]
      exact hx
    · rw [hother _ hip]
      by_cases hjp : probePlace size home y j = probePlace size home x k
      · rw [hjp, hself] at hslot
        subst hslot
        rw [probePlace_inj hj hk hjp] at hi
        exact (hbefore i hi).1
      · rw [hother _ hjp] at hslot
        exact h.reach y j hy hj hslot i hi

theorem insertInto_spec (h : TableOf empty size home slots xs) (hx : x ≠ empty)
    (hlt : xs.length < size) :
    (x ∈ xs ∧ insertInto empty size home slots x = (false, slots)) ∨
      (x ∉ xs ∧ (insertInto empty size home slots x).1 = true ∧
        TableOf empty size home (insertInto empty size home slots x).2 (xs ++ [x])) := by
  have hstop : ∃ k, k < size ∧ (slots (probePlace size home x k) = empty ∨
      slots (probePlace size home x k) = x) := by
    obtain ⟨s, hs, hempty⟩ := h.exists_empty hlt
    obtain ⟨k, hk, rfl⟩ := @exists_probePlace _ _ home x s hs
    exact ⟨k, hk, Or.inl hempty⟩
  obtain ⟨hk, hat⟩ := Nat.find_spec hstop
  have hbefore : ∀ j < Nat.find hstop, slots (probePlace size home x j) ≠ empty ∧
      slots (probePlace size home x j) ≠ x := by
    intro j hj
    have hmin := Nat.find_min hstop hj
    rw [not_and, not_or] at hmin
    exact hmin (by omega)
  have hprobe := @probe_of_first α _ empty size home slots x 0 (Nat.find hstop) size
    (fun j _ => hbefore j) hat (Nat.zero_le _) (by omega)
  rw [insertInto, hprobe]
  by_cases hempty : slots (probePlace size home x (Nat.find hstop)) = empty
  · rw [if_pos hempty]
    exact Or.inr ⟨h.not_mem hx hk hempty fun j hj => (hbefore j hj).2, rfl,
      h.update hx hk hempty hbefore⟩
  · rw [if_neg hempty]
    exact Or.inl ⟨(h.mem x hx).mpr ⟨probePlace size home x (Nat.find hstop),
      probePlace_lt (by omega) x _, hat.resolve_left hempty⟩, rfl⟩

end LinearProbing

end Lib
end CodebaseMemory
