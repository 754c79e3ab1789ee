import Mathlib.Data.List.AList

/-!
# Tables and bucket indexes

A hash table is a finite map (`AList`); the order of its entries is not used.
Two kinds of index are built from such tables:

* `Maps t key S`: `t` maps the key of every member of `S` to that member, and
  has no other entries;
* `Indexes t key S`: `t` has for every key the bucket of the members of `S`
  with that key, each once.

A bucket loses an entry by *swap-remove*: the last entry takes its place.
-/

namespace CodebaseMemory
namespace Lib

universe u v

section SwapRemove

variable {α : Type u} {p : α → Bool}

/-- Remove the first entry that satisfies `p`; the last one takes its place. -/
def swapRemove (p : α → Bool) : List α → List α
  | [] => []
  | x :: xs =>
      if p x then
        match xs.getLast? with
        | none => []
        | some y => y :: xs.dropLast
      else x :: swapRemove p xs

theorem swapRemove_perm (p : α → Bool) (l : List α) :
    (swapRemove p l).Perm (l.eraseP p) := by
  induction l with
  | nil => exact List.Perm.refl []
  | cons x xs ih =>
      by_cases hx : p x = true
      · rw [swapRemove, if_pos hx, List.eraseP_cons_of_pos hx]
        cases hlast : xs.getLast? with
        | none =>
            rw [List.getLast?_eq_none_iff.mp hlast]
        | some y =>
            have hsplit : xs = xs.dropLast ++ [y] :=
              (List.dropLast_append_getLast? y hlast).symm
            calc
              (y :: xs.dropLast).Perm (xs.dropLast ++ [y]) :=
                (List.perm_append_singleton y xs.dropLast).symm
              _ = xs := hsplit.symm
      · rw [swapRemove, if_neg hx, List.eraseP_cons_of_neg hx]
        exact ih.cons x

theorem nodup_swapRemove {l : List α} (h : l.Nodup) : (swapRemove p l).Nodup :=
  (swapRemove_perm p l).nodup_iff.mpr (h.sublist (List.eraseP_sublist))

theorem mem_swapRemove {l : List α} {a : α} (h : l.Nodup)
    (ha : ∀ b, b ∈ l → (p b = true ↔ b = a)) (c : α) :
    c ∈ swapRemove p l ↔ c ∈ l ∧ c ≠ a := by
  rw [(swapRemove_perm p l).mem_iff]
  induction l with
  | nil => simp
  | cons x xs ih =>
      have hxs := List.nodup_cons.mp h
      by_cases hx : p x = true
      · have hxa : x = a := (ha x (by simp)).mp hx
        rw [List.eraseP_cons_of_pos hx, List.mem_cons]
        constructor
        · intro hc
          refine ⟨Or.inr hc, ?_⟩
          rintro rfl
          exact hxs.1 (hxa ▸ hc)
        · rintro ⟨hc | hc, hne⟩
          · exact absurd (hc.trans hxa) hne
          · exact hc
      · have hxa : x ≠ a := fun hxa => hx ((ha x (by simp)).mpr hxa)
        rw [List.eraseP_cons_of_neg hx, List.mem_cons, List.mem_cons,
          ih hxs.2 (fun b hb => ha b (List.mem_cons_of_mem x hb))]
        constructor
        · rintro (rfl | ⟨hc, hne⟩)
          · exact ⟨Or.inl rfl, hxa⟩
          · exact ⟨Or.inr hc, hne⟩
        · rintro ⟨hc | hc, hne⟩
          · exact Or.inl hc
          · exact Or.inr ⟨hc, hne⟩

end SwapRemove

abbrev Table (K : Type u) (V : Type v) : Type (max u v) :=
  AList (fun _ : K => V)

section Tables

variable {K : Type u} {P : Type v} [DecidableEq K]

/-- The bucket of a key; a key without an array has the empty bucket. -/
def bucket (t : Table K (List P)) (k : K) : List P :=
  (t.lookup k).getD []

/-- Append to the bucket of a key, which is created if needed. -/
def pushBucket (t : Table K (List P)) (k : K) (x : P) : Table K (List P) :=
  t.insert k (bucket t k ++ [x])

/-- Swap-remove in the bucket of a key, if there is one. -/
def removeBucket (t : Table K (List P)) (k : K) (p : P → Bool) : Table K (List P) :=
  match t.lookup k with
  | none => t
  | some arr => t.insert k (swapRemove p arr)

theorem isSome_lookup_insert {t : Table K P} {k k' : K} {x : P}
    (h : (t.lookup k').isSome = true) : ((t.insert k x).lookup k').isSome = true := by
  by_cases hk : k' = k
  · rw [hk, AList.lookup_insert, Option.isSome_some]
  · rw [AList.lookup_insert_ne hk]
    exact h

@[simp] theorem bucket_empty (k : K) : bucket (∅ : Table K (List P)) k = [] := rfl

theorem bucket_insert (t : Table K (List P)) (k k' : K) (arr : List P) :
    bucket (t.insert k arr) k' = if k' = k then arr else bucket t k' := by
  unfold bucket
  by_cases hk : k' = k
  · rw [if_pos hk, hk, AList.lookup_insert, Option.getD_some]
  · rw [if_neg hk, AList.lookup_insert_ne hk]

theorem bucket_pushBucket (t : Table K (List P)) (k k' : K) (x : P) :
    bucket (pushBucket t k x) k' = if k' = k then bucket t k ++ [x] else bucket t k' :=
  bucket_insert t k k' _

theorem bucket_removeBucket (t : Table K (List P)) (k k' : K) (p : P → Bool) :
    bucket (removeBucket t k p) k' =
      if k' = k then swapRemove p (bucket t k) else bucket t k' := by
  cases harr : t.lookup k with
  | none =>
      have hnil : bucket t k = [] := by rw [bucket, harr, Option.getD_none]
      have hsame : removeBucket t k p = t := by simp only [removeBucket, harr]
      rw [hsame, hnil]
      by_cases hk : k' = k
      · rw [if_pos hk, hk, hnil, swapRemove]
      · rw [if_neg hk]
  | some arr =>
      have hbucket : bucket t k = arr := by rw [bucket, harr, Option.getD_some]
      have hset : removeBucket t k p = t.insert k (swapRemove p arr) := by
        simp only [removeBucket, harr]
      rw [hset, bucket_insert, hbucket]

end Tables

section Indexes

variable {K : Type u} {P : Type v} [DecidableEq K] {key : P → K} {S : P → Prop}

/-- `t` maps the keys of the members of `S` to them. -/
def Maps (t : Table K P) (key : P → K) (S : P → Prop) : Prop :=
  ∀ k p, t.lookup k = some p ↔ S p ∧ key p = k

/-- `t` has the members of `S` in the buckets of their keys. -/
def Indexes (t : Table K (List P)) (key : P → K) (S : P → Prop) : Prop :=
  ∀ k, (bucket t k).Nodup ∧ ∀ p, p ∈ bucket t k ↔ S p ∧ key p = k

theorem Maps.empty (key : P → K) : Maps (∅ : Table K P) key (fun _ => False) := by
  intro k p
  simp

variable {x : P}
variable {t : Table K P}

theorem Maps.congr {key' : P → K} {S' : P → Prop} (h : Maps t key S) (hS : ∀ p, S' p ↔ S p)
    (hkey : ∀ p, S p → key' p = key p) : Maps t key' S' := by
  intro k p
  rw [h k p, hS p]
  constructor
  · rintro ⟨hp, hk⟩
    exact ⟨hp, (hkey p hp).trans hk⟩
  · rintro ⟨hp, hk⟩
    exact ⟨hp, (hkey p hp).symm.trans hk⟩

theorem Maps.injOn (h : Maps t key S) {p q : P} (hp : S p) (hq : S q) (hkey : key p = key q) :
    p = q := by
  have hp' := (h (key p) p).mpr ⟨hp, rfl⟩
  have hq' := (h (key p) q).mpr ⟨hq, hkey.symm⟩
  exact Option.some.inj (hp'.symm.trans hq')

theorem Maps.insert (h : Maps t key S) (hx : t.lookup (key x) = none) :
    Maps (t.insert (key x) x) key (fun p => S p ∨ p = x) := by
  intro k p
  by_cases hk : k = key x
  · rw [hk, AList.lookup_insert]
    constructor
    · intro hp
      have hp' := Option.some.inj hp
      exact ⟨Or.inr hp'.symm, by rw [hp']⟩
    · rintro ⟨hp | hp, hkp⟩
      · have hmem := (h (key x) p).mpr ⟨hp, hkp⟩
        rw [hx] at hmem
        exact absurd hmem (by simp)
      · rw [hp]
  · rw [AList.lookup_insert_ne hk, h k p]
    constructor
    · rintro ⟨hp, hkp⟩
      exact ⟨Or.inl hp, hkp⟩
    · rintro ⟨hp | hp, hkp⟩
      · exact ⟨hp, hkp⟩
      · exact absurd (hkp.symm.trans (congrArg key hp)) hk

theorem Maps.erase (h : Maps t key S) (hx : S x) :
    Maps (t.erase (key x)) key (fun p => S p ∧ p ≠ x) := by
  intro k p
  by_cases hk : k = key x
  · rw [hk, AList.lookup_erase]
    constructor
    · intro hp
      exact absurd hp (by simp)
    · rintro ⟨⟨hp, hne⟩, hkp⟩
      exact absurd (h.injOn hp hx hkp) hne
  · rw [AList.lookup_erase_ne hk, h k p]
    constructor
    · rintro ⟨hp, hkp⟩
      refine ⟨⟨hp, ?_⟩, hkp⟩
      rintro rfl
      exact hk hkp.symm
    · rintro ⟨⟨hp, -⟩, hkp⟩
      exact ⟨hp, hkp⟩

theorem Indexes.empty (key : P → K) :
    Indexes (∅ : Table K (List P)) key (fun _ => False) := by
  intro k
  simp

theorem Indexes.congr {t : Table K (List P)} {key' : P → K} {S' : P → Prop}
    (h : Indexes t key S) (hS : ∀ p, S' p ↔ S p) (hkey : ∀ p, S p → key' p = key p) :
    Indexes t key' S' := by
  intro k
  refine ⟨(h k).1, fun p => ?_⟩
  rw [(h k).2 p, hS p]
  constructor
  · rintro ⟨hp, hk⟩
    exact ⟨hp, (hkey p hp).trans hk⟩
  · rintro ⟨hp, hk⟩
    exact ⟨hp, (hkey p hp).symm.trans hk⟩

theorem Indexes.push {t : Table K (List P)} (h : Indexes t key S) (hx : ¬ S x) :
    Indexes (pushBucket t (key x) x) key (fun p => S p ∨ p = x) := by
  intro k
  rw [bucket_pushBucket]
  by_cases hk : k = key x
  · rw [if_pos hk]
    refine ⟨?_, fun p => ?_⟩
    · refine List.Nodup.append (h (key x)).1 (List.nodup_singleton x) ?_
      intro p hp hpx
      rw [List.mem_singleton.mp hpx] at hp
      exact hx (((h (key x)).2 x).mp hp).1
    · rw [List.mem_append, List.mem_singleton, (h (key x)).2 p, hk]
      constructor
      · rintro (⟨hp, hkp⟩ | rfl)
        · exact ⟨Or.inl hp, hkp⟩
        · exact ⟨Or.inr rfl, rfl⟩
      · rintro ⟨hp | hp, hkp⟩
        · exact Or.inl ⟨hp, hkp⟩
        · exact Or.inr hp
  · rw [if_neg hk]
    refine ⟨(h k).1, fun p => ?_⟩
    rw [(h k).2 p]
    constructor
    · rintro ⟨hp, hkp⟩
      exact ⟨Or.inl hp, hkp⟩
    · rintro ⟨hp | rfl, hkp⟩
      · exact ⟨hp, hkp⟩
      · exact absurd hkp.symm hk

theorem Indexes.remove {t : Table K (List P)} {f : P → Bool} (h : Indexes t key S)
    (hf : ∀ p, S p → key p = key x → (f p = true ↔ p = x)) :
    Indexes (removeBucket t (key x) f) key (fun p => S p ∧ p ≠ x) := by
  intro k
  rw [bucket_removeBucket]
  by_cases hk : k = key x
  · have hbucket : ∀ p, p ∈ bucket t (key x) → (f p = true ↔ p = x) := by
      intro p hp
      have hp' := ((h (key x)).2 p).mp hp
      exact hf p hp'.1 hp'.2
    rw [if_pos hk]
    refine ⟨nodup_swapRemove (h (key x)).1, fun p => ?_⟩
    rw [mem_swapRemove (h (key x)).1 hbucket p, (h (key x)).2 p, hk]
    constructor
    · rintro ⟨⟨hp, hkp⟩, hne⟩
      exact ⟨⟨hp, hne⟩, hkp⟩
    · rintro ⟨⟨hp, hne⟩, hkp⟩
      exact ⟨⟨hp, hkp⟩, hne⟩
  · rw [if_neg hk]
    refine ⟨(h k).1, fun p => ?_⟩
    rw [(h k).2 p]
    constructor
    · rintro ⟨hp, hkp⟩
      refine ⟨⟨hp, ?_⟩, hkp⟩
      rintro rfl
      exact hk hkp.symm
    · rintro ⟨⟨hp, -⟩, hkp⟩
      exact ⟨hp, hkp⟩

end Indexes

end Lib
end CodebaseMemory
