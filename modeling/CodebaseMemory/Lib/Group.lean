import Mathlib.Data.List.Induction
import Mathlib.Data.List.Nodup
import Mathlib.Data.List.Perm.Subperm

/-!
# Grouping by a key

A loop over a list that keeps one entry for each key: it searches the entries from
the front, appends a new one if there is none, and adds to the entry it has then.
-/

namespace CodebaseMemory
namespace Lib

universe u v w

section Group

variable {α : Type u}
variable {κ : Type v} [DecidableEq κ]
variable {σ : Type w}
variable (key : α → κ)

/-- Add an element to the entry of its key. -/
def addTo (init : α → σ) (add : σ → α → σ) : List (κ × σ) → α → List (κ × σ)
  | [], x => [(key x, add (init x) x)]
  | entry :: entries, x =>
      if entry.1 = key x then (entry.1, add entry.2 x) :: entries
      else entry :: addTo init add entries x

def groupLoop (init : α → σ) (add : σ → α → σ) (xs : List α) : List (κ × σ) :=
  xs.foldl (addTo key init add) []

/-- The first element of each key. -/
def firsts (xs : List α) : List α :=
  xs.foldl (fun acc x => if key x ∈ acc.map key then acc else acc ++ [x]) []

/-- The elements with the key of `x`. -/
def sharing (xs : List α) (x : α) : List α :=
  xs.filter fun y => key y = key x

theorem firsts_concat (xs : List α) (x : α) :
    firsts key (xs ++ [x]) =
      if key x ∈ (firsts key xs).map key then firsts key xs else firsts key xs ++ [x] := by
  rw [firsts, List.foldl_append]
  rfl

theorem firsts_sublist (xs : List α) : (firsts key xs).Sublist xs := by
  induction xs using List.reverseRecOn with
  | nil => exact List.Sublist.refl _
  | append_singleton xs x ih =>
      rw [firsts_concat]
      split
      · exact ih.trans (List.sublist_append_left xs [x])
      · exact ih.append (List.Sublist.refl [x])

variable {x : α}
variable {xs : List α}

theorem mem_of_mem_firsts (hx : x ∈ firsts key xs) : x ∈ xs :=
  (firsts_sublist key xs).subset hx

theorem mem_keys_firsts (xs : List α) (k : κ) :
    k ∈ (firsts key xs).map key ↔ k ∈ xs.map key := by
  induction xs using List.reverseRecOn with
  | nil => exact Iff.rfl
  | append_singleton xs x ih =>
      rw [firsts_concat, List.map_append, List.mem_append, ← ih, List.map_singleton,
        List.mem_singleton]
      split
      · rename_i hmem
        constructor
        · exact Or.inl
        · rintro (hk | rfl)
          · exact hk
          · exact hmem
      · rw [List.map_append, List.mem_append, List.map_singleton, List.mem_singleton]

theorem nodup_keys_firsts (xs : List α) : ((firsts key xs).map key).Nodup := by
  induction xs using List.reverseRecOn with
  | nil => exact List.nodup_nil
  | append_singleton xs x ih =>
      rw [firsts_concat]
      split
      · exact ih
      · rename_i hnew
        rw [List.map_append, List.nodup_append]
        refine ⟨ih, List.nodup_singleton _, ?_⟩
        rintro k hk k' hk' rfl
        rw [List.map_singleton, List.mem_singleton] at hk'
        exact hnew (hk' ▸ hk)

theorem firsts_prefix_append (xs ys : List α) : firsts key xs <+: firsts key (xs ++ ys) := by
  induction ys using List.reverseRecOn with
  | nil => exact ⟨[], by rw [List.append_nil, List.append_nil]⟩
  | append_singleton ys y ih =>
      rw [← List.append_assoc, firsts_concat]
      split
      · exact ih
      · exact ih.trans (List.prefix_append _ _)

theorem exists_mem_firsts (hx : x ∈ xs) : ∃ f ∈ firsts key xs, key f = key x := by
  have hkey := (mem_keys_firsts key xs (key x)).mpr (List.mem_map_of_mem hx)
  exact List.mem_map.mp hkey

theorem firsts_congr {κ' : Type*} [DecidableEq κ'] {key' : α → κ'}
    (heq : ∀ x ∈ xs, ∀ y ∈ xs, key x = key y ↔ key' x = key' y) :
    firsts key xs = firsts key' xs := by
  induction xs using List.reverseRecOn with
  | nil => rfl
  | append_singleton xs x ih =>
      have hinit : ∀ y ∈ xs, y ∈ xs ++ [x] := fun y hy => List.mem_append_left [x] hy
      have hx : x ∈ xs ++ [x] := List.mem_append_right xs (List.mem_singleton_self x)
      rw [firsts_concat, firsts_concat, ← ih fun y hy z hz => heq y (hinit y hy) z (hinit z hz)]
      have hmem : key x ∈ (firsts key xs).map key ↔ key' x ∈ (firsts key xs).map key' := by
        rw [List.mem_map, List.mem_map]
        constructor
        · rintro ⟨f, hf, hkey⟩
          exact ⟨f, hf, (heq f (hinit f (mem_of_mem_firsts key hf)) x hx).mp hkey⟩
        · rintro ⟨f, hf, hkey⟩
          exact ⟨f, hf, (heq f (hinit f (mem_of_mem_firsts key hf)) x hx).mpr hkey⟩
      by_cases hold : key x ∈ (firsts key xs).map key
      · rw [if_pos hold, if_pos (hmem.mp hold)]
      · rw [if_neg hold, if_neg fun h => hold (hmem.mpr h)]

section Loop

variable (init : α → σ)
variable (add : σ → α → σ)

theorem addTo_new {entries : List (κ × σ)} (hnew : key x ∉ entries.map Prod.fst) :
    addTo key init add entries x = entries ++ [(key x, add (init x) x)] := by
  induction entries with
  | nil => rfl
  | cons entry entries ih =>
      rw [List.map_cons, List.mem_cons, not_or] at hnew
      rw [addTo, if_neg (Ne.symm hnew.1), ih hnew.2, List.cons_append]

theorem addTo_old {fs : List α} {state : α → σ} (hnodup : (fs.map key).Nodup)
    (hold : key x ∈ fs.map key) :
    addTo key init add (fs.map fun f => (key f, state f)) x =
      fs.map fun f => (key f, if key f = key x then add (state f) x else state f) := by
  induction fs with
  | nil => exact absurd hold List.not_mem_nil
  | cons f fs ih =>
      rw [List.map_cons, List.nodup_cons] at hnodup
      rw [List.map_cons, List.map_cons, addTo]
      by_cases hf : key f = key x
      · rw [if_pos hf, if_pos hf]
        congr 1
        apply List.map_congr_left
        intro g hg
        have hne : key g ≠ key x := by
          intro hgx
          exact hnodup.1 (hf.trans hgx.symm ▸ List.mem_map_of_mem hg)
        rw [if_neg hne]
      · rw [List.map_cons, List.mem_cons] at hold
        rw [if_neg hf, if_neg hf, ih hnodup.2 (hold.resolve_left (Ne.symm hf))]

theorem sharing_concat (xs : List α) (x f : α) :
    sharing key (xs ++ [x]) f = sharing key xs f ++ if key x = key f then [x] else [] := by
  rw [sharing, List.filter_append, List.filter_singleton, sharing]
  by_cases hx : key x = key f
  · simp [hx]
  · simp [hx]

theorem groupLoop_eq (xs : List α) :
    groupLoop key init add xs =
      (firsts key xs).map fun f => (key f, (sharing key xs f).foldl add (init f)) := by
  induction xs using List.reverseRecOn with
  | nil => rfl
  | append_singleton xs x ih =>
      have hstep : groupLoop key init add (xs ++ [x]) =
          addTo key init add (groupLoop key init add xs) x := by
        rw [groupLoop, List.foldl_append]
        rfl
      rw [hstep, ih, firsts_concat]
      by_cases hold : key x ∈ (firsts key xs).map key
      · rw [if_pos hold, addTo_old key init add (nodup_keys_firsts key xs) hold]
        apply List.map_congr_left
        intro f _
        rw [sharing_concat]
        by_cases hf : key f = key x
        · rw [if_pos hf, if_pos hf.symm, List.foldl_append]
          rfl
        · rw [if_neg hf, if_neg (Ne.symm hf), List.append_nil]
      · have hentries : key x ∉
            ((firsts key xs).map fun f => (key f, (sharing key xs f).foldl add (init f))).map
              Prod.fst := by
          rw [List.map_map]
          exact hold
        have hnone : sharing key xs x = [] := by
          apply List.filter_eq_nil_iff.mpr
          intro y hy heq
          exact hold ((mem_keys_firsts key xs (key x)).mpr
            (of_decide_eq_true heq ▸ List.mem_map_of_mem hy))
        rw [if_neg hold, addTo_new key init add hentries, List.map_append, List.map_singleton,
          sharing_concat, if_pos rfl, hnone]
        congr 1
        apply List.map_congr_left
        intro f hf
        have hne : key x ≠ key f := fun heq => hold (heq ▸ List.mem_map_of_mem hf)
        rw [sharing_concat, if_neg hne, List.append_nil]

end Loop

section Values

variable {τ : Type*}
variable {val : α → τ}

theorem eq_of_key_eq {values : List τ} (hval : ∀ x ∈ xs, ∀ y ∈ xs, val x = val y → key x = key y)
    (hvalues : ∀ t, t ∈ values ↔ ∃ x ∈ xs, val x = t)
    (hlen : values.length = (firsts key xs).length) {y : α} (hx : x ∈ xs) (hy : y ∈ xs)
    (hkey : key x = key y) : val x = val y := by
  -- one element for each value
  have hreps : ∃ reps : List α, reps.map val = values ∧ ∀ r ∈ reps, r ∈ xs := by
    have hsub : ∀ t ∈ values, ∃ x ∈ xs, val x = t := fun t ht => (hvalues t).mp ht
    clear hlen hvalues
    induction values with
    | nil => exact ⟨[], rfl, fun r hr => absurd hr List.not_mem_nil⟩
    | cons t values ih =>
        obtain ⟨reps, hmap, hmem⟩ := ih fun t' ht' => hsub t' (List.mem_cons_of_mem t ht')
        obtain ⟨r, hr, hrt⟩ := hsub t List.mem_cons_self
        refine ⟨r :: reps, by rw [List.map_cons, hmap, hrt], ?_⟩
        intro r' hr'
        rcases List.mem_cons.mp hr' with rfl | hr'
        · exact hr
        · exact hmem r' hr'
  obtain ⟨reps, hmap, hmem⟩ := hreps
  have hrep : ∀ z ∈ xs, ∃ r ∈ reps, val r = val z := by
    intro z hz
    have : val z ∈ reps.map val := hmap ▸ (hvalues (val z)).mpr ⟨z, hz, rfl⟩
    exact List.mem_map.mp this
  -- their keys are all the keys, so that none is there twice
  have hsubset : (firsts key xs).map key ⊆ reps.map key := by
    intro k hk
    obtain ⟨z, hz, rfl⟩ := List.mem_map.mp ((mem_keys_firsts key xs k).mp hk)
    obtain ⟨r, hr, hrz⟩ := hrep z hz
    exact hval r (hmem r hr) z hz hrz ▸ List.mem_map_of_mem hr
  have hperm := (List.subperm_of_subset (nodup_keys_firsts key xs) hsubset).perm_of_length_le
    (Nat.le_of_eq (by rw [List.length_map, List.length_map, ← hlen, ← hmap, List.length_map]))
  have hinj := List.inj_on_of_nodup_map (hperm.nodup_iff.mp (nodup_keys_firsts key xs))
  obtain ⟨r, hr, hrx⟩ := hrep x hx
  obtain ⟨s, hs, hsy⟩ := hrep y hy
  have hrs : key r = key s :=
    ((hval r (hmem r hr) x hx hrx).trans hkey).trans (hval s (hmem s hs) y hy hsy).symm
  rw [← hrx, ← hsy, hinj hr hs hrs]

end Values

end Group

end Lib
end CodebaseMemory
