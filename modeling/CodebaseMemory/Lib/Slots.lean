import Mathlib.Data.List.Basic

/-!
# Arrays of named slots

An array of at most `cap` pairs of a name and a value, searched from the front.
Assigning to a name replaces its value, or takes the next slot; when all slots
are taken, a new name is dropped.
-/

namespace CodebaseMemory
namespace Lib

/-!
## Tables in which the last write wins

A table maps keys to values; a write replaces what stands under its key.
-/

universe u v

section LastWrite

variable {κ : Type u}
variable {β : Type v}
variable [DecidableEq κ]

/-- The table after the writes. -/
def writeAll (f : κ → Option β) (ws : List (κ × β)) : κ → Option β :=
  ws.foldl (fun f w => Function.update f w.1 (some w.2)) f

variable {f : κ → Option β} {ws ws' : List (κ × β)} {k : κ} {v : β}

@[simp] theorem writeAll_nil (f : κ → Option β) : writeAll f [] = f := rfl

theorem writeAll_cons (f : κ → Option β) (w : κ × β) (ws : List (κ × β)) :
    writeAll f (w :: ws) = writeAll (Function.update f w.1 (some w.2)) ws := rfl

theorem writeAll_append (f : κ → Option β) (ws ws' : List (κ × β)) :
    writeAll f (ws ++ ws') = writeAll (writeAll f ws) ws' :=
  List.foldl_append

theorem writeAll_of_not_mem (h : ∀ v, (k, v) ∉ ws) : writeAll f ws k = f k := by
  induction ws generalizing f with
  | nil => rfl
  | cons w ws ih =>
      have hne : k ≠ w.1 := by
        rintro rfl
        exact h w.2 List.mem_cons_self
      rw [writeAll_cons, ih fun v hv => h v (List.mem_cons_of_mem _ hv),
        Function.update_of_ne hne]

theorem writeAll_of_mem (h : (k, v) ∈ ws) : ∃ v', (k, v') ∈ ws ∧ writeAll f ws k = some v' := by
  induction ws generalizing f v with
  | nil => exact absurd h List.not_mem_nil
  | cons w ws ih =>
      rw [writeAll_cons]
      by_cases hlater : ∃ v', (k, v') ∈ ws
      · obtain ⟨v', hv'⟩ := hlater
        obtain ⟨v'', hmem, heq⟩ := ih (f := Function.update f w.1 (some w.2)) hv'
        exact ⟨v'', List.mem_cons_of_mem _ hmem, heq⟩
      · have hw : w = (k, v) :=
          ((List.mem_cons.mp h).resolve_right fun hv => hlater ⟨v, hv⟩).symm
        refine ⟨v, h, ?_⟩
        rw [writeAll_of_not_mem fun v' hv' => hlater ⟨v', hv'⟩, hw, Function.update_self]

theorem writeAll_eq_some (h : writeAll f ws k = some v) : (k, v) ∈ ws ∨ f k = some v := by
  by_cases hw : ∃ v', (k, v') ∈ ws
  · obtain ⟨v', hv'⟩ := hw
    obtain ⟨v'', hmem, heq⟩ := writeAll_of_mem (f := f) hv'
    rw [heq, Option.some.injEq] at h
    exact Or.inl (h ▸ hmem)
  · rw [writeAll_of_not_mem fun v' hv' => hw ⟨v', hv'⟩] at h
    exact Or.inr h

theorem writeAll_of_agree (h : (k, v) ∈ ws) (hagree : ∀ v', (k, v') ∈ ws → v' = v) :
    writeAll f ws k = some v := by
  obtain ⟨v', hmem, heq⟩ := writeAll_of_mem (f := f) h
  rw [heq, hagree v' hmem]

theorem writeAll_congr (hmem : ∀ v, (k, v) ∈ ws ↔ (k, v) ∈ ws')
    (hagree : ∀ v v', (k, v) ∈ ws → (k, v') ∈ ws → v = v') :
    writeAll f ws k = writeAll f ws' k := by
  by_cases hw : ∃ v, (k, v) ∈ ws
  · obtain ⟨v, hv⟩ := hw
    have hall : ∀ v', (k, v') ∈ ws → v' = v := fun v' hv' => hagree v' v hv' hv
    rw [writeAll_of_agree hv hall,
      writeAll_of_agree ((hmem v).mp hv) fun v' hv' => hall v' ((hmem v').mpr hv')]
  · have hno : ∀ v, (k, v) ∉ ws := fun v hv => hw ⟨v, hv⟩
    rw [writeAll_of_not_mem hno, writeAll_of_not_mem fun v hv => hno v ((hmem v).mpr hv)]

end LastWrite

section Slots

variable {K : Type} [DecidableEq K]
variable {V : Type}

/-- The value of a name. -/
def slot (slots : List (K × V)) (k : K) : Option V :=
  (slots.find? fun s => s.1 = k).map Prod.snd

/-- Replace the value of the first slot with the name. -/
@[simp] def replaceSlot (k : K) (v : V) : List (K × V) → List (K × V)
  | [] => []
  | s :: slots => if s.1 = k then (s.1, v) :: slots else s :: replaceSlot k v slots

/-- Assign a value to a name. -/
def setSlot (cap : Nat) (slots : List (K × V)) (k : K) (v : V) : List (K × V) :=
  if (slot slots k).isSome then replaceSlot k v slots
  else if slots.length < cap then slots ++ [(k, v)]
  else slots

@[simp] theorem slot_nil (k : K) : slot ([] : List (K × V)) k = none := rfl

theorem slot_cons (s : K × V) (slots : List (K × V)) (k : K) :
    slot (s :: slots) k = if s.1 = k then some s.2 else slot slots k := by
  unfold slot
  by_cases hk : s.1 = k
  · rw [if_pos hk, List.find?_cons_of_pos (by simpa using hk)]
    rfl
  · rw [if_neg hk, List.find?_cons_of_neg (by simpa using hk)]

theorem slot_append (slots : List (K × V)) (s : K × V) (k : K) :
    slot (slots ++ [s]) k = (slot slots k).or (if s.1 = k then some s.2 else none) := by
  induction slots with
  | nil => simp [slot_cons]
  | cons t slots ih =>
      rw [List.cons_append, slot_cons, slot_cons, ih]
      split
      · rfl
      · rfl

theorem slot_replaceSlot (slots : List (K × V)) (k : K) (v : V) (l : K) :
    slot (replaceSlot k v slots) l =
      if l = k then (slot slots k).map (fun _ => v) else slot slots l := by
  induction slots with
  | nil =>
      rw [replaceSlot]
      split
      · rfl
      · rfl
  | cons s slots ih =>
      rw [replaceSlot]
      by_cases hs : s.1 = k
      · rw [if_pos hs, slot_cons, slot_cons, slot_cons]
        by_cases hl : l = k
        · rw [if_pos hl, if_pos hs, hl, if_pos hs]
          rfl
        · rw [if_neg hl, if_neg (fun h => hl (h.symm.trans hs))]
          rw [if_neg (fun h => hl (h.symm.trans hs))]
      · rw [if_neg hs, slot_cons, ih, slot_cons, slot_cons]
        by_cases hl : l = k
        · rw [if_pos hl, if_pos hl, hl, if_neg hs, if_neg hs]
        · rw [if_neg hl, if_neg hl]

variable {slots : List (K × V)}
variable {k : K}
variable {cap : Nat}
variable {v : V}

theorem slot_setSlot_of_ne {l : K} (hl : l ≠ k) :
    slot (setSlot cap slots k v) l = slot slots l := by
  unfold setSlot
  split
  · rw [slot_replaceSlot, if_neg hl]
  · split
    · rw [slot_append, if_neg (Ne.symm hl), Option.or_none]
    · rfl

/-- There is a slot for the name. -/
def HasSlot (cap : Nat) (slots : List (K × V)) (k : K) : Prop :=
  (slot slots k).isSome = true ∨ slots.length < cap

theorem slot_setSlot_self (v : V) (hroom : HasSlot cap slots k) :
    slot (setSlot cap slots k v) k = some v := by
  unfold setSlot
  cases hslot : slot slots k with
  | some w =>
      rw [Option.isSome_some, if_pos rfl, slot_replaceSlot, if_pos rfl, hslot]
      rfl
  | none =>
      rcases hroom with hbound | hroom
      · rw [hslot] at hbound
        exact absurd hbound (by simp)
      · rw [Option.isSome_none, if_neg (by simp), if_pos hroom, slot_append, hslot, if_pos rfl]
        rfl

theorem replaceSlot_self (hslot : slot slots k = some v) : replaceSlot k v slots = slots := by
  induction slots with
  | nil => rfl
  | cons s slots ih =>
      rw [slot_cons] at hslot
      rw [replaceSlot]
      split
      · rename_i hs
        rw [if_pos hs] at hslot
        rw [← Option.some.inj hslot]
      · rename_i hs
        rw [if_neg hs] at hslot
        rw [ih hslot]

theorem setSlot_self (hslot : slot slots k = some v) : setSlot cap slots k v = slots := by
  rw [setSlot, hslot, Option.isSome_some, if_pos rfl, replaceSlot_self hslot]

theorem isSome_slot : (slot slots k).isSome = true ↔ k ∈ slots.map Prod.fst := by
  induction slots with
  | nil => simp
  | cons s slots ih =>
      rw [slot_cons, List.map_cons, List.mem_cons, ← ih]
      by_cases hs : s.1 = k
      · simp [hs]
      · simp [hs, Ne.symm hs]

theorem map_fst_replaceSlot (k : K) (v : V) (slots : List (K × V)) :
    (replaceSlot k v slots).map Prod.fst = slots.map Prod.fst := by
  induction slots with
  | nil => rfl
  | cons s slots ih =>
      rw [replaceSlot]
      split
      · rfl
      · rw [List.map_cons, List.map_cons, ih]

theorem mem_of_slot (hslot : slot slots k = some v) : (k, v) ∈ slots := by
  obtain ⟨s, hfind, rfl⟩ := Option.map_eq_some_iff.mp hslot
  have hname : s.1 = k := by simpa using List.find?_some hfind
  rw [← hname]
  exact List.mem_of_find?_eq_some hfind

theorem slot_of_mem (hnodup : (slots.map Prod.fst).Nodup) (hmem : (k, v) ∈ slots) :
    slot slots k = some v := by
  induction slots with
  | nil => exact absurd hmem List.not_mem_nil
  | cons s slots ih =>
      rw [List.map_cons, List.nodup_cons] at hnodup
      rw [slot_cons]
      rcases List.mem_cons.mp hmem with rfl | hmem
      · rw [if_pos rfl]
      · have hne : s.1 ≠ k := by
          intro heq
          exact hnodup.1 (heq ▸ List.mem_map_of_mem hmem)
        rw [if_neg hne, ih hnodup.2 hmem]

/-- The names after an assignment. -/
def addName (cap : Nat) (names : List K) (k : K) : List K :=
  if k ∈ names then names
  else if names.length < cap then names ++ [k]
  else names

theorem map_fst_setSlot (cap : Nat) (slots : List (K × V)) (k : K) (v : V) :
    (setSlot cap slots k v).map Prod.fst = addName cap (slots.map Prod.fst) k := by
  unfold setSlot addName
  by_cases hk : k ∈ slots.map Prod.fst
  · rw [if_pos hk, if_pos (isSome_slot.mpr hk), map_fst_replaceSlot]
  · rw [if_neg hk, if_neg (fun h => hk (isSome_slot.mp h)), List.length_map]
    split
    · rw [List.map_append]
      rfl
    · rfl

end Slots

end Lib
end CodebaseMemory
