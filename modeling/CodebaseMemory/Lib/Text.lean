import Mathlib.Data.List.DropRight

/-!
# Cutting and joining lists at a separator

`splitFirst c s` cuts a list at the first `c`, as `strchr` does, and `splitLast c s` at the
last one, as `strrchr` does.  Joining a list of texts forgets which separators stood inside
the texts and nothing else.
-/

namespace CodebaseMemory
namespace Lib

universe u

variable {α : Type u} [DecidableEq α]

section SplitFirst

/-- What stands before and after the first `c`. -/
def splitFirst (c : α) (s : List α) : Option (List α × List α) :=
  if c ∈ s then some (s.takeWhile (· ≠ c), (s.dropWhile (· ≠ c)).tail) else none

variable {c : α}

theorem splitFirst_eq_none {s : List α} (hs : c ∉ s) : splitFirst c s = none :=
  if_neg hs

theorem splitFirst_append {a : List α} (ha : c ∉ a) (b : List α) :
    splitFirst c (a ++ c :: b) = some (a, b) := by
  have hall : ∀ x ∈ a, decide (x ≠ c) = true := fun x hx =>
    decide_eq_true fun heq => ha (heq ▸ hx)
  rw [splitFirst, if_pos (List.mem_append_right a List.mem_cons_self),
    List.takeWhile_append_of_pos hall, List.dropWhile_append_of_pos hall,
    List.takeWhile_cons_of_neg (by simp), List.dropWhile_cons_of_neg (by simp), List.append_nil,
    List.tail_cons]

end SplitFirst

section SplitLast

/-- What stands before and after the last `c`. -/
@[simp] def splitLast (c : α) : List α → Option (List α × List α)
  | [] => none
  | x :: xs =>
      match splitLast c xs with
      | some (a, b) => some (x :: a, b)
      | none => if x = c then some ([], xs) else none

variable {c : α}
variable {a b s : List α}

theorem splitLast_eq_none : splitLast c s = none ↔ c ∉ s := by
  induction s with
  | nil => simp [splitLast]
  | cons x xs ih =>
      rw [splitLast, List.mem_cons, not_or, ← ih]
      cases hxs : splitLast c xs with
      | some ab => simp
      | none =>
          by_cases hx : x = c
          · simp [hx]
          · simp [hx, Ne.symm hx]

theorem splitLast_append (hb : c ∉ b) : splitLast c (a ++ c :: b) = some (a, b) := by
  induction a with
  | nil => rw [List.nil_append, splitLast, splitLast_eq_none.mpr hb, if_pos rfl]
  | cons x a ih => rw [List.cons_append, splitLast, ih]

theorem splitLast_eq_some : splitLast c s = some (a, b) ↔ s = a ++ c :: b ∧ c ∉ b := by
  constructor
  · induction s generalizing a with
    | nil => exact fun h => absurd h (by simp [splitLast])
    | cons x xs ih =>
        rw [splitLast]
        cases hxs : splitLast c xs with
        | some ab =>
            intro h
            simp only [Option.some.injEq, Prod.mk.injEq] at h
            obtain ⟨rfl, rfl⟩ := h
            obtain ⟨hcut, hb⟩ := ih hxs
            exact ⟨by rw [hcut, List.cons_append], hb⟩
        | none =>
            intro h
            dsimp only at h
            split at h
            · next hx =>
                simp only [Option.some.injEq, Prod.mk.injEq] at h
                obtain ⟨rfl, rfl⟩ := h
                exact ⟨by rw [hx, List.nil_append], splitLast_eq_none.mp hxs⟩
            · exact absurd h (by simp)
  · rintro ⟨rfl, hb⟩
    exact splitLast_append hb

theorem length_splitLast (h : splitLast c s = some (a, b)) : a.length < s.length := by
  rw [(splitLast_eq_some.mp h).1]
  simp

end SplitLast

section Join

/-- The texts with `c` between them. -/
def join (c : α) (parts : List (List α)) : List α :=
  [c].intercalate parts

/-- The parts of the texts between the separators that stand in them. -/
def words (c : α) (parts : List (List α)) : List (List α) :=
  parts.flatMap (List.splitOn c)

variable {c : α}

theorem join_splitOn (s : List α) : join c (s.splitOn c) = s :=
  List.intercalate_splitOn c

variable {parts : List (List α)}

omit [DecidableEq α] in
theorem subset_join {part : List α} (h : part ∈ parts) : part ⊆ join c parts := by
  induction parts with
  | nil => exact absurd h List.not_mem_nil
  | cons p parts ih =>
      cases parts with
      | nil =>
          rw [join, List.intercalate_singleton, List.mem_singleton.mp h]
          exact List.Subset.refl p
      | cons p' parts =>
          rw [join, List.intercalate_cons_cons, ← join]
          rcases List.mem_cons.mp h with rfl | h
          · exact List.Subset.trans (List.subset_append_left _ _) (List.subset_append_left _ _)
          · exact List.Subset.trans (ih h) (List.subset_append_right _ _)

omit [DecidableEq α] in
theorem mem_join {x : α} (h : x ∈ join c parts) : x = c ∨ ∃ part ∈ parts, x ∈ part := by
  induction parts with
  | nil => exact absurd h (by simp [join])
  | cons p parts ih =>
      cases parts with
      | nil =>
          rw [join, List.intercalate_singleton] at h
          exact Or.inr ⟨p, List.mem_cons_self, h⟩
      | cons p' parts =>
          rw [join, List.intercalate_cons_cons, ← join] at h
          rcases List.mem_append.mp h with hfirst | hrest
          · rcases List.mem_append.mp hfirst with hp | hc
            · exact Or.inr ⟨p, List.mem_cons_self, hp⟩
            · exact Or.inl (List.mem_singleton.mp hc)
          · exact (ih hrest).imp_right fun ⟨part, hpart, hx⟩ =>
              ⟨part, List.mem_cons_of_mem p hpart, hx⟩

omit [DecidableEq α] in
theorem join_append_singleton (parts : List (List α)) (part : List α) :
    join c (parts ++ [part]) = if parts = [] then part else join c parts ++ c :: part := by
  induction parts with
  | nil => rw [List.nil_append, join, List.intercalate_singleton, if_pos rfl]
  | cons p parts ih =>
      rw [if_neg (List.cons_ne_nil p parts)]
      cases parts with
      | nil =>
          rw [List.cons_append, List.nil_append, join, List.intercalate_cons_cons, join,
            List.intercalate_singleton, List.intercalate_singleton, List.append_assoc,
            List.singleton_append]
      | cons p' parts =>
          rw [if_neg (List.cons_ne_nil p' parts)] at ih
          rw [join] at ih ⊢
          rw [List.cons_append, List.cons_append, List.intercalate_cons_cons, ← List.cons_append,
            ih, join, join, List.intercalate_cons_cons]
          simp only [List.append_assoc]

omit [DecidableEq α] in
theorem exists_join_append_cons (c : α) (front back : List (List α)) :
    ∃ a b, (∀ part, join c (front ++ part :: back) = a ++ (part ++ b)) ∧
      (∀ p ∈ front, p ⊆ a) ∧ ∀ p ∈ back, p ⊆ b := by
  have hback : ∃ b, (∀ part, join c (part :: back) = part ++ b) ∧ ∀ p ∈ back, p ⊆ b := by
    cases back with
    | nil => exact ⟨[], fun part => by rw [join, List.intercalate_singleton, List.append_nil],
        fun p hp => absurd hp List.not_mem_nil⟩
    | cons q back =>
        refine ⟨c :: join c (q :: back), fun part => ?_, fun p hp => ?_⟩
        · rw [join, List.intercalate_cons_cons, List.append_assoc, List.singleton_append, join]
        · exact List.Subset.trans (subset_join hp) (List.subset_cons_self _ _)
  obtain ⟨b, hb, hsub⟩ := hback
  induction front with
  | nil => exact ⟨[], b, hb, fun p hp => absurd hp List.not_mem_nil, hsub⟩
  | cons q front ih =>
      obtain ⟨a, b', hab, ha, hb'⟩ := ih
      refine ⟨q ++ c :: a, b', fun part => ?_, fun p hp => ?_, hb'⟩
      · have hne : front ++ part :: back ≠ [] := by simp
        obtain ⟨r, rest, hrest⟩ := List.exists_cons_of_ne_nil hne
        rw [List.cons_append, hrest, join, List.intercalate_cons_cons, ← join, ← hrest, hab part]
        simp only [List.append_assoc, List.cons_append, List.nil_append]
      · rcases List.mem_cons.mp hp with rfl | hp
        · exact List.subset_append_left _ _
        · exact List.Subset.trans (ha p hp) (List.Subset.trans (List.subset_cons_self _ _)
            (List.subset_append_right _ _))

theorem splitOn_inj {s s' : List α} : s.splitOn c = s'.splitOn c ↔ s = s' := by
  refine ⟨fun h => ?_, fun h => by rw [h]⟩
  rw [← join_splitOn s, h, join_splitOn]

theorem splitOn_join (hne : parts ≠ []) : (join c parts).splitOn c = words c parts := by
  induction parts with
  | nil => exact absurd rfl hne
  | cons part parts ih =>
      rw [words, List.flatMap_cons]
      cases parts with
      | nil => rw [join, List.intercalate_singleton, List.flatMap_nil, List.append_nil]
      | cons next parts =>
          rw [join, List.intercalate_cons_cons, List.append_assoc, List.singleton_append,
            List.splitOn_append_cons_self]
          exact congrArg _ (ih (List.cons_ne_nil next parts))

end Join

/-!
## Trimming

`trim p` drops elements with a property from both ends of a list.
-/

section Trim

variable {α : Type u}
variable {p : α → Bool}
variable {l l' s : List α}

/-- Drop elements from the end, then from the beginning. -/
def trim (p : α → Bool) (l : List α) : List α :=
  (l.rdropWhile p).dropWhile p

theorem trim_of_all (h : ∀ x ∈ l, p x = true) : trim p l = [] := by
  rw [trim, List.rdropWhile_eq_nil_iff.mpr h, List.dropWhile_nil]

theorem trim_append_right (h : ∀ x ∈ s, p x = true) : trim p (l ++ s) = trim p l := by
  rw [trim, List.rdropWhile, List.reverse_append, List.dropWhile_append_of_pos, ← List.rdropWhile,
    trim]
  exact fun x hx => h x (List.mem_reverse.mp hx)

theorem rdropWhile_append (hl : ∃ x ∈ l, ¬ p x = true) (s : List α) :
    (s ++ l).rdropWhile p = s ++ l.rdropWhile p := by
  obtain ⟨x, hx, hp⟩ := hl
  have hne : l.reverse.dropWhile p ≠ [] := fun hnil =>
    hp (List.dropWhile_eq_nil_iff.mp hnil x (List.mem_reverse.mpr hx))
  rw [List.rdropWhile, List.reverse_append, List.dropWhile_append, if_neg, List.reverse_append,
    List.reverse_reverse, ← List.rdropWhile]
  rw [List.isEmpty_iff]
  exact hne

theorem trim_append_left (h : ∀ x ∈ s, p x = true) : trim p (s ++ l) = trim p l := by
  by_cases hl : ∃ x ∈ l, ¬ p x = true
  · rw [trim, rdropWhile_append hl, List.dropWhile_append_of_pos h, ← trim]
  · have hall : ∀ x ∈ l, p x = true := fun x hx => by
      by_contra hp
      exact hl ⟨x, hx, hp⟩
    rw [trim_of_all hall, trim_of_all fun x hx => (List.mem_append.mp hx).elim (h x) (hall x)]

theorem exists_trim (p : α → Bool) (l : List α) : ∃ front back, l = front ++ trim p l ++ back ∧
    (∀ x ∈ front, p x = true) ∧ ∀ x ∈ back, p x = true := by
  refine ⟨(l.rdropWhile p).takeWhile p, l.rtakeWhile p, ?_, fun _ hx => List.mem_takeWhile_imp hx,
    fun _ hx => List.mem_rtakeWhile_imp hx⟩
  rw [trim, List.takeWhile_append_dropWhile, List.rdropWhile_append_rtakeWhile]

theorem trim_sublist (p : α → Bool) (l : List α) : (trim p l).Sublist l :=
  (List.dropWhile_suffix p).sublist.trans (List.rdropWhile_prefix p l).sublist

theorem trim_trim (p : α → Bool) (l : List α) : trim p (trim p l) = trim p l := by
  obtain ⟨front, back, hl, hfront, hback⟩ := exists_trim p l
  calc trim p (trim p l) = trim p (front ++ trim p l ++ back) := by
        rw [trim_append_right hback, trim_append_left hfront]
    _ = trim p l := by rw [← hl]

theorem trim_sublist_trim (h : l.Sublist l') : (trim p l).Sublist (trim p l') := by
  obtain ⟨front, back, hl', hfront, hback⟩ := exists_trim p l'
  rw [hl', List.append_assoc] at h
  obtain ⟨l₁, rest, rfl, h₁, hrest⟩ := List.sublist_append_iff.mp h
  obtain ⟨l₂, l₃, rfl, h₂, h₃⟩ := List.sublist_append_iff.mp hrest
  rw [trim_append_left fun x hx => hfront x (h₁.mem hx),
    trim_append_right fun x hx => hback x (h₃.mem hx)]
  exact (trim_sublist p l₂).trans h₂

theorem trim_dropWhile (p : α → Bool) (l : List α) : trim p (l.dropWhile p) = trim p l := by
  conv_rhs => rw [← List.takeWhile_append_dropWhile (p := p) (l := l)]
  rw [trim_append_left fun x hx => List.mem_takeWhile_imp hx]

theorem countP_trim (p : α → Bool) (l : List α) :
    (trim p l).countP (fun x => !p x) = l.countP (fun x => !p x) := by
  obtain ⟨front, back, hl, hfront, hback⟩ := exists_trim p l
  have hzero : ∀ s : List α, (∀ x ∈ s, p x = true) → s.countP (fun x => !p x) = 0 :=
    fun s hs => List.countP_eq_zero.mpr fun x hx => by rw [hs x hx]; simp
  calc (trim p l).countP (fun x => !p x)
      = (front ++ trim p l ++ back).countP (fun x => !p x) := by
        rw [List.countP_append, List.countP_append, hzero front hfront, hzero back hback]
        omega
    _ = l.countP (fun x => !p x) := by rw [← hl]

theorem trim_append_append (hs : ∃ x ∈ s, ¬ p x = true) (hl : ∃ x ∈ l, ¬ p x = true)
    (l' : List α) : trim p (s ++ (l' ++ l)) = s.dropWhile p ++ (l' ++ l.rdropWhile p) := by
  rw [trim, ← List.append_assoc, rdropWhile_append hl, List.append_assoc, List.dropWhile_append,
    if_neg]
  obtain ⟨x, hx, hp⟩ := hs
  rw [List.isEmpty_iff, List.dropWhile_eq_nil_iff]
  exact fun hall => hp (hall x hx)

theorem length_trim_lt (hl' : l' ≠ []) (hs : ∃ x ∈ s ++ l', ¬ p x = true)
    (hl : ∃ x ∈ l' ++ l, ¬ p x = true) :
    (trim p (s ++ l)).length < (trim p (s ++ (l' ++ l))).length := by
  by_cases hmid : ∃ x ∈ l', ¬ p x = true
  · -- an element that stays is missing on the left side
    have hsub : (s ++ l).Sublist (s ++ (l' ++ l)) :=
      (List.Sublist.refl s).append (List.sublist_append_right l' l)
    have htrim := trim_sublist_trim (p := p) hsub
    refine lt_of_le_of_ne htrim.length_le fun heq => ?_
    have hcount := congrArg (List.countP fun x => !p x) (htrim.eq_of_length heq)
    rw [countP_trim, countP_trim, List.countP_append, List.countP_append,
      List.countP_append] at hcount
    obtain ⟨x, hx, hp⟩ := hmid
    have hpos : 0 < l'.countP fun x => !p x :=
      List.countP_pos_iff.mpr ⟨x, hx, by simpa using hp⟩
    omega
  · have hall : ∀ x ∈ l', p x = true := fun x hx => by
      by_contra hp
      exact hmid ⟨x, hx, hp⟩
    have hs' : ∃ x ∈ s, ¬ p x = true := by
      obtain ⟨x, hx, hp⟩ := hs
      exact ⟨x, (List.mem_append.mp hx).resolve_right fun h => hp (hall x h), hp⟩
    have hl'' : ∃ x ∈ l, ¬ p x = true := by
      obtain ⟨x, hx, hp⟩ := hl
      exact ⟨x, (List.mem_append.mp hx).resolve_left fun h => hp (hall x h), hp⟩
    have hnil := trim_append_append hs' hl'' []
    rw [List.nil_append, List.nil_append] at hnil
    rw [hnil, trim_append_append hs' hl'']
    have hpos := List.length_pos_iff.mpr hl'
    simp only [List.length_append]
    omega

end Trim

end Lib
end CodebaseMemory
