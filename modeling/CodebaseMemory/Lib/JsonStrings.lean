import CodebaseMemory.Lib.JsonText

/-!
# Arrays of strings

How the reader of a JSON text reads strings, as a relation between what stands between the quotes
and the bytes it stands for (`Spells`).  A spelling is at least as long as what it spells, and every
quote in it comes after a backslash, so that a text which begins like a printed array of strings
gives these strings only if it is the whole text.
-/

namespace CodebaseMemory
namespace Lib
namespace Json

/-- What stands between the quotes, and the bytes it stands for. -/
inductive Spells : List UInt8 → List UInt8 → Prop where
  | nil : Spells [] []
  | byte {c : UInt8} {s v : List UInt8} (hquote : c ≠ 34) (hslash : c ≠ 92) (hcontrol : ¬ c < 32)
      (h : Spells s v) : Spells (c :: s) (c :: v)
  | escaped {c b : UInt8} {s v : List UInt8} (hc : escapedByte c = some b) (h : Spells s v) :
      Spells (92 :: c :: s) (b :: v)
  | unit {a b c d : UInt8} {u : Nat} {s v : List UInt8} (hu : hex4 a b c d = some u)
      (h : Spells s v) : Spells (92 :: 117 :: a :: b :: c :: d :: s) (utf8 u ++ v)
  | pair {a b c d a' b' c' d' : UInt8} {u l : Nat} {s v : List UInt8} (hu : hex4 a b c d = some u)
      (hl : hex4 a' b' c' d' = some l) (h : Spells s v) :
      Spells (92 :: 117 :: a :: b :: c :: d :: 92 :: 117 :: a' :: b' :: c' :: d' :: s)
        (utf8 (0x10000 + (u - 0xD800) * 0x400 + (l - 0xDC00)) ++ v)

/-- Bytes that a string can have as they stand. -/
def isPlain (v : List UInt8) : Bool :=
  v.all fun c => c ≠ 34 && c ≠ 92 && !decide (c < 32)

theorem length_utf8_le (u : Nat) : (utf8 u).length ≤ 4 := by
  rw [utf8]
  split
  · exact Nat.le_add_left 1 3
  · split
    · exact Nat.le_add_left 2 2
    · split
      · exact Nat.le_add_left 3 1
      · exact le_rfl

theorem hexDigit_plain {c : UInt8} {n : Nat} (h : hexDigit c = some n) :
    c ≠ 34 ∧ c ≠ 92 ∧ ¬ c < 32 := by
  refine ⟨?_, ?_, ?_⟩
  · rintro rfl
    have hnone : hexDigit 34 = none := by decide
    exact absurd (hnone.symm.trans h) (by simp)
  · rintro rfl
    have hnone : hexDigit 92 = none := by decide
    exact absurd (hnone.symm.trans h) (by simp)
  · intro hlt
    rw [hexDigit] at h
    have hlow : ∀ b : UInt8, 32 ≤ b → ¬ b ≤ c := fun b hb hle =>
      absurd (UInt8.lt_of_le_of_lt (UInt8.le_trans hb hle) hlt) (UInt8.lt_irrefl 32)
    rw [if_neg fun hc => hlow 48 (by decide) hc.1, if_neg fun hc => hlow 65 (by decide) hc.1,
      if_neg fun hc => hlow 97 (by decide) hc.1] at h
    exact absurd h (by simp)

theorem hex4_digits {a b c d : UInt8} {u : Nat} (h : hex4 a b c d = some u) :
    ∀ x ∈ [a, b, c, d], x ≠ 34 ∧ x ≠ 92 ∧ ¬ x < 32 := by
  rw [hex4] at h
  obtain ⟨na, ha, h⟩ := Option.bind_eq_some_iff.mp h
  obtain ⟨nb, hb, h⟩ := Option.bind_eq_some_iff.mp h
  obtain ⟨nc, hc, h⟩ := Option.bind_eq_some_iff.mp h
  obtain ⟨nd, hd, -⟩ := Option.bind_eq_some_iff.mp h
  intro x hx
  simp only [List.mem_cons, List.not_mem_nil, or_false] at hx
  rcases hx with rfl | rfl | rfl | rfl
  · exact hexDigit_plain ha
  · exact hexDigit_plain hb
  · exact hexDigit_plain hc
  · exact hexDigit_plain hd

theorem not_mem_unit {a b c d : UInt8} {u : Nat} (hu : hex4 a b c d = some u) :
    34 ∉ [92, 117, a, b, c, d] := by
  intro hmem
  rcases List.mem_cons.mp hmem with h | hmem
  · exact absurd h (by decide)
  · rcases List.mem_cons.mp hmem with h | hmem
    · exact absurd h (by decide)
    · exact (hex4_digits hu 34 hmem).1 rfl

theorem closeString_eq {s r rest : List UInt8} (h : closeString s = some (r, rest)) :
    s = r ++ 34 :: rest := by
  induction s using closeString.induct generalizing r with
  | case1 => exact absurd h (by simp [closeString])
  | case2 rest' =>
      rw [closeString] at h
      obtain ⟨rfl, rfl⟩ := Prod.mk.inj (Option.some.inj h)
      rfl
  | case3 c s ih =>
      rw [closeString] at h
      obtain ⟨⟨r', rest'⟩, hs, heq⟩ := Option.map_eq_some_iff.mp h
      obtain ⟨rfl, rfl⟩ := Prod.mk.inj heq
      rw [ih hs]
      rfl
  | case4 c s hquote hslash hlt =>
      rw [closeString, if_pos hlt] at h
      · exact absurd h (by simp)
      · exact hquote
      · exact hslash
  | case5 c s hquote hslash hlt ih =>
      rw [closeString, if_neg hlt] at h
      · obtain ⟨⟨r', rest'⟩, hs, heq⟩ := Option.map_eq_some_iff.mp h
        obtain ⟨rfl, rfl⟩ := Prod.mk.inj heq
        rw [ih hs]
        rfl
      · exact hquote
      · exact hslash

theorem closeString_byte {c : UInt8} {s t rest : List UInt8}
    (h : closeString (c :: (s ++ t)) = some (c :: s, rest)) (hslash : c ≠ 92) :
    c ≠ 34 ∧ ¬ c < 32 ∧ closeString (s ++ t) = some (s, rest) := by
  have hquote : c ≠ 34 := by
    rintro rfl
    rw [closeString] at h
    exact absurd (Prod.mk.inj (Option.some.inj h)).1 (by simp)
  rw [closeString] at h
  · by_cases hlt : c < 32
    · rw [if_pos hlt] at h
      exact absurd h (by simp)
    · rw [if_neg hlt] at h
      obtain ⟨r, hs, heq⟩ := Option.map_eq_some_iff.mp h
      obtain ⟨htail, hrest⟩ := Prod.mk.inj heq
      obtain rfl := (List.cons.inj htail).2
      subst hrest
      exact ⟨hquote, hlt, hs⟩
  · exact hquote
  · exact fun _ _ hc _ => hslash hc

theorem closeString_escaped {c : UInt8} {s t rest : List UInt8}
    (h : closeString (92 :: c :: (s ++ t)) = some (92 :: c :: s, rest)) :
    closeString (s ++ t) = some (s, rest) := by
  rw [closeString] at h
  obtain ⟨r, hs, heq⟩ := Option.map_eq_some_iff.mp h
  obtain ⟨htail, hrest⟩ := Prod.mk.inj heq
  obtain rfl := (List.cons.inj (List.cons.inj htail).2).2
  subst hrest
  exact hs

theorem closeString_unit {a b c d : UInt8} {u : Nat} {s t rest : List UInt8}
    (h : closeString (92 :: 117 :: a :: b :: c :: d :: (s ++ t)) =
      some (92 :: 117 :: a :: b :: c :: d :: s, rest)) (hu : hex4 a b c d = some u) :
    closeString (s ++ t) = some (s, rest) := by
  have hdigits := hex4_digits hu
  simp only [List.mem_cons, List.not_mem_nil, or_false, forall_eq_or_imp, forall_eq] at hdigits
  obtain ⟨ha, hb, hc, hd⟩ := hdigits
  have h := @closeString_escaped 117 (a :: b :: c :: d :: s) t rest h
  have h := (@closeString_byte a (b :: c :: d :: s) t rest h ha.2.1).2.2
  have h := (@closeString_byte b (c :: d :: s) t rest h hb.2.1).2.2
  have h := (@closeString_byte c (d :: s) t rest h hc.2.1).2.2
  exact (closeString_byte h hd.2.1).2.2

theorem spells_of_unescape {fuel : Nat} {s t rest v : List UInt8}
    (hclose : closeString (s ++ t) = some (s, rest)) (h : unescape fuel s = some v) :
    Spells s v := by
  induction fuel generalizing s v with
  | zero =>
      cases s with
      | nil =>
          obtain rfl := Option.some.inj h
          exact .nil
      | cons c s => exact absurd h (by simp [unescape])
  | succ fuel ih =>
      rw [unescape.eq_def] at h
      split at h
      · obtain rfl := Option.some.inj h
        exact .nil
      · exact absurd h (by simp)
      · -- a code unit, or a pair of them
        next fuel' a b c d s hfuel =>
        obtain rfl : fuel = fuel' := Nat.succ.inj hfuel
        obtain ⟨u, hu, h⟩ := Option.bind_eq_some_iff.mp h
        have hrest := closeString_unit hclose hu
        split at h
        · split at h
          · next a' b' c' d' s' =>
            obtain ⟨l, hl, h⟩ := Option.bind_eq_some_iff.mp h
            split at h
            · obtain ⟨tail, htail, h⟩ := Option.bind_eq_some_iff.mp h
              obtain rfl := Option.some.inj h
              exact .pair hu hl (ih (closeString_unit hrest hl) htail)
            · exact absurd h (by simp)
          · exact absurd h (by simp)
        · split at h
          · exact absurd h (by simp)
          · obtain ⟨tail, htail, h⟩ := Option.bind_eq_some_iff.mp h
            obtain rfl := Option.some.inj h
            exact .unit hu (ih hrest htail)
      · next fuel' c s _ hfuel =>
        obtain rfl : fuel = fuel' := Nat.succ.inj hfuel
        obtain ⟨b, hb, h⟩ := Option.bind_eq_some_iff.mp h
        obtain ⟨tail, htail, h⟩ := Option.bind_eq_some_iff.mp h
        obtain rfl := Option.some.inj h
        exact .escaped hb (ih (closeString_escaped hclose) htail)
      · exact absurd h (by simp)
      · next fuel' c s hunit hescape hslash hfuel =>
        obtain rfl : fuel = fuel' := Nat.succ.inj hfuel
        obtain ⟨tail, htail, rfl⟩ := Option.map_eq_some_iff.mp h
        have hne : c ≠ 92 := fun hc => by
          cases s with
          | nil => exact hslash hc rfl
          | cons c' s => exact hescape c' s hc rfl
        obtain ⟨hquote, hcontrol, hrest⟩ := closeString_byte hclose hne
        exact .byte hquote hne hcontrol (ih hrest htail)

theorem spells_of_readString {s rest : List UInt8} {name : List UInt8 × List UInt8}
    (h : readString s = some (name, rest)) : s = name.1 ++ 34 :: rest ∧ Spells name.1 name.2 := by
  obtain ⟨⟨r, rest'⟩, hclose, h⟩ := Option.bind_eq_some_iff.mp h
  obtain ⟨v, hv, h⟩ := Option.bind_eq_some_iff.mp h
  obtain ⟨rfl, rfl⟩ := Prod.mk.inj (Option.some.inj h)
  have hs := closeString_eq hclose
  refine ⟨hs, @spells_of_unescape _ _ (34 :: rest') rest' _ ?_ hv⟩
  rw [← hs]
  exact hclose

namespace Spells

variable {s v : List UInt8}

theorem length_le (h : Spells s v) : v.length ≤ s.length := by
  induction h with
  | nil => exact le_rfl
  | byte _ _ _ _ ih => exact Nat.succ_le_succ ih
  | escaped _ _ ih =>
      simp only [List.length_cons]
      omega
  | @unit _ _ _ _ u _ _ _ _ ih =>
      have hu := length_utf8_le u
      simp only [List.length_cons, List.length_append]
      omega
  | @pair _ _ _ _ _ _ _ _ u l _ _ _ _ _ ih =>
      have hu := length_utf8_le (0x10000 + (u - 0xD800) * 0x400 + (l - 0xDC00))
      simp only [List.length_cons, List.length_append]
      omega

theorem eq_of_not_mem (h : Spells s v) (hslash : 92 ∉ s) : v = s ∧ isPlain s = true := by
  induction h with
  | nil => exact ⟨rfl, rfl⟩
  | @byte c s v hquote hne hcontrol _ ih =>
      obtain ⟨rfl, hplain⟩ := ih fun hmem => hslash (List.mem_cons_of_mem c hmem)
      refine ⟨rfl, ?_⟩
      rw [isPlain, List.all_cons, ← isPlain, hplain, decide_eq_true hquote, decide_eq_true hne,
        decide_eq_false hcontrol]
      rfl
  | escaped => exact absurd List.mem_cons_self hslash
  | unit => exact absurd List.mem_cons_self hslash
  | pair => exact absurd List.mem_cons_self hslash

theorem not_mem_of_length (h : Spells s v) (hlength : s.length ≤ v.length) : 92 ∉ s := by
  induction h with
  | nil => exact List.not_mem_nil
  | byte _ hne _ _ ih =>
      rw [List.mem_cons, not_or]
      exact ⟨hne.symm, ih (Nat.le_of_succ_le_succ hlength)⟩
  | escaped _ h =>
      have hle := h.length_le
      simp only [List.length_cons] at hlength
      omega
  | @unit _ _ _ _ u _ _ _ h =>
      have hle := h.length_le
      have hu := length_utf8_le u
      simp only [List.length_cons, List.length_append] at hlength
      omega
  | @pair _ _ _ _ _ _ _ _ u l _ _ _ _ h =>
      have hle := h.length_le
      have hu := length_utf8_le (0x10000 + (u - 0xD800) * 0x400 + (l - 0xDC00))
      simp only [List.length_cons, List.length_append] at hlength
      omega

theorem exists_append {t s before after : List UInt8} (h : t ++ s = before ++ 34 :: after)
    (ht : 34 ∉ t) : ∃ rest, before = t ++ rest ∧ s = rest ++ 34 :: after := by
  rcases List.append_eq_append_iff.mp h with ⟨rest, hbefore, hs⟩ | ⟨rest, ht', hs⟩
  · exact ⟨rest, hbefore, hs⟩
  · cases rest with
    | nil => exact ⟨[], by rw [ht', List.append_nil, List.append_nil], hs.symm⟩
    | cons c rest =>
        obtain rfl := (List.cons.inj hs).1
        exact absurd (ht' ▸ List.mem_append_right before List.mem_cons_self) ht

theorem exists_quote (h : Spells s v) {before after : List UInt8} (hs : s = before ++ 34 :: after) :
    92 ∈ before ∧ ∃ front behind, v = front ++ 34 :: behind ∧ front.length < before.length := by
  induction h generalizing before with
  | nil => exact absurd hs (by simp)
  | @byte c s v hquote _ _ _ ih =>
      obtain ⟨rest, rfl, hrest⟩ := @exists_append [c] _ _ _ hs
        (by rw [List.mem_singleton]; exact hquote.symm)
      obtain ⟨hslash, front, behind, rfl, hlt⟩ := ih hrest
      exact ⟨List.mem_append_right _ hslash, c :: front, behind, rfl, Nat.succ_lt_succ hlt⟩
  | @escaped c b s v hc _ ih =>
      by_cases hquote : c = 34
      · subst hquote
        obtain rfl : 34 = b := Option.some.inj hc
        cases before with
        | nil => exact absurd (List.cons.inj hs).1 (by decide)
        | cons d before =>
            obtain rfl := (List.cons.inj hs).1
            exact ⟨List.mem_cons_self, [], v, rfl, Nat.succ_pos _⟩
      · obtain ⟨rest, rfl, hrest⟩ := @exists_append [92, c] _ _ _ hs (by
          rw [List.mem_cons, List.mem_singleton, not_or]
          exact ⟨by decide, Ne.symm hquote⟩)
        obtain ⟨-, front, behind, rfl, hlt⟩ := ih hrest
        refine ⟨List.mem_cons_self, b :: front, behind, rfl, ?_⟩
        simp only [List.length_append, List.length_cons]
        omega
  | @unit a b c d u s v hu _ ih =>
      obtain ⟨rest, rfl, hrest⟩ := exists_append (t := [92, 117, a, b, c, d]) hs (not_mem_unit hu)
      obtain ⟨-, front, behind, rfl, hlt⟩ := ih hrest
      have hlength := length_utf8_le u
      refine ⟨List.mem_cons_self, utf8 u ++ front, behind, (List.append_assoc _ _ _).symm, ?_⟩
      simp only [List.length_append, List.length_cons, List.length_nil]
      omega
  | @pair a b c d a' b' c' d' u l s v hu hl _ ih =>
      obtain ⟨rest, rfl, hrest⟩ := exists_append
        (t := [92, 117, a, b, c, d] ++ [92, 117, a', b', c', d']) hs fun hmem =>
          (List.mem_append.mp hmem).elim (not_mem_unit hu) (not_mem_unit hl)
      obtain ⟨-, front, behind, rfl, hlt⟩ := ih hrest
      have hlength := length_utf8_le (0x10000 + (u - 0xD800) * 0x400 + (l - 0xDC00))
      refine ⟨List.mem_cons_self, utf8 (0x10000 + (u - 0xD800) * 0x400 + (l - 0xDC00)) ++ front,
        behind, (List.append_assoc _ _ _).symm, ?_⟩
      simp only [List.length_append, List.length_cons, List.length_nil]
      omega

variable {more : List UInt8}

theorem eq_of_append (h : Spells s v) (hbegin : s ++ [34] <+: v ++ 34 :: more) :
    s = v ∧ isPlain v = true := by
  have hvalue : v <+: v ++ 34 :: more := List.prefix_append v _
  rcases Nat.lt_or_ge v.length s.length with hlong | hshort
  · -- every quote has one before it
    exfalso
    have hquote : v ++ [34] <+: s := by
      refine @List.prefix_of_prefix_length_le _ _ _ (v ++ 34 :: more) ⟨more, by simp⟩
        ((List.prefix_append s [34]).trans hbegin) ?_
      rw [List.length_append]
      exact hlong
    obtain ⟨t, rfl⟩ := hquote
    have hdescent : ∀ (n : Nat) (before after : List UInt8), before.length = n →
        v ++ [34] ++ t ≠ before ++ 34 :: after := by
      intro n
      induction n using Nat.strong_induction_on with
      | _ n ih =>
          intro before after hn heq
          obtain ⟨-, front, behind, hv, hlt⟩ := h.exists_quote heq
          refine ih front.length (hn ▸ hlt) front (behind ++ 34 :: t) rfl ?_
          nth_rewrite 1 [hv]
          simp
    exact hdescent v.length v t rfl (by simp)
  · have hs : s <+: v := List.prefix_of_prefix_length_le ((List.prefix_append s [34]).trans hbegin)
      hvalue hshort
    obtain rfl := hs.eq_of_length (le_antisymm hshort h.length_le)
    exact ⟨rfl, (h.eq_of_not_mem (h.not_mem_of_length le_rfl)).2⟩

theorem eq_of_isPlain (h : Spells s v) {w : List UInt8} (hw : isPlain w = true)
    (hbegin : s ++ [34] <+: w ++ 34 :: more) : s = w ∧ v = w := by
  have hbyte : ∀ c ∈ w, c ≠ 34 ∧ c ≠ 92 := by
    intro c hc
    have hplain := List.all_eq_true.mp hw c hc
    rw [Bool.and_eq_true, Bool.and_eq_true, decide_eq_true_iff, decide_eq_true_iff] at hplain
    exact hplain.1
  have hslash : 92 ∉ w := fun hmem => (hbyte 92 hmem).2 rfl
  have hs : s = w := by
    rcases Nat.lt_trichotomy s.length w.length with hshort | heq | hlong
    · exfalso
      have hquote : s ++ [34] <+: w := by
        refine List.prefix_of_prefix_length_le hbegin (List.prefix_append w _) ?_
        rw [List.length_append]
        exact hshort
      exact (hbyte 34 (hquote.mem (List.mem_append_right s (List.mem_singleton_self 34)))).1 rfl
    · exact (List.prefix_of_prefix_length_le ((List.prefix_append s [34]).trans hbegin)
        (List.prefix_append w _) heq.le).eq_of_length heq
    · exfalso
      have hquote : w ++ [34] <+: s := by
        refine @List.prefix_of_prefix_length_le _ _ _ (w ++ 34 :: more) ⟨more, by simp⟩
          ((List.prefix_append s [34]).trans hbegin) ?_
        rw [List.length_append]
        exact hlong
      obtain ⟨t, ht⟩ := hquote
      exact hslash (@exists_quote _ _ h w t (by rw [← ht]; simp)).1
  subst hs
  exact ⟨rfl, (h.eq_of_not_mem hslash).1⟩

end Spells

/-- An array of strings, each spelled by its bytes. -/
def strings (values : List (List UInt8)) : Json :=
  .arr (values.map fun v => .str v v)

def strValue : Json → Option (List UInt8)
  | .str _ value => some value
  | _ => none

/-- The text reads as an array of strings with these values. -/
def IsStrings (s : List UInt8) (values : List (List UInt8)) : Prop :=
  ∃ items, read s = some (.arr items) ∧ items.map strValue = values.map some

theorem escape_of_isPlain {v : List UInt8} (h : isPlain v = true) : escape v = v := by
  induction v with
  | nil => rfl
  | cons c v ih =>
      rw [isPlain, List.all_cons, Bool.and_eq_true, ← isPlain, Bool.and_eq_true, Bool.and_eq_true,
        decide_eq_true_iff, decide_eq_true_iff, Bool.not_eq_true', decide_eq_false_iff_not] at h
      obtain ⟨⟨⟨hquote, hslash⟩, hcontrol⟩, hv⟩ := h
      have hne : ∀ b : UInt8, b < 32 → c ≠ b := fun b hb heq => hcontrol (heq ▸ hb)
      have hbyte : escapeByte c = [c] := by
        rw [escapeByte, if_neg hquote, if_neg hslash, if_neg (hne 8 (by decide)),
          if_neg (hne 9 (by decide)), if_neg (hne 10 (by decide)), if_neg (hne 12 (by decide)),
          if_neg (hne 13 (by decide)), if_neg hcontrol]
      rw [escape] at ih ⊢
      rw [List.flatMap_cons, hbyte, ih hv]
      rfl

theorem isStrings_text {values : List (List UInt8)} (h : ∀ v ∈ values, isPlain v = true) :
    IsStrings (text (strings values)) values := by
  refine ⟨_, read_text (.arr fun x hx => ?_), ?_⟩
  · obtain ⟨v, hv, rfl⟩ := List.mem_map.mp hx
    have hspelling := isSpelling_escape v
    rw [escape_of_isPlain (h v hv)] at hspelling
    exact .str hspelling
  · rw [List.map_map]
    rfl

theorem readValue_quote {fuel : Nat} {s rest : List UInt8} {x : Json}
    (h : readValue fuel (34 :: s) = some (x, rest)) :
    ∃ name, readString s = some (name, rest) ∧ x = .str name.1 name.2 := by
  cases fuel with
  | zero => exact absurd h (by simp [readValue])
  | succ fuel =>
      rw [readValue, skipWs_cons (by decide)] at h
      obtain ⟨⟨name, rest'⟩, hname, h⟩ := Option.bind_eq_some_iff.mp h
      obtain ⟨rfl, rfl⟩ := Prod.mk.inj (Option.some.inj h)
      exact ⟨name, hname, rfl⟩

theorem readValue_nil (fuel : Nat) : readValue fuel [] = none := by
  cases fuel with
  | zero => rfl
  | succ fuel => rfl

theorem readItems_begin {values seen ws : List (List UInt8)} {fuel : Nat} {s rest : List UInt8}
    {items : List Json} (hne : values ≠ [])
    (hbegin : s <+: itemsText (values.map fun v => .str v v) ++ [93])
    (h : readItems fuel s = some (items, rest)) (hws : items.map strValue = ws.map some)
    (hseen : ∀ v ∈ seen, isPlain v = true)
    (hdiverge : ∀ before v vs w ws', values = before ++ v :: vs → ws = before ++ w :: ws' → v ≠ w →
      v ∈ seen ++ before) :
    ws = values ∧ (∀ v ∈ values, isPlain v = true) ∧
      s = itemsText (values.map fun v => .str v v) ++ [93] := by
  induction values generalizing seen ws fuel s items with
  | nil => exact absurd rfl hne
  | cons v vs ih =>
      cases fuel with
      | zero => exact absurd h (by simp [readItems])
      | succ fuel =>
          set tail := (if vs = [] then [] else 44 :: itemsText (vs.map fun v => .str v v)) ++ [93]
            with hfollow
          have htext : itemsText ((v :: vs).map fun v => .str v v) ++ [93] =
              34 :: (v ++ 34 :: tail) := by
            rw [List.map_cons, itemsText_cons, hfollow]
            simp [text, quoted]
          rw [htext] at hbegin ⊢
          rw [readItems] at h
          obtain ⟨⟨x, rest₁⟩, hx, hmore⟩ := Option.bind_eq_some_iff.mp h
          -- the string that is read
          cases s with
          | nil => exact absurd hx (by rw [readValue_nil]; simp)
          | cons c s =>
              obtain ⟨rfl, hs₁⟩ := List.cons_prefix_cons.mp hbegin
              obtain ⟨name, hname, rfl⟩ := readValue_quote hx
              obtain ⟨rfl, hspells⟩ := spells_of_readString hname
              have hclose : name.1 ++ [34] <+: v ++ 34 :: tail :=
                List.IsPrefix.trans ⟨rest₁, by simp⟩ hs₁
              have hfirst : ∀ {items' : List Json}, items = .str name.1 name.2 :: items' →
                  ∃ ws', ws = name.2 :: ws' ∧ items'.map strValue = ws'.map some := by
                rintro items' rfl
                cases ws with
                | nil => exact absurd hws (by simp)
                | cons w ws =>
                    obtain ⟨hw, hws⟩ := List.cons.inj hws
                    exact ⟨ws, congrArg (· :: ws) (Option.some.inj hw).symm, hws⟩
              have hvalue : ∀ {ws'}, ws = name.2 :: ws' →
                  name.1 = v ∧ name.2 = v ∧ isPlain v = true := by
                rintro ws' rfl
                by_cases heq : v = name.2
                · obtain ⟨hspelling, hplain⟩ := (heq ▸ hspells).eq_of_append hclose
                  exact ⟨hspelling, heq.symm, hplain⟩
                · have hplain : isPlain v = true := by
                    refine hseen v ?_
                    have hmem := hdiverge [] v vs name.2 ws' rfl rfl heq
                    rwa [List.append_nil] at hmem
                  obtain ⟨-, hsame⟩ := hspells.eq_of_isPlain hplain hclose
                  exact absurd hsame.symm heq
              have htail : name.1 = v → rest₁ <+: tail := by
                rintro rfl
                exact (List.cons_prefix_cons.mp ((List.prefix_append_right_inj _).mp hs₁)).2
              have hskip : skipWs [] = [] := rfl
              dsimp only at hmore
              split at hmore
              · -- another value follows
                next r hcomma =>
                obtain ⟨⟨items', rest₂⟩, hitems, hmore⟩ := Option.bind_eq_some_iff.mp hmore
                obtain ⟨rfl, rfl⟩ := Prod.mk.inj (Option.some.inj hmore)
                obtain ⟨ws', rfl, hws'⟩ := hfirst rfl
                obtain ⟨hspelling, hname₂, hplain⟩ := hvalue rfl
                have hrest := htail hspelling
                cases rest₁ with
                | nil => exact absurd (hskip.symm.trans hcomma) (by simp)
                | cons c rest₁ =>
                    cases vs with
                    | nil =>
                        obtain ⟨rfl, -⟩ := List.cons_prefix_cons.mp hrest
                        rw [skipWs_cons (by decide)] at hcomma
                        exact absurd (List.cons.inj hcomma).1 (by decide)
                    | cons v₂ vs =>
                        obtain ⟨rfl, hrest₁⟩ := List.cons_prefix_cons.mp hrest
                        rw [skipWs_cons (by decide)] at hcomma
                        obtain rfl := (List.cons.inj hcomma).2
                        have hseen' : ∀ u ∈ v :: seen, isPlain u = true := fun u hu =>
                          (List.mem_cons.mp hu).elim (fun heq => heq ▸ hplain) (hseen u)
                        obtain ⟨rfl, hplains, rfl⟩ := ih (by simp) hrest₁ hitems hws' hseen'
                          fun before u us w ws'' hvs hws'' hne => by
                            have hmem := hdiverge (v :: before) u us w ws'' (by rw [hvs]; rfl)
                              (by rw [hws'', hname₂]; rfl) hne
                            simp only [List.mem_append, List.mem_cons] at hmem ⊢
                            tauto
                        refine ⟨by rw [hname₂], fun u hu => ?_, by rw [hspelling, hfollow]; rfl⟩
                        exact (List.mem_cons.mp hu).elim (fun heq => heq ▸ hplain) (hplains u)
              · -- the array ends
                next r hbracket =>
                obtain ⟨rfl, rfl⟩ := Prod.mk.inj (Option.some.inj hmore)
                obtain ⟨ws', rfl, hws'⟩ := hfirst rfl
                obtain ⟨hspelling, hname₂, hplain⟩ := hvalue rfl
                have hrest := htail hspelling
                cases rest₁ with
                | nil => exact absurd (hskip.symm.trans hbracket) (by simp)
                | cons c rest₁ =>
                    cases vs with
                    | nil =>
                        obtain ⟨rfl, hrest₁⟩ := List.cons_prefix_cons.mp hrest
                        obtain rfl := List.prefix_nil.mp hrest₁
                        obtain rfl : ws' = [] := by simpa using hws'.symm
                        refine ⟨by rw [hname₂], fun u hu => ?_, by rw [hspelling, hfollow]; rfl⟩
                        exact List.mem_singleton.mp hu ▸ hplain
                    | cons v₂ vs =>
                        obtain ⟨rfl, -⟩ := List.cons_prefix_cons.mp hrest
                        rw [skipWs_cons (by decide)] at hbracket
                        exact absurd (List.cons.inj hbracket).1 (by decide)
              · exact absurd hmore (by simp)

theorem readItems_nil (fuel : Nat) : readItems fuel [] = none := by
  cases fuel with
  | zero => rfl
  | succ fuel => rw [readItems, readValue_nil]; rfl

theorem readValue_bracket {fuel : Nat} {s rest : List UInt8} {items : List Json}
    (h : readValue fuel (91 :: s) = some (.arr items, rest)) (hhead : ∀ c ∈ s.head?, isWs c = false) :
    s.head? = some 93 ∧ items = [] ∨ s.head? ≠ some 93 ∧ ∃ fuel', readItems fuel' s =
      some (items, rest) := by
  cases fuel with
  | zero => exact absurd h (by simp [readValue])
  | succ fuel =>
      have hskip : skipWs s = s := by
        cases s with
        | nil => rfl
        | cons c s => exact skipWs_cons (hhead c rfl)
      rw [readValue, skipWs_cons (by decide)] at h
      simp only [hskip] at h
      split at h
      · left
        obtain ⟨heq, -⟩ := Prod.mk.inj (Option.some.inj h)
        exact ⟨rfl, (Json.arr.inj heq).symm⟩
      · next hne =>
        right
        obtain ⟨⟨items', rest'⟩, hitems, heq⟩ := Option.bind_eq_some_iff.mp h
        obtain ⟨harr, rfl⟩ := Prod.mk.inj (Option.some.inj heq)
        obtain rfl := Json.arr.inj harr
        refine ⟨fun hhead => ?_, fuel, hitems⟩
        cases s with
        | nil => exact absurd hhead (by simp)
        | cons c s => exact hne s (congrArg (· :: s) (Option.some.inj hhead))

theorem itemsText_head (values : List (List UInt8)) :
    ∃ c more, itemsText (values.map fun v => .str v v) ++ [93] = c :: more ∧ isWs c = false ∧
      (c = 93 ↔ values = []) := by
  cases values with
  | nil => exact ⟨93, [], rfl, by decide, by simp⟩
  | cons v vs =>
      rw [List.map_cons, itemsText_cons]
      exact ⟨34, _, rfl, by decide, by simp⟩

theorem isStrings_iff {s : List UInt8} {values ws : List (List UInt8)}
    (hbegin : s <+: text (strings values))
    (hdiverge : ∀ before v vs w ws', values = before ++ v :: vs → ws = before ++ w :: ws' → v ≠ w →
      v ∈ before) :
    IsStrings s ws ↔
      s = text (strings values) ∧ (∀ v ∈ values, isPlain v = true) ∧ ws = values := by
  constructor
  · rintro ⟨items, hread, hws⟩
    obtain ⟨⟨x, rest⟩, hvalue, hread⟩ := Option.bind_eq_some_iff.mp hread
    have hx : x = .arr items := by
      dsimp only at hread
      split at hread
      · exact Option.some.inj hread
      · exact absurd hread (by simp)
    subst hx
    cases s with
    | nil => exact absurd hvalue (by rw [readValue_nil]; simp)
    | cons c s =>
        have htext : text (strings values) =
            91 :: (itemsText (values.map fun v => .str v v) ++ [93]) := rfl
        rw [htext] at hbegin ⊢
        obtain ⟨rfl, hs⟩ := List.cons_prefix_cons.mp hbegin
        obtain ⟨c, more, hmore, hws', hempty⟩ := itemsText_head values
        have hhead : ∀ d ∈ s.head?, d = c := by
          intro d hd
          cases s with
          | nil => exact absurd hd (by simp)
          | cons d' s =>
              obtain rfl : d' = d := Option.some.inj hd
              rw [hmore] at hs
              exact (List.cons_prefix_cons.mp hs).1
        rcases readValue_bracket hvalue fun d hd => (hhead d hd) ▸ hws' with
          ⟨hclose, rfl⟩ | ⟨hopen, fuel, hitems⟩
        · have hnil : values = [] := hempty.mp (hhead 93 hclose).symm
          subst hnil
          obtain rfl : ws = [] := by simpa using hws.symm
          have hwhole : s = [93] := by
            cases s with
            | nil => exact absurd hclose (by simp)
            | cons d s =>
                obtain ⟨rfl, hs₁⟩ := List.cons_prefix_cons.mp hs
                rw [List.prefix_nil.mp hs₁]
          exact ⟨congrArg (91 :: ·) hwhole, fun _ h => absurd h List.not_mem_nil, rfl⟩
        · cases s with
          | nil => exact absurd hitems (by rw [readItems_nil]; simp)
          | cons d s =>
              have hne : values ≠ [] := fun hnil => by
                have hd := hhead d rfl
                rw [hempty.mpr hnil] at hd
                exact hopen (congrArg some hd)
              obtain ⟨hsame, hplain, hwhole⟩ := @readItems_begin _ [] _ _ _ _ _ hne hs hitems hws
                (fun _ h => absurd h List.not_mem_nil) hdiverge
              exact ⟨congrArg (91 :: ·) hwhole, hplain, hsame⟩
  · rintro ⟨rfl, hplain, rfl⟩
    exact isStrings_text hplain

end Json
end Lib
end CodebaseMemory
