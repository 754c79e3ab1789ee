import CodebaseMemory.Cypher.Results
import CodebaseMemory.Sqlite.IndexOrder
import Mathlib.Data.Sum.Order

/-!
# What ORDER BY sorts (`src/cypher/cypher.c`)

The order that ORDER BY is meant to give: that of the numbers if every value of the column that is
not empty is a decimal integer of 64 bits, else that of the bytes.  The code looks at one value to
decide, and compares what is left of the numbers in an `int`.
-/

namespace CodebaseMemory
namespace Cypher

open Lib
open Sqlite (CStr bytesOf strcmp)

/-- The number that digits say. -/
def digitsInt (digits : CStr) : Int :=
  digits.foldl (fun v c => 10 * v + (c.toNat - 48)) 0

/-- The number that a text says; an empty one says zero. -/
def decimalValue (v : CStr) : Int :=
  if v.head? = some 45 then -digitsInt v.tail else digitsInt v

/-- A decimal integer of 64 bits. -/
def isDecimal64 (v : CStr) : Bool :=
  looksNumeric v && decide (-2 ^ 63 ≤ decimalValue v ∧ decimalValue v < 2 ^ 63)

/-- All values of the column that are not empty are decimal integers. -/
def numericColumn (rows : List (List CStr)) (col : Nat) : Bool :=
  rows.all fun row => cell col row = [] || isDecimal64 (cell col row)

def sortKey (numeric : Bool) (v : CStr) : Int ⊕ₗ List Nat :=
  if numeric then Sum.inlₗ (decimalValue v) else Sum.inrₗ (v.map UInt8.toNat)

/-- The first value is to stand before the second one. -/
def precedes (numeric desc : Bool) (x y : CStr) : Prop :=
  if desc then sortKey numeric y < sortKey numeric x else sortKey numeric x < sortKey numeric y

instance (numeric desc : Bool) (x y : CStr) : Decidable (precedes numeric desc x y) :=
  inferInstanceAs (Decidable (if desc then _ else _))

/-- The rows are sorted, and their first order makes no difference. -/
structure SortsBy (order : List (List CStr) → List (List CStr)) (col : Nat) (desc : Bool)
    (rows : List (List CStr)) : Prop where
  perm : ∀ rows', rows'.Perm rows → (order rows').Perm rows
  sorted : ∀ rows', rows'.Perm rows → (order rows').Pairwise fun p q =>
    ¬ precedes (numericColumn rows col) desc (cell col q) (cell col p)
  keys : ∀ rows', rows'.Perm rows →
    (order rows').map (fun p => sortKey (numericColumn rows col) (cell col p)) =
      (order rows).map fun p => sortKey (numericColumn rows col) (cell col p)

/-- The first `int` is to stand before the second one. -/
def intPrecedes (desc : Bool) (x y : CStr) : Prop :=
  if desc then strtolInt y < strtolInt x else strtolInt x < strtolInt y

instance (desc : Bool) (x y : CStr) : Decidable (intPrecedes desc x y) :=
  inferInstanceAs (Decidable (if desc then _ else _))

/-- The value is the only one of the column that looks like a number. -/
def OnlyNumeric (rows : List (List CStr)) (col : Nat) (v : CStr) : Prop :=
  looksNumeric v = true ∧ rows.countP (fun row => looksNumeric (cell col row)) = 1

instance (rows : List (List CStr)) (col : Nat) (v : CStr) : Decidable (OnlyNumeric rows col v) :=
  inferInstanceAs (Decidable (_ ∧ _))

/-- If a value looks like a number, the `int`s of all values are less than 2^31 apart and are in the
order of the values; the only value that looks like a number may have the same `int` as one that is
to stand behind it and is not empty. -/
def IntsAgree (col : Nat) (desc : Bool) (rows : List (List CStr)) : Prop :=
  (∃ p ∈ rows, looksNumeric (cell col p) = true) →
    ∀ p ∈ rows, ∀ q ∈ rows,
      strtolInt (cell col p) - strtolInt (cell col q) < 2 ^ 31 ∧
      (precedes (numericColumn rows col) desc (cell col p) (cell col q) →
        intPrecedes desc (cell col p) (cell col q) ∨
          strtolInt (cell col p) = strtolInt (cell col q) ∧
            OnlyNumeric rows col (cell col p) ∧ cell col q ≠ [])

instance (col : Nat) (desc : Bool) (rows : List (List CStr)) :
    Decidable (IntsAgree col desc rows) :=
  inferInstanceAs (Decidable (_ → _))

section Numbers

theorem all_digits_takeWhile {s : CStr} (h : (s.all fun c => 48 ≤ c && c ≤ 57) = true) :
    s.takeWhile (fun c => 48 ≤ c && c ≤ 57) = s := by
  induction s with
  | nil => rfl
  | cons c s ih =>
      rw [List.all_cons, Bool.and_eq_true] at h
      rw [List.takeWhile_cons, if_pos h.1, ih h.2]

theorem strtolInt_of_looksNumeric {v : CStr} (h : looksNumeric v = true) :
    strtolInt v = ((if v.head? = some 45 then max (decimalValue v) (-2 ^ 63)
      else min (decimalValue v) (2 ^ 63 - 1)) + 2 ^ 31) % 2 ^ 32 - 2 ^ 31 := by
  have hdigit : ∀ c : UInt8, (decide (48 ≤ c) && decide (c ≤ 57)) = true →
      ¬ (decide (c = 32) || (decide (9 ≤ c) && decide (c ≤ 13))) = true ∧ c ≠ 45 ∧ c ≠ 43 := by
    intro c hc
    rw [Bool.and_eq_true, decide_eq_true_iff, decide_eq_true_iff] at hc
    refine ⟨?_, ?_, ?_⟩
    · rw [Bool.or_eq_true, Bool.and_eq_true, decide_eq_true_iff, decide_eq_true_iff,
        decide_eq_true_iff]
      rintro (rfl | ⟨-, hle⟩)
      · exact absurd hc.1 (by decide)
      · exact absurd (UInt8.le_trans hc.1 hle) (by decide)
    · rintro rfl
      exact absurd hc.1 (by decide)
    · rintro rfl
      exact absurd hc.1 (by decide)
  cases v with
  | nil => exact absurd h (by decide)
  | cons c cs =>
      rw [looksNumeric, Bool.and_eq_true] at h
      obtain ⟨-, hall⟩ := h
      by_cases hminus : c = 45
      · subst hminus
        have hhead : ((45 : UInt8) :: cs).head? = some 45 := rfl
        rw [if_pos hhead, List.tail_cons] at hall
        have hspace : ((45 : UInt8) :: cs).dropWhile
            (fun c => decide (c = 32) || (decide (9 ≤ c) && decide (c ≤ 13))) = 45 :: cs :=
          List.dropWhile_cons_of_neg (by decide)
        rw [strtolInt, hspace, if_pos (Or.inl hhead), decimalValue, List.tail_cons,
          all_digits_takeWhile hall]
        simp only [hhead, if_true, digitsInt]
      · have hhead : (c :: cs).head? ≠ some 45 := fun hc => hminus (Option.some.inj hc)
        rw [if_neg hhead] at hall
        have hc := hdigit c (by
          rw [List.all_cons, Bool.and_eq_true] at hall
          exact hall.1)
        have hplus : (c :: cs).head? ≠ some 43 := fun h => hc.2.2 (Option.some.inj h)
        have hspace : (c :: cs).dropWhile
            (fun c => decide (c = 32) || (decide (9 ≤ c) && decide (c ≤ 13))) = c :: cs :=
          List.dropWhile_cons_of_neg hc.1
        rw [strtolInt, hspace, if_neg (not_or.mpr ⟨hhead, hplus⟩), decimalValue,
          all_digits_takeWhile hall]
        simp only [hhead, if_false, digitsInt]

theorem strtolInt_of_isDecimal64 {v : CStr} (h : v = [] ∨ isDecimal64 v = true) :
    strtolInt v = (decimalValue v + 2 ^ 31) % 2 ^ 32 - 2 ^ 31 := by
  rcases h with rfl | h
  · rfl
  · rw [isDecimal64, Bool.and_eq_true, decide_eq_true_iff] at h
    rw [strtolInt_of_looksNumeric h.1]
    split
    · rw [max_eq_left h.2.1]
    · rw [min_eq_left (by omega)]

end Numbers

section Comparisons

variable {sub : Int → Int → Int}
variable {numeric desc : Bool}
variable {x y : CStr}

theorem precedes_asymm (hxy : precedes numeric desc x y) : ¬ precedes numeric desc y x := by
  unfold precedes at *
  cases desc with
  | true => exact lt_asymm (α := Int ⊕ₗ List Nat) hxy
  | false => exact lt_asymm (α := Int ⊕ₗ List Nat) hxy

theorem not_precedes_trans {z : CStr} (hxy : ¬ precedes numeric desc y x)
    (hyz : ¬ precedes numeric desc z y) : ¬ precedes numeric desc z x := by
  unfold precedes at *
  cases desc with
  | true => exact not_lt.mpr (le_trans (not_lt.mp hyz) (not_lt.mp hxy))
  | false => exact not_lt.mpr (le_trans (not_lt.mp hxy) (not_lt.mp hyz))

theorem not_precedes_self : ¬ precedes numeric desc x x := fun h => precedes_asymm h h

theorem sortKey_eq_of_not_precedes (hxy : ¬ precedes numeric desc x y)
    (hyx : ¬ precedes numeric desc y x) : sortKey numeric x = sortKey numeric y := by
  unfold precedes at *
  cases desc with
  | true => exact le_antisymm (not_lt.mp hxy) (not_lt.mp hyx)
  | false => exact le_antisymm (not_lt.mp hyx) (not_lt.mp hxy)

theorem intPrecedes_asymm (hxy : intPrecedes desc x y) : ¬ intPrecedes desc y x := by
  unfold intPrecedes at *
  cases desc with
  | true => exact lt_asymm hxy
  | false => exact lt_asymm hxy

theorem not_intPrecedes_trans {z : CStr} (hxy : ¬ intPrecedes desc y x)
    (hyz : ¬ intPrecedes desc z y) : ¬ intPrecedes desc z x := by
  unfold intPrecedes at *
  cases desc with
  | true => exact not_lt.mpr (le_trans (not_lt.mp hyz) (not_lt.mp hxy))
  | false => exact not_lt.mpr (le_trans (not_lt.mp hxy) (not_lt.mp hyz))

theorem ne_of_intPrecedes (hxy : intPrecedes desc x y) : strtolInt x ≠ strtolInt y := by
  unfold intPrecedes at *
  cases desc with
  | true => exact hxy.ne'
  | false => exact hxy.ne

theorem intPrecedes_or_eq (h : ¬ intPrecedes desc x y) :
    intPrecedes desc y x ∨ strtolInt x = strtolInt y := by
  unfold intPrecedes at *
  cases desc with
  | true => exact (not_lt.mp h).lt_or_eq
  | false => exact (not_lt.mp h).lt_or_eq.imp_right Eq.symm

theorem misplaced_bytes : misplaced sub false desc x y = true ↔ precedes false desc y x := by
  have hcompare := Sqlite.compares_strcmp x y
  have hlt : sortKey false x < sortKey false y ↔ x.map UInt8.toNat < y.map UInt8.toNat :=
    Sum.Lex.inr_lt_inr_iff
  have hgt : sortKey false y < sortKey false x ↔ y.map UInt8.toNat < x.map UInt8.toNat :=
    Sum.Lex.inr_lt_inr_iff
  rw [misplaced, if_neg Bool.false_ne_true, precedes]
  cases desc with
  | true =>
      rw [if_pos rfl, if_pos rfl, decide_eq_true_iff, hlt]
      exact hcompare.eq_lt
  | false =>
      rw [if_neg Bool.false_ne_true, if_neg Bool.false_ne_true, decide_eq_true_iff, hgt]
      exact hcompare.eq_gt

theorem misplaced_ints (hsub : IsIntSub sub) (hxy : strtolInt x - strtolInt y < 2 ^ 31)
    (hyx : strtolInt y - strtolInt x < 2 ^ 31) :
    misplaced sub true desc x y = true ↔ intPrecedes desc y x := by
  rw [misplaced, if_pos rfl, hsub _ _ (by omega) hxy, intPrecedes]
  cases desc with
  | true =>
      simp only [if_true, decide_eq_true_eq]
      omega
  | false =>
      simp only [Bool.false_eq_true, if_false, decide_eq_true_eq]
      omega

theorem strtolInt_eq_of_sortKey (hx : numeric = true → x = [] ∨ isDecimal64 x = true)
    (hy : numeric = true → y = [] ∨ isDecimal64 y = true)
    (hkey : sortKey numeric x = sortKey numeric y) : strtolInt x = strtolInt y := by
  cases numeric with
  | true =>
      have hvalue : decimalValue x = decimalValue y := Sum.inl.inj (toLex.injective hkey)
      rw [strtolInt_of_isDecimal64 (hx rfl), strtolInt_of_isDecimal64 (hy rfl), hvalue]
  | false =>
      have hbytes : x.map UInt8.toNat = y.map UInt8.toNat := Sum.inr.inj (toLex.injective hkey)
      rw [List.map_injective_iff.mpr (fun a b h => UInt8.toNat_inj.mp h) hbytes]

end Comparisons

section Sorted

variable {sub : Int → Int → Int}
variable {col : Nat}
variable {desc : Bool}
variable {rows rows' : List (List CStr)}

theorem exists_looksNumeric (h : rbIsNumericColumn rows col = true) :
    ∃ before first after, rows = before ++ first :: after ∧
      looksNumeric (cell col first) = true ∧ ∀ row ∈ before, cell col row = [] := by
  rw [rbIsNumericColumn] at h
  split at h
  · next first hfind =>
    obtain ⟨-, before, after, hrows, hbefore⟩ := List.find?_eq_some_iff_append.mp hfind
    refine ⟨before, first, after, hrows, h, fun row hrow => ?_⟩
    simpa using hbefore row hrow
  · exact absurd h Bool.false_ne_true

theorem ne_nil_of_looksNumeric {v : CStr} (h : looksNumeric v = true) : v ≠ [] := by
  rintro rfl
  exact absurd h (by decide)

theorem isDecimal64_of_numericColumn (h : numericColumn rows col = true) {row : List CStr}
    (hrow : row ∈ rows) : cell col row = [] ∨ isDecimal64 (cell col row) = true := by
  have hvalue := List.all_eq_true.mp h row hrow
  rwa [Bool.or_eq_true, decide_eq_true_iff] at hvalue

theorem misplaced_of_not_numeric (hmode : rbIsNumericColumn rows col = false)
    {p q : List CStr} (hp : p ∈ rows) (hq : q ∈ rows) :
    if misplaced sub false desc (cell col p) (cell col q)
    then ¬ precedes (numericColumn rows col) desc (cell col p) (cell col q)
    else ¬ precedes (numericColumn rows col) desc (cell col q) (cell col p) := by
  cases hnumeric : numericColumn rows col with
  | false =>
      split
      · next h => exact precedes_asymm (misplaced_bytes.mp h)
      · next h => exact fun hprecedes => h (misplaced_bytes.mpr hprecedes)
  | true =>
      -- all values are empty
      have hempty : ∀ row ∈ rows, cell col row = [] := by
        rw [rbIsNumericColumn] at hmode
        split at hmode
        · next first hfind =>
          have hfirst : cell col first ≠ [] := by simpa using List.find?_some hfind
          have hdecimal := (isDecimal64_of_numericColumn hnumeric
            (List.mem_of_find?_eq_some hfind)).resolve_left hfirst
          rw [isDecimal64, hmode, Bool.false_and] at hdecimal
          exact absurd hdecimal Bool.false_ne_true
        · next hfind =>
          intro row hrow
          simpa using List.find?_eq_none.mp hfind row hrow
      rw [hempty p hp, hempty q hq, ite_self]
      exact not_precedes_self

theorem pairwise_onlyNumeric (hmode : rbIsNumericColumn rows col = true) :
    rows.Pairwise fun p q => ¬ (OnlyNumeric rows col (cell col q) ∧ cell col p ≠ []) := by
  obtain ⟨before, first, after, hrows, hfirst, hbefore⟩ := exists_looksNumeric hmode
  have hafter : rows.countP (fun row => looksNumeric (cell col row)) = 1 →
      ∀ row ∈ after, ¬ looksNumeric (cell col row) = true := by
    intro hone row hrow hnumeric
    have hcons : (first :: after).countP (fun row => looksNumeric (cell col row)) =
        after.countP (fun row => looksNumeric (cell col row)) + 1 :=
      List.countP_cons_of_pos hfirst
    rw [hrows, List.countP_append, hcons] at hone
    have hpos : 0 < after.countP fun row => looksNumeric (cell col row) :=
      List.countP_pos_iff.mpr ⟨row, hrow, hnumeric⟩
    omega
  have hpairs : (before ++ first :: after).Pairwise fun p q =>
      ¬ (OnlyNumeric rows col (cell col q) ∧ cell col p ≠ []) := by
    refine List.pairwise_append.mpr ⟨?_, List.pairwise_cons.mpr ⟨?_, ?_⟩, ?_⟩
    · exact List.pairwise_of_forall_mem_list fun p hp _ _ h => h.2 (hbefore p hp)
    · exact fun q hq h => hafter h.1.2 q hq h.1.1
    · exact List.pairwise_of_forall_mem_list fun _ _ q hq h => hafter h.1.2 q hq h.1.1
    · exact fun p hp _ _ h => h.2 (hbefore p hp)
  exact hrows ▸ hpairs

theorem numericColumn_perm (hperm : rows'.Perm rows) :
    numericColumn rows' col = numericColumn rows col := by
  rw [numericColumn, numericColumn, Bool.eq_iff_iff, List.all_eq_true, List.all_eq_true]
  exact forall_congr' fun row => by rw [hperm.mem_iff]

theorem onlyNumeric_perm (hperm : rows'.Perm rows) (v : CStr) :
    OnlyNumeric rows' col v ↔ OnlyNumeric rows col v := by
  rw [OnlyNumeric, OnlyNumeric, hperm.countP_eq]

theorem intsAgree_perm (hperm : rows'.Perm rows) (h : IntsAgree col desc rows) :
    IntsAgree col desc rows' := by
  rintro ⟨p, hp, hnumeric⟩ q hq r hr
  have hagree := h ⟨p, hperm.mem_iff.mp hp, hnumeric⟩ q (hperm.mem_iff.mp hq) r
    (hperm.mem_iff.mp hr)
  rwa [numericColumn_perm hperm, onlyNumeric_perm hperm]

theorem pairwise_bubbleSort_precedes {numeric : Bool} {bad : List CStr → List CStr → Bool}
    (hgood : ∀ p ∈ rows, ∀ q ∈ rows,
      if bad p q then ¬ precedes numeric desc (cell col p) (cell col q)
      else ¬ precedes numeric desc (cell col q) (cell col p)) :
    (bubbleSort bad rows).Pairwise fun p q =>
      ¬ precedes numeric desc (cell col q) (cell col p) :=
  @pairwise_bubbleSort _ bad (fun p q => ¬ precedes numeric desc (cell col q) (cell col p))
    (fun _ _ _ => not_precedes_trans) (fun _ => not_precedes_self) rows hgood

theorem pairwise_sortByColumn (hsub : IsIntSub sub) (hagree : IntsAgree col desc rows) :
    (sortByColumn sub col desc rows).Pairwise fun p q =>
      ¬ precedes (numericColumn rows col) desc (cell col q) (cell col p) := by
  rw [sortByColumn]
  cases hmode : rbIsNumericColumn rows col with
  | false =>
      exact pairwise_bubbleSort_precedes fun p hp q hq => misplaced_of_not_numeric hmode hp hq
  | true =>
      obtain ⟨before, first, after, hrows, hfirst, -⟩ := exists_looksNumeric hmode
      have hints := hagree ⟨first, hrows ▸ List.mem_append_right before List.mem_cons_self, hfirst⟩
      have hmisplaced : ∀ p ∈ rows, ∀ q ∈ rows,
          misplaced sub true desc (cell col p) (cell col q) = true ↔
            intPrecedes desc (cell col q) (cell col p) := fun p hp q hq =>
        misplaced_ints hsub (hints p hp q hq).1 (hints q hq p hp).1
      -- the only number stands in front of what it might be mistaken for, and it stays there
      let fixed : List CStr → List CStr → Prop := fun p q =>
        precedes (numericColumn rows col) desc (cell col p) (cell col q) ∧
          OnlyNumeric rows col (cell col p) ∧ cell col q ≠ []
      classical
      let bad : List CStr → List CStr → Bool := fun p q =>
        misplaced sub true desc (cell col p) (cell col q) || decide (fixed q p)
      have hstart : rows.Pairwise fun p q => p ∈ rows ∧ q ∈ rows ∧ ¬ fixed q p := by
        have hmem : rows.Pairwise fun p q => p ∈ rows ∧ q ∈ rows :=
          List.pairwise_of_forall_mem_list fun p hp q hq => ⟨hp, hq⟩
        exact (hmem.and (pairwise_onlyNumeric hmode)).imp fun h =>
          ⟨h.1.1, h.1.2, fun hfixed => h.2 hfixed.2⟩
      have hcongr : bubbleSort (fun p q => misplaced sub true desc (cell col p) (cell col q)) rows =
          bubbleSort bad rows := by
        refine bubbleSort_congr ?_ ?_ hstart
        · rintro p q ⟨-, -, hfixed⟩
          change _ = (misplaced sub true desc (cell col p) (cell col q) || decide (fixed q p))
          rw [decide_eq_false hfixed, Bool.or_false]
        · rintro p q ⟨hp, hq, -⟩ hbad
          refine ⟨hq, hp, fun hfixed => ?_⟩
          have hqp := (hmisplaced p hp q hq).mp hbad
          rcases (hints p hp q hq).2 hfixed.1 with hpq | ⟨heq, -⟩
          · exact intPrecedes_asymm hpq hqp
          · exact ne_of_intPrecedes hqp heq.symm
      rw [hcongr]
      refine pairwise_bubbleSort_precedes fun p hp q hq => ?_
      split
      · next hbad =>
        rw [Bool.or_eq_true, decide_eq_true_iff] at hbad
        rcases hbad with hbad | hfixed
        · have hqp := (hmisplaced p hp q hq).mp hbad
          intro hprecedes
          rcases (hints p hp q hq).2 hprecedes with hpq | ⟨heq, -⟩
          · exact intPrecedes_asymm hpq hqp
          · exact ne_of_intPrecedes hqp heq.symm
        · exact precedes_asymm hfixed.1
      · next hbad =>
        rw [Bool.or_eq_true, decide_eq_true_iff, not_or] at hbad
        intro hprecedes
        rcases (hints q hq p hp).2 hprecedes with hqp | ⟨-, hrest⟩
        · exact hbad.1 ((hmisplaced p hp q hq).mpr hqp)
        · exact hbad.2 ⟨hprecedes, hrest⟩

theorem keys_eq_of_perm {numeric : Bool} {sorted sorted' : List (List CStr)}
    (hperm : sorted.Perm sorted')
    (h : sorted.Pairwise fun p q => ¬ precedes numeric desc (cell col q) (cell col p))
    (h' : sorted'.Pairwise fun p q => ¬ precedes numeric desc (cell col q) (cell col p)) :
    sorted.map (fun p => sortKey numeric (cell col p)) =
      sorted'.map fun p => sortKey numeric (cell col p) := by
  have hkeys : ∀ {l : List (List CStr)},
      (l.Pairwise fun p q => ¬ precedes numeric desc (cell col q) (cell col p)) →
      (l.map fun p => sortKey numeric (cell col p)).Pairwise fun k l =>
        if desc then l ≤ k else k ≤ l := by
    intro l hl
    refine List.pairwise_map.mpr (hl.imp fun hpq => ?_)
    unfold precedes at hpq
    cases desc with
    | true => exact not_lt.mp hpq
    | false => exact not_lt.mp hpq
  refine List.Perm.eq_of_pairwise ?_ (hkeys h) (hkeys h') (hperm.map _)
  intro k l _ _ hkl hlk
  cases desc with
  | true => exact le_antisymm (α := Int ⊕ₗ List Nat) hlk hkl
  | false => exact le_antisymm (α := Int ⊕ₗ List Nat) hkl hlk

theorem sortsBy_of_intsAgree (hsub : IsIntSub sub) (hagree : IntsAgree col desc rows) :
    SortsBy (sortByColumn sub col desc) col desc rows where
  perm rows' hperm := (bubbleSort_perm rows').trans hperm
  sorted rows' hperm := by
    rw [← numericColumn_perm hperm]
    exact pairwise_sortByColumn hsub (intsAgree_perm hperm hagree)
  keys rows' hperm := by
    refine keys_eq_of_perm ?_ ?_ (pairwise_sortByColumn hsub hagree)
    · exact ((bubbleSort_perm rows').trans hperm).trans (bubbleSort_perm rows).symm
    · rw [← numericColumn_perm hperm]
      exact pairwise_sortByColumn hsub (intsAgree_perm hperm hagree)

end Sorted

end Cypher
end CodebaseMemory
