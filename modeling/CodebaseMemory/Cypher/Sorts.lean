import CodebaseMemory.Cypher.OrderBy
import Mathlib.Data.Finset.Max

/-!
# When ORDER BY sorts (`src/cypher/cypher.c`)

What the rows have to be like for ORDER BY to sort them in whatever order they come.  That nothing
less will do is shown with two differences that C allows: the exact one, and one that is exact but
for two `int`s that are too far apart, where it has the wrong sign.
-/

namespace CodebaseMemory
namespace Cypher

open Lib
open Sqlite (CStr bytesOf)

section Twisted

universe u

variable {α : Type u}
variable {key : α → Int}
variable {low high : Int}
variable {bad : α → α → Bool}

/-- The comparison by a key that is wrong about the lowest and the highest one. -/
def Twisted (key : α → Int) (low high : Int) (bad : α → α → Bool) : Prop :=
  ∀ x y, bad x y = true ↔
    key x = low ∧ key y = high ∨ ¬ (key x = high ∧ key y = low) ∧ key y < key x

theorem isChain_twisted (hbad : Twisted key low high bad) (hne : low < high) {tops others : List α}
    (htops : ∀ x ∈ tops, key x = high) (hothers : ∀ x ∈ others, key x < high)
    (hsorted : others.Pairwise fun x y => key x ≤ key y)
    (hhead : ∀ x ∈ others.head?, key x = low) :
    (tops ++ others).IsChain fun x y => bad x y = false := by
  have hgood : ∀ {x y}, ¬ (key x = low ∧ key y = high ∨
      ¬ (key x = high ∧ key y = low) ∧ key y < key x) → bad x y = false := fun h =>
    Bool.eq_false_iff.mpr (mt (hbad _ _).mp h)
  refine List.isChain_append.mpr ⟨?_, ?_, ?_⟩
  · refine List.Pairwise.isChain (List.pairwise_of_forall_mem_list fun x hx y hy => hgood ?_)
    have hx := htops x hx
    have hy := htops y hy
    omega
  · have hbelow : others.Pairwise fun x y => key x ≤ key y ∧ key y < high :=
      hsorted.and (List.pairwise_of_forall_mem_list fun _ _ y hy => hothers y hy)
    exact (hbelow.imp fun ⟨hle, hlt⟩ => hgood (by omega)).isChain
  · intro x hx y hy
    have hx := htops x (List.mem_of_getLast? hx)
    have hy := hhead y hy
    exact hgood (by omega)

theorem head_eq_low {l : List α} (hsorted : l.Pairwise fun x y => key x ≤ key y)
    (hlow : ∀ x ∈ l, low ≤ key x) {a : α} (ha : a ∈ l) (hkey : key a = low) :
    ∀ x ∈ l.head?, key x = low := by
  intro x hx
  cases l with
  | nil => exact absurd ha List.not_mem_nil
  | cons y l =>
      obtain rfl : y = x := Option.some.inj hx
      have hle : key y ≤ key a := by
        rcases List.mem_cons.mp ha with rfl | ha
        · exact le_rfl
        · exact (List.pairwise_cons.mp hsorted).1 a ha
      have hge := hlow y List.mem_cons_self
      omega

theorem exists_twisted_sublist [DecidableEq α] (hbad : Twisted key low high bad) (hne : low < high)
    {rows : List α} (hrange : ∀ r ∈ rows, low ≤ key r ∧ key r ≤ high) {d a b : α} (hd : d ∈ rows)
    (ha : a ∈ rows) (hb : b ∈ rows) (hlow : key a = low) (hhigh : key b = high) :
    ∃ rest, (d :: rest).Perm rows ∧ [b, a].Sublist (bubbleSort bad (d :: rest)) := by
  set tops := rows.filter fun r => key r = high with htops
  set others := (rows.filter fun r => !decide (key r = high)).insertionSort
    fun x y => key x ≤ key y with hothers
  have hperm : (tops ++ others).Perm rows :=
    ((List.perm_insertionSort _ _).append_left tops).trans (List.filter_append_perm _ rows)
  have hmemTops : ∀ {r}, r ∈ tops ↔ r ∈ rows ∧ key r = high := by
    intro r
    rw [htops, List.mem_filter, decide_eq_true_iff]
  have hmemOthers : ∀ {r}, r ∈ others ↔ r ∈ rows ∧ key r ≠ high := by
    intro r
    rw [hothers, List.mem_insertionSort, List.mem_filter, Bool.not_eq_true', decide_eq_false_iff_not]
  have hkeyTops : ∀ x ∈ tops, key x = high := fun x hx => (hmemTops.mp hx).2
  have hkeyOthers : ∀ x ∈ others, key x < high := fun x hx => by
    have hx := hmemOthers.mp hx
    exact lt_of_le_of_ne (hrange x hx.1).2 hx.2
  have hsorted : others.Pairwise fun x y => key x ≤ key y := by
    have : Std.Total (fun x y : α => key x ≤ key y) := ⟨fun x y => le_total (key x) (key y)⟩
    have : IsTrans α (fun x y => key x ≤ key y) := ⟨fun _ _ _ h h' => le_trans h h'⟩
    exact List.pairwise_insertionSort _ _
  have hlowest : ∀ x ∈ others, low ≤ key x := fun x hx => (hrange x (hmemOthers.mp hx).1).1
  have hbTops : b ∈ tops := hmemTops.mpr ⟨hb, hhigh⟩
  have haOthers : a ∈ others := hmemOthers.mpr ⟨ha, by omega⟩
  by_cases hdTop : key d = high
  · -- one of the highest comes first
    have hdTops : d ∈ tops := hmemTops.mpr ⟨hd, hdTop⟩
    have hfront : (d :: tops.erase d).Perm tops := (List.perm_cons_erase hdTops).symm
    refine ⟨tops.erase d ++ others, (hfront.append_right others).trans hperm, ?_⟩
    have hchain := isChain_twisted hbad hne (fun x hx => hkeyTops x (hfront.mem_iff.mp hx))
      hkeyOthers hsorted (head_eq_low hsorted hlowest haOthers hlow)
    rw [← List.cons_append, bubbleSort_of_isChain hchain]
    exact pair_sublist_append (hfront.mem_iff.mpr hbTops) haOthers
  · have hdOthers : d ∈ others := hmemOthers.mpr ⟨hd, hdTop⟩
    have hrest : (d :: others.erase d).Perm others := (List.perm_cons_erase hdOthers).symm
    have hall : (d :: (tops ++ others.erase d)).Perm rows :=
      List.perm_middle.symm.trans ((hrest.append_left tops).trans hperm)
    have hsub : ∀ x ∈ others.erase d, x ∈ others := fun x hx => List.mem_of_mem_erase hx
    have hsortedErase : (others.erase d).Pairwise fun x y => key x ≤ key y :=
      hsorted.sublist List.erase_sublist
    refine ⟨tops ++ others.erase d, hall, ?_⟩
    by_cases hdLow : key d = low
    · -- the only lowest one, perhaps: it is swapped with all the highest
      have hswap : ∀ x ∈ tops, bad d x = true := fun x hx =>
        (hbad d x).mpr (Or.inl ⟨hdLow, hkeyTops x hx⟩)
      have hsortedRest : (d :: others.erase d).Pairwise fun x y => key x ≤ key y :=
        List.pairwise_cons.mpr ⟨fun x hx => hdLow ▸ hlowest x (hsub x hx), hsortedErase⟩
      have hchain := isChain_twisted hbad hne hkeyTops
        (fun x hx => hkeyOthers x (hrest.mem_iff.mp hx)) hsortedRest
        fun x hx => Option.some.inj hx ▸ hdLow
      rw [bubbleSort_of_front hswap hchain]
      exact pair_sublist_append hbTops (hrest.mem_iff.mpr haOthers)
    · have haErase : a ∈ others.erase d := by
        have hne : a ≠ d := fun h => hdLow (h ▸ hlow)
        exact (List.mem_erase_of_ne hne).mpr haOthers
      have hchain := isChain_twisted hbad hne hkeyTops
        (fun x hx => hkeyOthers x (hsub x hx)) hsortedErase
        (head_eq_low hsortedErase (fun x hx => hlowest x (hsub x hx)) haErase hlow)
      have hfirst : ∀ x ∈ tops, bad d x = false := by
        intro x hx
        have hx := hkeyTops x hx
        have hdHigh := (hrange d hd).2
        exact Bool.eq_false_iff.mpr (mt (hbad d x).mp (by omega))
      have hchain' : (d :: (tops ++ others.erase d)).IsChain fun x y => bad x y = false := by
        refine List.isChain_cons.mpr ⟨?_, hchain⟩
        intro x hx
        obtain ⟨t, ts, ht⟩ := List.exists_cons_of_ne_nil (List.ne_nil_of_mem hbTops)
        rw [ht, List.cons_append, List.head?_cons, Option.mem_some_iff] at hx
        exact hx ▸ hfirst t (ht ▸ List.mem_cons_self)
      rw [bubbleSort_of_isChain hchain']
      exact (pair_sublist_append hbTops haErase).trans (List.sublist_cons_self d _)

end Twisted

section Needed

variable {col : Nat}
variable {desc : Bool}
variable {rows rows' : List (List CStr)}

/-- The rows are sorted, whatever the difference is where C does not say it. -/
def SortsAlways (col : Nat) (desc : Bool) (rows : List (List CStr)) : Prop :=
  ∀ sub, IsIntSub sub → SortsBy (sortByColumn sub col desc) col desc rows

theorem misplaced_exact (x y : CStr) :
    misplaced (fun x y => x - y) true desc x y = true ↔ intPrecedes desc y x := by
  rw [misplaced, if_pos rfl, intPrecedes]
  cases desc with
  | true =>
      simp only [if_true, decide_eq_true_eq]
      omega
  | false =>
      simp only [Bool.false_eq_true, if_false, decide_eq_true_eq]
      omega

theorem rbIsNumericColumn_of_first {before after : List (List CStr)} {d : List CStr}
    (hbefore : ∀ row ∈ before, cell col row = []) (hd : looksNumeric (cell col d) = true) :
    rbIsNumericColumn (before ++ d :: after) col = true := by
  have hfind : (before ++ d :: after).find? (fun row => cell col row ≠ []) = some d := by
    refine List.find?_eq_some_iff_append.mpr
      ⟨decide_eq_true (ne_nil_of_looksNumeric hd), before, after, rfl, fun row hrow => ?_⟩
    rw [decide_eq_false fun h => h (hbefore row hrow)]
    rfl
  rw [rbIsNumericColumn, hfind]
  exact hd

theorem rbIsNumericColumn_cons {d : List CStr} (hd : looksNumeric (cell col d) = true)
    (rest : List (List CStr)) : rbIsNumericColumn (d :: rest) col = true := by
  have hmode : rbIsNumericColumn ([] ++ d :: rest) col = true :=
    rbIsNumericColumn_of_first (fun _ h => absurd h List.not_mem_nil) hd
  exact hmode

theorem pairwise_exact (hmode : rbIsNumericColumn rows col = true) :
    (sortByColumn (fun x y => x - y) col desc rows).Pairwise fun p q =>
      ¬ intPrecedes desc (cell col q) (cell col p) := by
  rw [sortByColumn, hmode]
  refine @pairwise_bubbleSort _ _ (fun p q => ¬ intPrecedes desc (cell col q) (cell col p))
    ?_ ?_ rows ?_
  · exact fun p q r hpq hqr => not_intPrecedes_trans hpq hqr
  · exact fun p h => intPrecedes_asymm h h
  · intro p _ q _
    split
    · next h => exact intPrecedes_asymm ((misplaced_exact _ _).mp h)
    · next h => exact fun hqp => h ((misplaced_exact _ _).mpr hqp)

variable {p q : List CStr}

theorem sublist_exact (hmode : rbIsNumericColumn rows col = true)
    (heq : strtolInt (cell col p) = strtolInt (cell col q)) (hpq : [p, q].Sublist rows) :
    [p, q].Sublist (sortByColumn (fun x y => x - y) col desc rows) := by
  have hfilter : (sortByColumn (fun x y => x - y) col desc rows).filter
      (fun r => strtolInt (cell col r) = strtolInt (cell col p)) =
        rows.filter fun r => strtolInt (cell col r) = strtolInt (cell col p) := by
    rw [sortByColumn, hmode]
    refine filter_bubbleSort (fun r t hr ht => ?_) rows
    rw [decide_eq_true_iff] at hr ht
    refine Bool.eq_false_iff.mpr fun h => ?_
    exact ne_of_intPrecedes ((misplaced_exact _ _).mp h) (ht.trans hr.symm)
  have hpair : [p, q].filter (fun r => strtolInt (cell col r) = strtolInt (cell col p)) =
      [p, q] := by
    rw [List.filter_eq_self]
    intro r hr
    rw [decide_eq_true_iff]
    rcases List.mem_cons.mp hr with rfl | hr
    · rfl
    · rw [List.mem_singleton.mp hr, heq]
  have hsub := hpq.filter fun r => strtolInt (cell col r) = strtolInt (cell col p)
  rw [← hfilter, hpair] at hsub
  exact hsub.trans List.filter_sublist

theorem intPrecedes_of_sorts (hsorts : SortsAlways col desc rows)
    (hsome : ∃ d ∈ rows, looksNumeric (cell col d) = true) (hp : p ∈ rows) (hq : q ∈ rows)
    (hpq : precedes (numericColumn rows col) desc (cell col p) (cell col q)) :
    intPrecedes desc (cell col p) (cell col q) ∨
      strtolInt (cell col p) = strtolInt (cell col q) ∧
        OnlyNumeric rows col (cell col p) ∧ cell col q ≠ [] := by
  have hsorted := (hsorts _ isIntSub_exact).sorted
  have hne : p ≠ q := by
    rintro rfl
    exact not_precedes_self hpq
  by_contra hneg
  rw [not_or] at hneg
  rcases intPrecedes_or_eq hneg.1 with hqp | heq
  · -- the `int`s are the other way round
    obtain ⟨d, hd, hnumeric⟩ := hsome
    have hperm : (d :: rows.erase d).Perm rows := (List.perm_cons_erase hd).symm
    have hmode := rbIsNumericColumn_cons hnumeric (rows.erase d)
    have hout : ∀ r ∈ rows,
        r ∈ sortByColumn (fun x y => x - y) col desc (d :: rows.erase d) := fun r hr =>
      (bubbleSort_perm _).mem_iff.mpr (hperm.mem_iff.mpr hr)
    rcases pair_sublist_or (hout p hp) (hout q hq) hne with hsub | hsub
    · exact List.pairwise_iff_forall_sublist.mp (pairwise_exact hmode) hsub hqp
    · exact List.pairwise_iff_forall_sublist.mp (hsorted _ hperm) hsub hpq
  · -- they are equal: the wrong order stays, if numbers are compared
    have hwrong : ∀ {arranged}, arranged.Perm rows → rbIsNumericColumn arranged col = true →
        [q, p].Sublist arranged → False := fun hperm hmode hsub =>
      List.pairwise_iff_forall_sublist.mp (hsorted _ hperm) (sublist_exact hmode heq.symm hsub) hpq
    have hrest : (p :: q :: (rows.erase p).erase q).Perm rows := by
      have hq' : q ∈ rows.erase p := (List.mem_erase_of_ne hne.symm).mpr hq
      exact ((List.perm_cons_erase hq').symm.cons p).trans (List.perm_cons_erase hp).symm
    have hswap : (q :: p :: (rows.erase p).erase q).Perm rows :=
      (List.Perm.swap p q _).trans hrest
    by_cases hqNumeric : looksNumeric (cell col q) = true
    · exact hwrong hswap (rbIsNumericColumn_cons hqNumeric _)
        ((List.nil_sublist _).cons_cons p |>.cons_cons q)
    · by_cases hother : ∃ d ∈ (rows.erase p).erase q, looksNumeric (cell col d) = true
      · obtain ⟨d, hd, hnumeric⟩ := hother
        have hfront : (d :: q :: p :: ((rows.erase p).erase q).erase d).Perm
            (q :: p :: (rows.erase p).erase q) :=
          (List.Perm.swap q d _).trans (List.Perm.cons q
            ((List.Perm.swap p d _).trans ((List.perm_cons_erase hd).symm.cons p)))
        exact hwrong (hfront.trans hswap) (rbIsNumericColumn_cons hnumeric _)
          (((List.nil_sublist _).cons_cons p |>.cons_cons q).cons d)
      · -- the first row has the only number
        have hnone : ((rows.erase p).erase q).countP
            (fun row => looksNumeric (cell col row)) = 0 :=
          List.countP_eq_zero.mpr fun d hd h => hother ⟨d, hd, h⟩
        have hcount : rows.countP (fun row => looksNumeric (cell col row)) =
            if looksNumeric (cell col p) then 1 else 0 := by
          rw [← hrest.countP_eq, List.countP_cons, List.countP_cons, hnone, if_neg hqNumeric,
            Nat.zero_add]
        have hpNumeric : looksNumeric (cell col p) = true := by
          by_contra hpNumeric
          rw [if_neg hpNumeric] at hcount
          obtain ⟨d, hd, hnumeric⟩ := hsome
          exact List.countP_eq_zero.mp hcount d hd hnumeric
        rw [if_pos hpNumeric] at hcount
        have hempty : cell col q = [] := by
          by_contra hfull
          exact hneg.2 ⟨heq, ⟨hpNumeric, hcount⟩, hfull⟩
        have hmode : rbIsNumericColumn ([q] ++ p :: (rows.erase p).erase q) col = true :=
          rbIsNumericColumn_of_first (fun r hr => List.mem_singleton.mp hr ▸ hempty) hpNumeric
        exact hwrong hswap hmode ((List.nil_sublist _).cons_cons p |>.cons_cons q)

/-- What the rows are compared by, so that less is first. -/
def intKey (col : Nat) (desc : Bool) (row : List CStr) : Int :=
  if desc then -strtolInt (cell col row) else strtolInt (cell col row)

theorem intPrecedes_iff :
    intPrecedes desc (cell col p) (cell col q) ↔ intKey col desc p < intKey col desc q := by
  rw [intPrecedes, intKey, intKey]
  cases desc with
  | true =>
      simp only [if_true]
      omega
  | false => exact Iff.rfl

/-- The exact difference, but for two `int`s. -/
def twistedSub (u v : Int) (desc : Bool) (x y : Int) : Int :=
  if x = u ∧ y = v then if desc then -1 else 1
  else if x = v ∧ y = u then if desc then 1 else -1
  else x - y

theorem isIntSub_twisted {u v : Int} (hfar : 2 ^ 31 < u - v ∨ 2 ^ 31 < v - u) :
    IsIntSub (twistedSub u v desc) := by
  intro x y hlow hhigh
  rw [twistedSub, if_neg (by omega), if_neg (by omega)]

theorem twisted_twistedSub (a b : List CStr) :
    Twisted (intKey col desc) (intKey col desc a) (intKey col desc b) fun p q =>
      misplaced (twistedSub (strtolInt (cell col a)) (strtolInt (cell col b)) desc) true desc
        (cell col p) (cell col q) := by
  intro p q
  change misplaced _ true desc _ _ = true ↔ _
  rw [misplaced, if_pos rfl, twistedSub]
  simp only [intKey]
  cases desc with
  | true =>
      simp only [if_true, decide_eq_true_eq]
      split
      · omega
      · split
        · omega
        · omega
  | false =>
      simp only [Bool.false_eq_true, if_false, decide_eq_true_eq]
      split
      · omega
      · split
        · omega
        · omega

theorem sub_lt_of_sorts (hsorts : SortsAlways col desc rows)
    (hsome : ∃ d ∈ rows, looksNumeric (cell col d) = true)
    (hcorner : ∀ p ∈ rows, ∀ q ∈ rows, strtolInt (cell col p) - strtolInt (cell col q) ≠ 2 ^ 31)
    (hp : p ∈ rows) (hq : q ∈ rows) : strtolInt (cell col p) - strtolInt (cell col q) < 2 ^ 31 := by
  by_contra hfar
  -- the first and the last row
  have hnonempty : rows.toFinset.Nonempty := ⟨p, List.mem_toFinset.mpr hp⟩
  obtain ⟨a, ha, hmin⟩ := Finset.exists_min_image rows.toFinset (intKey col desc) hnonempty
  obtain ⟨b, hb, hmax⟩ := Finset.exists_max_image rows.toFinset (intKey col desc) hnonempty
  simp only [List.mem_toFinset] at ha hb hmin hmax
  have hspan : intKey col desc b - intKey col desc a = strtolInt (cell col b) - strtolInt (cell col a) ∨
      intKey col desc b - intKey col desc a =
        strtolInt (cell col a) - strtolInt (cell col b) := by
    rw [intKey, intKey]
    cases desc with
    | true =>
        simp only [if_true]
        omega
    | false => exact Or.inl rfl
  have hwide : 2 ^ 31 < intKey col desc b - intKey col desc a := by
    have hge : 2 ^ 31 ≤ intKey col desc b - intKey col desc a := by
      have hpmin := hmin p hp
      have hqmin := hmin q hq
      have hpmax := hmax p hp
      have hqmax := hmax q hq
      have hpq : intKey col desc p - intKey col desc q =
          strtolInt (cell col p) - strtolInt (cell col q) ∨
            intKey col desc q - intKey col desc p =
              strtolInt (cell col p) - strtolInt (cell col q) := by
        rw [intKey, intKey]
        cases desc with
        | true =>
            simp only [if_true]
            omega
        | false => exact Or.inl rfl
      omega
    have hab := hcorner a ha b hb
    have hba := hcorner b hb a ha
    omega
  have hne : strtolInt (cell col a) ≠ strtolInt (cell col b) := by omega
  have hsub : IsIntSub (twistedSub (strtolInt (cell col a)) (strtolInt (cell col b)) desc) :=
    isIntSub_twisted (by omega)
  have hfirst : intPrecedes desc (cell col a) (cell col b) := intPrecedes_iff.mpr (by omega)
  -- the first row is to stand before the last one
  have hprecedes : precedes (numericColumn rows col) desc (cell col a) (cell col b) := by
    by_contra hnot
    by_cases hback : precedes (numericColumn rows col) desc (cell col b) (cell col a)
    · rcases intPrecedes_of_sorts hsorts hsome hb ha hback with h | ⟨h, -⟩
      · exact intPrecedes_asymm hfirst h
      · exact hne h.symm
    · exact hne (strtolInt_eq_of_sortKey (fun h => isDecimal64_of_numericColumn h ha)
        (fun h => isDecimal64_of_numericColumn h hb) (sortKey_eq_of_not_precedes hnot hback))
  obtain ⟨d, hd, hnumeric⟩ := hsome
  obtain ⟨rest, hperm, hwrong⟩ := exists_twisted_sublist (twisted_twistedSub a b)
    (intPrecedes_iff.mp hfirst) (fun r hr => ⟨hmin r hr, hmax r hr⟩) hd ha hb rfl rfl
  have hsorted := (hsorts _ hsub).sorted _ hperm
  rw [sortByColumn, rbIsNumericColumn_cons hnumeric] at hsorted
  exact List.pairwise_iff_forall_sublist.mp hsorted hwrong hprecedes

theorem intsAgree_of_sorts (hsorts : SortsAlways col desc rows)
    (hcorner : ∀ p ∈ rows, ∀ q ∈ rows, strtolInt (cell col p) - strtolInt (cell col q) ≠ 2 ^ 31) :
    IntsAgree col desc rows := fun hsome _ hp _ hq =>
  ⟨sub_lt_of_sorts hsorts hsome hcorner hp hq, intPrecedes_of_sorts hsorts hsome hp hq⟩

theorem rbApplyOrderBy_eq {columns : List CStr} {aliases : List (Option CStr)} {order : OrderBy}
    (hcol : rbFindOrderColumn columns aliases order.expr = some col) (sub : Int → Int → Int) :
    rbApplyOrderBy sub columns aliases (some order) =
      sortByColumn sub col (order.ascending = some false) := by
  funext rows
  simp only [rbApplyOrderBy, hcol]

/-- ORDER BY sorts if the `int`s agree with the order of the values, and only then, unless two of
them are exactly 2^31 apart. -/
theorem orderBy_sorts {columns : List CStr} {aliases : List (Option CStr)} {order : OrderBy}
    (hcol : rbFindOrderColumn columns aliases order.expr = some col) (rows : List (List CStr)) :
    (IntsAgree col (order.ascending = some false) rows → ∀ sub, IsIntSub sub →
      SortsBy (rbApplyOrderBy sub columns aliases (some order)) col
        (order.ascending = some false) rows) ∧
    ((∀ p ∈ rows, ∀ q ∈ rows, strtolInt (cell col p) - strtolInt (cell col q) ≠ 2 ^ 31) →
      (∀ sub, IsIntSub sub → SortsBy (rbApplyOrderBy sub columns aliases (some order)) col
        (order.ascending = some false) rows) →
      IntsAgree col (order.ascending = some false) rows) := by
  have heq := rbApplyOrderBy_eq hcol
  refine ⟨fun hagree sub hsub => ?_, fun hcorner hsorts => ?_⟩
  · rw [heq]
    exact sortsBy_of_intsAgree hsub hagree
  · refine intsAgree_of_sorts (fun sub hsub => ?_) hcorner
    rw [← heq]
    exact hsorts sub hsub

/-- Names and counts, to be sorted by the counts downwards. -/
def byCalls : OrderBy where
  expr := bytesOf "calls"
  ascending := some false

theorem orderBy_sorts_calls : SortsBy
    (rbApplyOrderBy (fun x y => x - y) [bytesOf "f.name", bytesOf "calls"] [] (some byCalls)) 1 true
    [[bytesOf "f", bytesOf "9"], [bytesOf "g", bytesOf "10"]] := by
  have hcol : rbFindOrderColumn [bytesOf "f.name", bytesOf "calls"] [] byCalls.expr = some 1 := by
    decide +kernel
  exact (orderBy_sorts hcol _).1 (by decide +kernel) _ isIntSub_exact

/-- 2^32 and 1: the first is cut to 0 and stays in front. -/
theorem not_orderBy_sorts_wide : ¬ SortsBy
    (rbApplyOrderBy (fun x y => x - y) [bytesOf "n"] [] (some ⟨bytesOf "n", none⟩)) 0 false
    [[bytesOf "4294967296"], [bytesOf "1"]] := by
  intro h
  have hsorted := h.sorted _ (List.Perm.refl _)
  revert hsorted
  decide +kernel

end Needed

end Cypher
end CodebaseMemory
