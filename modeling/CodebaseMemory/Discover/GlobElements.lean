import CodebaseMemory.Discover.Gitignore
import CodebaseMemory.Lib.Through

/-!
# The elements of a glob (`src/discover/gitignore.c`)

`glob_match` reads its pattern from the left.  A pattern is a list of elements, and
each of them takes a part of the text.

Reading aids:
* `Elem.Takes e s t`: the code, at the element `e` with the text `s`, may go on with
  the text `t`.
* `Elem.Denotes e s t`: by the syntax, `s` is a part for `e`, then `t`.
* An element `**/` knows if it begins a component.
-/

namespace CodebaseMemory
namespace Discover

open Lib
open Sqlite (CStr bytesOf)

inductive Elem
  | lit (c : UInt8)
  | one
  | cls (accepts : UInt8 → Bool) (text : CStr)
  | star
  | any
  | dirs (leading : Bool)

/-- The elements of a pattern, with a bound on their number; `leading` at the start
of a component. -/
def elementRounds : Nat → Bool → CStr → List Elem
  | 0, _, _ => []
  | _ + 1, _, [] => []
  | n + 1, leading, p :: ps =>
      if p = 42 then
        match ps with
        | 42 :: 47 :: rest => .dirs leading :: elementRounds n true rest
        | 42 :: rest => .any :: elementRounds n false rest
        | rest => .star :: elementRounds n false rest
      else if p = 63 then .one :: elementRounds n false ps
      else if p = 91 then
        let rest := (globMatchCharclass ps 0).2
        .cls (fun c => (globMatchCharclass ps c).1) (ps.take (ps.length - rest.length)) ::
          elementRounds n false rest
      else .lit p :: elementRounds n (p = 47) ps

def elements (pat : CStr) : List Elem :=
  elementRounds pat.length true pat

/-- By the syntax: a part of the text for the element, then the rest. -/
def Elem.Denotes : Elem → CStr → CStr → Prop
  | .lit c, s, t => s = c :: t
  | .one, s, t => ∃ c, c ≠ 47 ∧ s = c :: t
  | .cls accepts _, s, t => ∃ c, c ≠ 47 ∧ accepts c = true ∧ s = c :: t
  | .star, s, t => ∃ run, 47 ∉ run ∧ s = run ++ t
  | .any, s, t => ∃ run, s = run ++ t
  -- nothing or a prefix that ends in `/` at the start of a component, else `**` and then `/`
  | .dirs leading, s, t => (leading = true ∧ s = t) ∨ ∃ run, s = run ++ 47 :: t

/-- The texts of a pattern by the syntax. -/
def InLanguage (es : List Elem) (str : CStr) : Prop :=
  Through Elem.Denotes es str []

/-- By the code: `**/` without a prefix has to leave something, and a class has no exception. -/
def Elem.Takes : Elem → CStr → CStr → Prop
  | .cls accepts _, s, t => ∃ c, accepts c = true ∧ s = c :: t
  | .dirs _, s, t => (s = t ∧ t ≠ []) ∨ ∃ run, s = run ++ 47 :: t
  | e, s, t => e.Denotes s t

theorem Elem.Denotes.suffix {e : Elem} {s t : CStr} (h : e.Denotes s t) : t <:+ s := by
  cases e with
  | lit c => exact ⟨[c], h.symm⟩
  | one =>
      obtain ⟨c, _, rfl⟩ := h
      exact List.suffix_cons c t
  | cls accepts text =>
      obtain ⟨c, _, _, rfl⟩ := h
      exact List.suffix_cons c t
  | star =>
      obtain ⟨run, _, rfl⟩ := h
      exact List.suffix_append run t
  | any =>
      obtain ⟨run, rfl⟩ := h
      exact List.suffix_append run t
  | dirs leading =>
      rcases h with ⟨_, rfl⟩ | ⟨run, rfl⟩
      · exact List.suffix_rfl
      · exact (List.suffix_cons 47 t).trans (List.suffix_append run _)

theorem Elem.Takes.suffix {e : Elem} {s t : CStr} (h : e.Takes s t) : t <:+ s := by
  cases e with
  | cls accepts text =>
      obtain ⟨c, _, rfl⟩ := h
      exact List.suffix_cons c t
  | dirs leading =>
      rcases h with ⟨rfl, _⟩ | ⟨run, rfl⟩
      · exact List.suffix_rfl
      · exact (List.suffix_cons 47 t).trans (List.suffix_append run _)
  | lit c => exact @Elem.Denotes.suffix (.lit c) s t h
  | one => exact @Elem.Denotes.suffix .one s t h
  | star => exact @Elem.Denotes.suffix .star s t h
  | any => exact @Elem.Denotes.suffix .any s t h

section Loops

variable {f : CStr → Bool}

theorem afterSlashes_iff {s : CStr} :
    afterSlashes f s = true ↔ ∃ run t, s = run ++ 47 :: t ∧ f t = true := by
  induction s with
  | nil => simp [afterSlashes]
  | cons c rest ih =>
      rw [afterSlashes, Bool.or_eq_true, Bool.and_eq_true, ih, beq_iff_eq]
      constructor
      · rintro (⟨rfl, h⟩ | ⟨run, t, rfl, h⟩)
        · exact ⟨[], rest, rfl, h⟩
        · exact ⟨c :: run, t, rfl, h⟩
      · rintro ⟨_ | ⟨d, run⟩, t, heq, h⟩
        · obtain ⟨rfl, rfl⟩ := List.cons.inj heq
          exact Or.inl ⟨rfl, h⟩
        · obtain ⟨rfl, rfl⟩ := List.cons.inj heq
          exact Or.inr ⟨run, t, rfl, h⟩

theorem anywhere_iff {s : CStr} :
    anywhere f s = true ↔ ∃ run t, s = run ++ t ∧ f t = true := by
  induction s with
  | nil =>
      rw [anywhere]
      refine ⟨fun h => ⟨[], [], rfl, h⟩, ?_⟩
      rintro ⟨run, t, heq, h⟩
      obtain ⟨_, rfl⟩ := List.append_eq_nil_iff.mp heq.symm
      exact h
  | cons c rest ih =>
      rw [anywhere, Bool.or_eq_true, ih]
      constructor
      · rintro (h | ⟨run, t, rfl, h⟩)
        · exact ⟨[], c :: rest, rfl, h⟩
        · exact ⟨c :: run, t, rfl, h⟩
      · rintro ⟨_ | ⟨d, run⟩, t, heq, h⟩
        · obtain rfl : c :: rest = t := heq
          exact Or.inl h
        · obtain ⟨rfl, rfl⟩ := List.cons.inj heq
          exact Or.inr ⟨run, t, rfl, h⟩

theorem globMatchStar_iff {s : CStr} :
    globMatchStar f s = true ↔ ∃ run t, 47 ∉ run ∧ s = run ++ t ∧ f t = true := by
  induction s with
  | nil =>
      rw [globMatchStar]
      refine ⟨fun h => ⟨[], [], by simp, rfl, h⟩, ?_⟩
      rintro ⟨run, t, _, heq, h⟩
      obtain ⟨_, rfl⟩ := List.append_eq_nil_iff.mp heq.symm
      exact h
  | cons c rest ih =>
      rw [globMatchStar, Bool.or_eq_true, Bool.and_eq_true, ih, bne_iff_ne]
      constructor
      · rintro (h | ⟨hc, run, t, hrun, rfl, h⟩)
        · exact ⟨[], c :: rest, by simp, rfl, h⟩
        · exact ⟨c :: run, t, List.not_mem_cons_of_ne_of_not_mem (Ne.symm hc) hrun, rfl, h⟩
      · rintro ⟨_ | ⟨d, run⟩, t, hrun, heq, h⟩
        · obtain rfl : c :: rest = t := heq
          exact Or.inl h
        · obtain ⟨rfl, rfl⟩ := List.cons.inj heq
          obtain ⟨hc, hrun⟩ := List.ne_and_not_mem_of_not_mem_cons hrun
          exact Or.inr ⟨Ne.symm hc, run, t, hrun, rfl, h⟩

end Loops

theorem charclassLoop_rest (ch dh : UInt8) (ps : CStr) (prev : UInt8) (m m' : Bool) :
    (charclassLoop dh ps prev m').2 = (charclassLoop ch ps prev m).2 := by
  fun_induction charclassLoop ch ps prev m generalizing m' with
  | case1 => rfl
  | case2 prev m => simp [charclassLoop]
  | case3 prev m c hc => simp [charclassLoop, hc]
  | case4 prev m x rest => simp [charclassLoop]
  | case5 c x rest prev m hc hrange ih =>
      rw [charclassLoop, if_neg hc, if_pos hrange]
      exact ih _
  | case6 c x rest prev m hc hrange ih =>
      rw [charclassLoop, if_neg hc, if_neg hrange]
      exact ih _

theorem charclassLoop_suffix (ch : UInt8) (ps : CStr) (prev : UInt8) (m : Bool) :
    (charclassLoop ch ps prev m).2 <:+ ps := by
  fun_induction charclassLoop ch ps prev m with
  | case1 => exact List.suffix_rfl
  | case2 => exact List.nil_suffix
  | case3 => exact List.nil_suffix
  | case4 x rest prev m => exact List.suffix_cons 93 (x :: rest)
  | case5 c x rest prev m hc hrange ih =>
      exact ih.trans ((List.suffix_cons x rest).trans (List.suffix_cons c _))
  | case6 c x rest prev m hc hrange ih => exact ih.trans (List.suffix_cons c _)

theorem globMatchCharclass_rest (ps : CStr) (ch dh : UInt8) :
    (globMatchCharclass ps dh).2 = (globMatchCharclass ps ch).2 := by
  cases ps with
  | nil => rfl
  | cons c rest =>
      simp only [globMatchCharclass]
      split
      · exact charclassLoop_rest ch dh rest 0 false false
      · exact charclassLoop_rest ch dh (c :: rest) 0 false false

theorem globMatchCharclass_suffix (ps : CStr) (ch : UInt8) :
    (globMatchCharclass ps ch).2 <:+ ps := by
  cases ps with
  | nil => exact List.suffix_rfl
  | cons c rest =>
      simp only [globMatchCharclass]
      split
      · exact (charclassLoop_suffix ch rest 0 false).trans (List.suffix_cons c rest)
      · exact charclassLoop_suffix ch (c :: rest) 0 false

section Forms

variable {n : Nat} {leading : Bool} {p : UInt8} {ps : CStr}

theorem elementRounds_nil : elementRounds n leading [] = [] := by
  cases n <;> rfl

theorem elementRounds_dirs :
    elementRounds (n + 1) leading (42 :: 42 :: 47 :: ps) =
      .dirs leading :: elementRounds n true ps :=
  rfl

theorem elementRounds_any (h : ps.head? ≠ some 47) :
    elementRounds (n + 1) leading (42 :: 42 :: ps) = .any :: elementRounds n false ps := by
  cases ps with
  | nil => rfl
  | cons c rest =>
      have hc : c ≠ 47 := by simpa using h
      simp [elementRounds, hc]

theorem elementRounds_star (h : ps.head? ≠ some 42) :
    elementRounds (n + 1) leading (42 :: ps) = .star :: elementRounds n false ps := by
  cases ps with
  | nil => rfl
  | cons c rest =>
      have hc : c ≠ 42 := by simpa using h
      simp [elementRounds, hc]

theorem elementRounds_one :
    elementRounds (n + 1) leading (63 :: ps) = .one :: elementRounds n false ps :=
  rfl

theorem elementRounds_cls :
    elementRounds (n + 1) leading (91 :: ps) =
      .cls (fun c => (globMatchCharclass ps c).1)
          (ps.take (ps.length - (globMatchCharclass ps 0).2.length)) ::
        elementRounds n false (globMatchCharclass ps 0).2 :=
  rfl

theorem elementRounds_lit (hstar : p ≠ 42) (hone : p ≠ 63) (hcls : p ≠ 91) :
    elementRounds (n + 1) leading (p :: ps) = .lit p :: elementRounds n (p = 47) ps := by
  simp [elementRounds, hstar, hone, hcls]

/-- How a pattern begins. -/
inductive Form : CStr → Prop
  | nil : Form []
  | dirs (ps : CStr) : Form (42 :: 42 :: 47 :: ps)
  | any (ps : CStr) (h : ps.head? ≠ some 47) : Form (42 :: 42 :: ps)
  | star (ps : CStr) (h : ps.head? ≠ some 42) : Form (42 :: ps)
  | one (ps : CStr) : Form (63 :: ps)
  | cls (ps : CStr) : Form (91 :: ps)
  | lit (p : UInt8) (ps : CStr) (hstar : p ≠ 42) (hone : p ≠ 63) (hcls : p ≠ 91) : Form (p :: ps)

theorem form (pat : CStr) : Form pat := by
  rcases pat with _ | ⟨p, ps⟩
  · exact .nil
  by_cases hstar : p = 42
  · subst hstar
    rcases ps with _ | ⟨q, qs⟩
    · exact .star [] (by simp)
    by_cases hq : q = 42
    · subst hq
      rcases qs with _ | ⟨r, rs⟩
      · exact .any [] (by simp)
      by_cases hr : r = 47
      · exact hr ▸ .dirs rs
      · exact .any (r :: rs) (by simpa using hr)
    · exact .star (q :: qs) (by simpa using hq)
  by_cases hone : p = 63
  · exact hone ▸ .one ps
  by_cases hcls : p = 91
  · exact hcls ▸ .cls ps
  · exact .lit p ps hstar hone hcls

end Forms

theorem through_nil_iff (n : Nat) : ∀ (leading : Bool) (pat : CStr), pat.length ≤ n →
    (Through Elem.Takes (elementRounds n leading pat) [] [] ↔ ∀ c ∈ pat, c = 42) := by
  induction n with
  | zero =>
      intro leading pat hpat
      obtain rfl := List.eq_nil_of_length_eq_zero (Nat.le_zero.mp hpat)
      exact ⟨fun _ c hc => absurd hc List.not_mem_nil, fun _ => rfl⟩
  | succ n ih =>
      intro leading pat hpat
      cases form pat with
      | nil => exact ⟨fun _ c hc => absurd hc List.not_mem_nil, fun _ => rfl⟩
      | dirs ps =>
          rw [elementRounds_dirs]
          refine ⟨fun ⟨m, hm, _⟩ => ?_, fun h => absurd (h 47 (by simp)) (by decide)⟩
          rcases hm with ⟨rfl, hne⟩ | ⟨run, heq⟩
          · exact absurd rfl hne
          · exact absurd heq (by simp)
      | any ps h =>
          rw [elementRounds_any h]
          simp only [List.mem_cons, forall_eq_or_imp, true_and]
          rw [← ih false ps (by simp only [List.length_cons] at hpat; omega)]
          constructor
          · rintro ⟨m, ⟨run, heq⟩, hm⟩
            obtain ⟨_, rfl⟩ := List.append_eq_nil_iff.mp heq.symm
            exact hm
          · exact fun hm => ⟨[], ⟨[], rfl⟩, hm⟩
      | star ps h =>
          rw [elementRounds_star h]
          simp only [List.mem_cons, forall_eq_or_imp, true_and]
          rw [← ih false ps (by simp only [List.length_cons] at hpat; omega)]
          constructor
          · rintro ⟨m, ⟨run, _, heq⟩, hm⟩
            obtain ⟨_, rfl⟩ := List.append_eq_nil_iff.mp heq.symm
            exact hm
          · exact fun hm => ⟨[], ⟨[], List.not_mem_nil, rfl⟩, hm⟩
      | one ps =>
          rw [elementRounds_one]
          refine ⟨fun ⟨m, ⟨c, _, heq⟩, _⟩ => absurd heq (by simp), fun h => ?_⟩
          exact absurd (h 63 List.mem_cons_self) (by decide)
      | cls ps =>
          rw [elementRounds_cls]
          refine ⟨fun ⟨m, ⟨c, _, heq⟩, _⟩ => absurd heq (by simp), fun h => ?_⟩
          exact absurd (h 91 List.mem_cons_self) (by decide)
      | lit p ps hstar hone hcls =>
          rw [elementRounds_lit hstar hone hcls]
          refine ⟨fun ⟨m, hm, _⟩ => absurd hm (List.cons_ne_nil p m).symm, fun h => ?_⟩
          exact absurd (h p List.mem_cons_self) hstar

theorem globRounds_nil (n : Nat) (pat : CStr) (hpat : pat.length ≤ n) :
    globRounds n pat [] = true ↔ ∀ c ∈ pat, c = 42 := by
  rcases pat with _ | ⟨p, ps⟩
  · cases n <;> exact ⟨fun _ c hc => absurd hc List.not_mem_nil, fun _ => rfl⟩
  · rcases n with _ | n
    · exact absurd hpat (by simp)
    · simp [globRounds, List.isEmpty_iff, List.dropWhile_eq_nil_iff]

theorem globRounds_iff (n : Nat) : ∀ (leading : Bool) (pat str : CStr), pat.length ≤ n →
    (globRounds n pat str = true ↔ Through Elem.Takes (elementRounds n leading pat) str []) := by
  induction n with
  | zero =>
      intro leading pat str _
      rw [globRounds, List.isEmpty_iff]
      exact Iff.rfl
  | succ n ih =>
      intro leading pat str hpat
      rcases str with _ | ⟨c, cs⟩
      · rw [through_nil_iff _ _ _ hpat, globRounds_nil _ _ hpat]
      cases form pat with
      | nil =>
          rw [elementRounds_nil, globRounds, List.isEmpty_iff]
          exact Iff.rfl
      | dirs ps =>
          simp only [List.length_cons] at hpat
          have hrest := fun t => ih true ps t (by omega)
          have hturn : globRounds (n + 1) (42 :: 42 :: 47 :: ps) (c :: cs) =
              (globRounds n ps (c :: cs) || afterSlashes (globRounds n ps) (c :: cs)) := rfl
          rw [elementRounds_dirs, hturn, Bool.or_eq_true, afterSlashes_iff, hrest]
          constructor
          · rintro (h | ⟨run, t, heq, h⟩)
            · exact ⟨c :: cs, Or.inl ⟨rfl, List.cons_ne_nil c cs⟩, h⟩
            · exact ⟨t, Or.inr ⟨run, heq⟩, (hrest t).mp h⟩
          · rintro ⟨t, ⟨heq, _⟩ | ⟨run, heq⟩, h⟩
            · exact Or.inl (heq ▸ h)
            · exact Or.inr ⟨run, t, heq, (hrest t).mpr h⟩
      | any ps hslash =>
          simp only [List.length_cons] at hpat
          have hrest := fun t => ih false ps t (by omega)
          rw [elementRounds_any hslash]
          rcases ps with _ | ⟨q, qs⟩
          · -- two stars at the end match all that is left
            rw [elementRounds_nil]
            exact ⟨fun _ => ⟨[], ⟨c :: cs, (List.append_nil _).symm⟩, rfl⟩, fun _ => rfl⟩
          · have hq : q ≠ 47 := by simpa using hslash
            have hturn : globRounds (n + 1) (42 :: 42 :: q :: qs) (c :: cs) =
                anywhere (globRounds n (q :: qs)) (c :: cs) := by
              simp [globRounds, globMatchDoublestar, hq]
            rw [hturn, anywhere_iff]
            constructor
            · rintro ⟨run, t, heq, h⟩
              exact ⟨t, ⟨run, heq⟩, (hrest t).mp h⟩
            · rintro ⟨t, ⟨run, heq⟩, h⟩
              exact ⟨run, t, heq, (hrest t).mpr h⟩
      | star ps hstar =>
          simp only [List.length_cons] at hpat
          have hrest := fun t => ih false ps t (by omega)
          have hturn : globRounds (n + 1) (42 :: ps) (c :: cs) =
              globMatchStar (globRounds n ps) (c :: cs) := by
            rcases ps with _ | ⟨q, qs⟩
            · rfl
            · have hq : q ≠ 42 := by simpa using hstar
              simp [globRounds, hq]
          rw [elementRounds_star hstar, hturn, globMatchStar_iff]
          constructor
          · rintro ⟨run, t, hrun, heq, h⟩
            exact ⟨t, ⟨run, hrun, heq⟩, (hrest t).mp h⟩
          · rintro ⟨t, ⟨run, hrun, heq⟩, h⟩
            exact ⟨run, t, hrun, heq, (hrest t).mpr h⟩
      | one ps =>
          simp only [List.length_cons] at hpat
          have hturn : globRounds (n + 1) (63 :: ps) (c :: cs) =
              (c != 47 && globRounds n ps cs) := by
            by_cases hc : c = 47 <;> simp [globRounds, hc]
          rw [elementRounds_one, hturn, Bool.and_eq_true, bne_iff_ne, ih false ps cs (by omega)]
          constructor
          · exact fun ⟨hc, h⟩ => ⟨cs, ⟨c, hc, rfl⟩, h⟩
          · rintro ⟨t, ⟨d, hd, heq⟩, h⟩
            obtain ⟨rfl, rfl⟩ := List.cons.inj heq
            exact ⟨hd, h⟩
      | cls ps =>
          simp only [List.length_cons] at hpat
          have hshort := (globMatchCharclass_suffix ps 0).length_le
          have hturn : globRounds (n + 1) (91 :: ps) (c :: cs) =
              ((globMatchCharclass ps c).1 && globRounds n (globMatchCharclass ps 0).2 cs) := by
            rw [← globMatchCharclass_rest ps 0 c]
            cases h : (globMatchCharclass ps c).1 <;> simp [globRounds, h]
          rw [elementRounds_cls, hturn, Bool.and_eq_true, ih false _ cs (by omega)]
          constructor
          · exact fun ⟨hc, h⟩ => ⟨cs, ⟨c, hc, rfl⟩, h⟩
          · rintro ⟨t, ⟨d, hd, heq⟩, h⟩
            obtain ⟨rfl, rfl⟩ := List.cons.inj heq
            exact ⟨hd, h⟩
      | lit p ps hstar hone hcls =>
          simp only [List.length_cons] at hpat
          have hturn : globRounds (n + 1) (p :: ps) (c :: cs) =
              (p == c && globRounds n ps cs) := by
            by_cases hc : p = c
            · subst hc
              simp [globRounds, hstar, hone, hcls]
            · simp [globRounds, hstar, hone, hcls, hc]
          rw [elementRounds_lit hstar hone hcls, hturn, Bool.and_eq_true, beq_iff_eq,
            ih _ ps cs (by omega)]
          constructor
          · rintro ⟨rfl, h⟩
            exact ⟨cs, rfl, h⟩
          · rintro ⟨t, heq, h⟩
            obtain ⟨rfl, rfl⟩ := List.cons.inj heq
            exact ⟨rfl, h⟩

theorem globMatch_iff (pat str : CStr) :
    globMatch pat str = true ↔ Through Elem.Takes (elements pat) str [] :=
  globRounds_iff pat.length true pat str (Nat.le_refl _)

def Elem.slashes : Elem → Nat
  | .lit c => if c = 47 then 1 else 0
  | .cls _ text => text.count 47
  | .dirs _ => 1
  | _ => 0

/-- Each `**/` is marked as what stands before it says. -/
def Led : Bool → List Elem → Prop
  | _, [] => True
  | leading, .dirs l :: es => l = leading ∧ Led true es
  | _, .lit c :: es => Led (c = 47) es
  | _, _ :: es => Led false es

theorem elementRounds_slashes (n : Nat) : ∀ (leading : Bool) (pat : CStr), pat.length ≤ n →
    ((elementRounds n leading pat).map Elem.slashes).sum = pat.count 47 := by
  induction n with
  | zero =>
      intro leading pat hpat
      obtain rfl := List.eq_nil_of_length_eq_zero (Nat.le_zero.mp hpat)
      rfl
  | succ n ih =>
      intro leading pat hpat
      cases form pat with
      | nil => rfl
      | dirs ps =>
          simp only [List.length_cons] at hpat
          simp [elementRounds_dirs, Elem.slashes, ih true ps (by omega), Nat.add_comm]
      | any ps h =>
          simp only [List.length_cons] at hpat
          simp [elementRounds_any h, Elem.slashes, ih false ps (by omega)]
      | star ps h =>
          simp only [List.length_cons] at hpat
          simp [elementRounds_star h, Elem.slashes, ih false ps (by omega)]
      | one ps =>
          simp only [List.length_cons] at hpat
          simp [elementRounds_one, Elem.slashes, ih false ps (by omega)]
      | cls ps =>
          simp only [List.length_cons] at hpat
          obtain ⟨text, htext⟩ := globMatchCharclass_suffix ps 0
          have hlength := congrArg List.length htext
          rw [List.length_append] at hlength
          have htake : ps.take (ps.length - (globMatchCharclass ps 0).2.length) = text := by
            have hk : ps.length - (globMatchCharclass ps 0).2.length = text.length := by omega
            rw [hk]
            nth_rewrite 1 [← htext]
            exact List.take_left
          rw [elementRounds_cls, List.map_cons, List.sum_cons, ih false _ (by omega), htake,
            Elem.slashes, ← List.count_append, htext, List.count_cons_of_ne (by decide)]
      | lit p ps hstar hone hcls =>
          simp only [List.length_cons] at hpat
          rw [elementRounds_lit hstar hone hcls, List.map_cons, List.sum_cons,
            ih _ ps (by omega), Elem.slashes, List.count_cons, Nat.add_comm]
          simp

theorem elements_slashes (pat : CStr) :
    ((elements pat).map Elem.slashes).sum = pat.count 47 :=
  elementRounds_slashes pat.length true pat (Nat.le_refl _)

theorem elementRounds_led (n : Nat) : ∀ (leading : Bool) (pat : CStr),
    Led leading (elementRounds n leading pat) := by
  induction n with
  | zero => exact fun _ _ => trivial
  | succ n ih =>
      intro leading pat
      cases form pat with
      | nil => trivial
      | dirs ps => exact ⟨rfl, ih true ps⟩
      | any ps h =>
          rw [elementRounds_any h]
          exact ih false ps
      | star ps h =>
          rw [elementRounds_star h]
          exact ih false ps
      | one ps => exact ih false ps
      | cls ps => exact ih false _
      | lit p ps hstar hone hcls =>
          rw [elementRounds_lit hstar hone hcls]
          exact ih (p = 47) ps

theorem elements_led (pat : CStr) : Led true (elements pat) :=
  elementRounds_led pat.length true pat

theorem mem_of_lit_mem (n : Nat) {c : UInt8} : ∀ (leading : Bool) (pat : CStr),
    Elem.lit c ∈ elementRounds n leading pat → c ∈ pat := by
  induction n with
  | zero => exact fun _ _ h => absurd h List.not_mem_nil
  | succ n ih =>
      intro leading pat h
      cases form pat with
      | nil => exact absurd h List.not_mem_nil
      | dirs ps =>
          have := ih true ps (by simpa [elementRounds_dirs] using h)
          simp [this]
      | any ps hany =>
          have := ih false ps (by simpa [elementRounds_any hany] using h)
          simp [this]
      | star ps hstar =>
          have := ih false ps (by simpa [elementRounds_star hstar] using h)
          simp [this]
      | one ps =>
          have := ih false ps (by simpa [elementRounds_one] using h)
          simp [this]
      | cls ps =>
          have := ih false _ (by simpa [elementRounds_cls] using h)
          exact List.mem_cons_of_mem _ ((globMatchCharclass_suffix ps 0).subset this)
      | lit p ps hstar hone hcls =>
          rw [elementRounds_lit hstar hone hcls] at h
          rcases List.mem_cons.mp h with heq | h
          · exact Elem.lit.inj heq ▸ List.mem_cons_self
          · exact List.mem_cons_of_mem _ (ih _ ps h)

end Discover
end CodebaseMemory
