import CodebaseMemory.Discover.GlobSyntax

/-!
# The language of a glob (`src/discover/gitignore.c`)

When `glob_match` is true for exactly the texts that its syntax says.

The texts of the converse have as few slashes, or as few other characters, as the
pattern allows.
-/

namespace CodebaseMemory
namespace Discover

open Lib
open Sqlite (CStr bytesOf)

/-- The other characters that an element has by the syntax. -/
def Elem.bare : Elem → Nat
  | .lit c => if c = 47 then 0 else 1
  | .one => 1
  | .cls _ _ => 1
  | _ => 0

/-- The other characters that the code needs. -/
def Elem.bareTaken : Elem → Nat
  | .cls accepts _ => if accepts 47 then 0 else 1
  | e => e.bare

/-- The slash of an element that has no wildcard. -/
def Elem.fixed : Elem → Nat
  | .lit c => if c = 47 then 1 else 0
  | _ => 0

/-- Whether an element is a `**/` that does not begin a component. -/
def Elem.inner : Elem → Bool
  | .dirs leading => !leading
  | _ => false

/-- How many characters other than a slash a text has. -/
def bareCount (s : CStr) : Nat :=
  s.countP fun c => c != 47

/-- The slashes that an element has by the syntax. -/
def Elem.bound (e : Elem) : Nat :=
  e.fixed + if e.inner then 1 else 0

/-- The slash that a `**/` has where nothing follows. -/
def Elem.trail : Elem → Nat
  | .dirs _ => 1
  | _ => 0

section Small

variable {es : List Elem} {s t : CStr}

theorem Elem.Denotes.bare_le {e : Elem} (h : e.Denotes s t) :
    bareCount t + e.bare ≤ bareCount s := by
  cases e with
  | lit c =>
      obtain rfl : s = c :: t := h
      by_cases hc : c = 47 <;> simp [bareCount, Elem.bare, hc]
  | one =>
      obtain ⟨c, hc, rfl⟩ := h
      simp [bareCount, Elem.bare, hc]
  | cls accepts text =>
      obtain ⟨c, hc, _, rfl⟩ := h
      simp [bareCount, Elem.bare, hc]
  | star => exact h.suffix.sublist.countP_le
  | any => exact h.suffix.sublist.countP_le
  | dirs leading => exact h.suffix.sublist.countP_le

theorem Elem.Denotes.bound_le {e : Elem} (h : e.Denotes s t) :
    t.count 47 + e.bound ≤ s.count 47 := by
  cases e with
  | lit c =>
      obtain rfl : s = c :: t := h
      by_cases hc : c = 47 <;> simp [Elem.bound, Elem.fixed, Elem.inner, hc]
  | one => exact h.suffix.sublist.count_le 47
  | cls accepts text => exact h.suffix.sublist.count_le 47
  | star => exact h.suffix.sublist.count_le 47
  | any => exact h.suffix.sublist.count_le 47
  | dirs leading =>
      cases leading with
      | true => exact h.suffix.sublist.count_le 47
      | false =>
          obtain ⟨hfalse, _⟩ | ⟨run, rfl⟩ := h
          · exact absurd hfalse (by decide)
          · simp [Elem.bound, Elem.fixed, Elem.inner]

theorem denotes_bare_le (h : Through Elem.Denotes es s t) :
    bareCount t + (es.map Elem.bare).sum ≤ bareCount s :=
  h.cost_le fun _ _ _ _ hstep => hstep.bare_le

theorem denotes_bound_le (h : Through Elem.Denotes es s t) :
    t.count 47 + (es.map Elem.bound).sum ≤ s.count 47 :=
  @Through.cost_le _ _ _ (List.count 47) _ _ (fun _ _ _ _ hstep => hstep.bound_le) _ _ h

section Members

variable (hlit : ∀ c, .lit c ∈ es → c ≠ 0)
variable (hmember : ∀ accepts text, .cls accepts text ∈ es → ∃ c, c ≠ 0 ∧ accepts c = true)

include hlit hmember

theorem exists_few_bare :
    ∃ s, Through Elem.Takes es s [] ∧ 0 ∉ s ∧ bareCount s = (es.map Elem.bareTaken).sum := by
  have hstep : ∀ e ∈ es, ∀ t : CStr, 0 ∉ t →
      ∃ s, e.Takes s t ∧ 0 ∉ s ∧ bareCount s = bareCount t + e.bareTaken := by
    intro e he t ht
    cases e with
    | lit c =>
        refine ⟨c :: t, rfl, List.not_mem_cons_of_ne_of_not_mem (hlit c he).symm ht, ?_⟩
        by_cases hc : c = 47 <;> simp [bareCount, Elem.bareTaken, Elem.bare, hc]
    | one =>
        refine ⟨98 :: t, ⟨98, by decide, rfl⟩, by simpa using ht, ?_⟩
        simp [bareCount, Elem.bareTaken, Elem.bare]
    | cls accepts text =>
        by_cases haccepts : accepts 47 = true
        · refine ⟨47 :: t, ⟨47, haccepts, rfl⟩, by simpa using ht, ?_⟩
          simp [bareCount, Elem.bareTaken, haccepts]
        · obtain ⟨c, hzero, hc⟩ := hmember accepts text he
          have hne : c ≠ 47 := fun heq => haccepts (heq ▸ hc)
          refine ⟨c :: t, ⟨c, hc, rfl⟩, List.not_mem_cons_of_ne_of_not_mem hzero.symm ht, ?_⟩
          simp [bareCount, Elem.bareTaken, haccepts, hne]
    | star => exact ⟨t, ⟨[], List.not_mem_nil, rfl⟩, ht, rfl⟩
    | any => exact ⟨t, ⟨[], rfl⟩, ht, rfl⟩
    | dirs leading =>
        refine ⟨47 :: t, Or.inr ⟨[], rfl⟩, by simpa using ht, ?_⟩
        simp [bareCount, Elem.bareTaken, Elem.bare]
  obtain ⟨s, hs, hzero, hcount⟩ := exists_through hstep (@List.not_mem_nil _ 0)
  exact ⟨s, hs, hzero, hcount.trans (Nat.zero_add _)⟩

theorem exists_few_slashes (hslash : ∀ accepts text, .cls accepts text ∈ es → accepts 47 = false)
    (ht : t ≠ []) (hzero : 0 ∉ t) :
    ∃ s, Through Elem.Takes es s t ∧ (s ≠ [] ∧ 0 ∉ s) ∧
      s.count 47 = t.count 47 + (es.map Elem.fixed).sum := by
  refine exists_through (fun e he t ht => ?_) ⟨ht, hzero⟩
  obtain ⟨hne, hzero⟩ := ht
  cases e with
  | lit c =>
      refine ⟨c :: t, rfl, ⟨List.cons_ne_nil c t,
        List.not_mem_cons_of_ne_of_not_mem (hlit c he).symm hzero⟩, ?_⟩
      by_cases hc : c = 47 <;> simp [Elem.fixed, hc]
  | one =>
      exact ⟨98 :: t, ⟨98, by decide, rfl⟩, ⟨List.cons_ne_nil 98 t, by simpa using hzero⟩, by
        simp [Elem.fixed]⟩
  | cls accepts text =>
      obtain ⟨c, hc0, hc⟩ := hmember accepts text he
      have hc47 : c ≠ 47 := by
        rintro rfl
        exact absurd hc (by simp [hslash accepts text he])
      exact ⟨c :: t, ⟨c, hc, rfl⟩, ⟨List.cons_ne_nil c t,
        List.not_mem_cons_of_ne_of_not_mem hc0.symm hzero⟩, by simp [Elem.fixed, hc47]⟩
  | star => exact ⟨t, ⟨[], List.not_mem_nil, rfl⟩, ⟨hne, hzero⟩, rfl⟩
  | any => exact ⟨t, ⟨[], rfl⟩, ⟨hne, hzero⟩, rfl⟩
  | dirs leading => exact ⟨t, Or.inl ⟨rfl, hne⟩, ⟨hne, hzero⟩, rfl⟩

theorem exists_short (hslash : ∀ accepts text, .cls accepts text ∈ es → accepts 47 = false)
    (hdirs : .dirs false ∉ es) :
    ∃ s, InLanguage es s ∧ 0 ∉ s ∧ s.length = (es.map Elem.width).sum := by
  have hstep : ∀ e ∈ es, ∀ t : CStr, 0 ∉ t →
      ∃ s, e.Denotes s t ∧ 0 ∉ s ∧ s.length = t.length + e.width := by
    intro e he t hzero
    cases e with
    | lit c => exact ⟨c :: t, rfl, List.not_mem_cons_of_ne_of_not_mem (hlit c he).symm hzero, rfl⟩
    | one => exact ⟨98 :: t, ⟨98, by decide, rfl⟩, by simpa using hzero, rfl⟩
    | cls accepts text =>
        obtain ⟨c, hc0, hc⟩ := hmember accepts text he
        have hc47 : c ≠ 47 := by
          rintro rfl
          exact absurd hc (by simp [hslash accepts text he])
        exact ⟨c :: t, ⟨c, hc47, hc, rfl⟩, List.not_mem_cons_of_ne_of_not_mem hc0.symm hzero, rfl⟩
    | star => exact ⟨t, ⟨[], List.not_mem_nil, rfl⟩, hzero, rfl⟩
    | any => exact ⟨t, ⟨[], rfl⟩, hzero, rfl⟩
    | dirs leading =>
        cases leading with
        | true => exact ⟨t, Or.inl ⟨rfl, rfl⟩, hzero, rfl⟩
        | false => exact absurd he hdirs
  obtain ⟨s, hs, hzero, hlength⟩ := exists_through hstep (@List.not_mem_nil _ 0)
  exact ⟨s, hs, hzero, hlength.trans (Nat.zero_add _)⟩

theorem exists_ne_nil (hslash : ∀ accepts text, .cls accepts text ∈ es → accepts 47 = false)
    {front : List Elem} {e : Elem} (hes : es = front ++ [e]) :
    ∃ s, Through Elem.Takes es s [] ∧ s ≠ [] ∧ 0 ∉ s ∧
      s.count 47 = (es.map Elem.fixed).sum + e.trail := by
  have he : e ∈ es := hes ▸ List.mem_append_right _ List.mem_cons_self
  have hlast : ∃ t, e.Takes t [] ∧ t ≠ [] ∧ 0 ∉ t ∧ t.count 47 = e.fixed + e.trail := by
    cases e with
    | lit c =>
        refine ⟨[c], rfl, List.cons_ne_nil c [], by simpa using (hlit c he).symm, ?_⟩
        by_cases hc : c = 47 <;> simp [Elem.fixed, Elem.trail, hc]
    | one =>
        exact ⟨[98], ⟨98, by decide, rfl⟩, List.cons_ne_nil _ _, by decide, by decide⟩
    | cls accepts text =>
        obtain ⟨c, hc0, hc⟩ := hmember accepts text he
        have hc47 : c ≠ 47 := by
          rintro rfl
          exact absurd hc (by simp [hslash accepts text he])
        exact ⟨[c], ⟨c, hc, rfl⟩, List.cons_ne_nil c [], by simpa using hc0.symm, by
          simp [Elem.fixed, Elem.trail, hc47]⟩
    | star =>
        exact ⟨[98], ⟨[98], by decide, rfl⟩, List.cons_ne_nil _ _, by decide, by decide⟩
    | any => exact ⟨[98], ⟨[98], rfl⟩, List.cons_ne_nil _ _, by decide, by decide⟩
    | dirs leading =>
        exact ⟨[47], Or.inr ⟨[], rfl⟩, List.cons_ne_nil _ _, by decide, by
          simp [Elem.fixed, Elem.trail]⟩
  obtain ⟨t, hlast, hne, hzero, hcount⟩ := hlast
  subst hes
  obtain ⟨s, hs, ⟨hsne, hszero⟩, hscount⟩ := @exists_few_slashes front t
    (fun c hc => hlit c (List.mem_append_left _ hc))
    (fun accepts text hc => hmember accepts text (List.mem_append_left _ hc))
    (fun accepts text hc => hslash accepts text (List.mem_append_left _ hc)) hne hzero
  refine ⟨s, (through_append _).mpr ⟨t, hs, through_singleton.mpr hlast⟩, hsne, hszero, ?_⟩
  rw [hscount, hcount, List.map_append, List.sum_append, List.map_singleton, List.sum_singleton]
  omega

end Members

theorem sum_bound (es : List Elem) :
    (es.map Elem.bound).sum = (es.map Elem.fixed).sum + es.countP Elem.inner := by
  induction es with
  | nil => rfl
  | cons e es ih =>
      rw [List.map_cons, List.sum_cons, List.map_cons, List.sum_cons, List.countP_cons, ih,
        Elem.bound]
      omega

end Small

/-- The code and the syntax agree, on the empty text only without `**`. -/
def Agree (es : List Elem) : Prop :=
  ∀ s : CStr, 0 ∉ s → (s = [] → ∀ e ∈ es, e.double = false) →
    (Through Elem.Takes es s [] ↔ InLanguage es s)

section Converse

variable {es : List Elem}
variable (hlit : ∀ c, .lit c ∈ es → c ≠ 0)
variable (hmember : ∀ accepts text, .cls accepts text ∈ es → ∃ c, c ≠ 0 ∧ accepts c = true)

include hlit hmember

theorem slash_of_agree (h : Agree es) {accepts : UInt8 → Bool} {text : CStr}
    (hmem : .cls accepts text ∈ es) : accepts 47 = false := by
  by_contra haccepts
  rw [Bool.not_eq_false] at haccepts
  obtain ⟨s, hs, hzero, hcount⟩ := exists_few_bare hlit hmember
  have hne : s ≠ [] := ne_nil_of_width (fun _ _ _ => Elem.Takes.width_le) hmem rfl hs
  have hlanguage := (h s hzero fun hnil => absurd hnil hne).mp hs
  have hle : bareCount [] + (es.map Elem.bare).sum ≤ bareCount s := denotes_bare_le hlanguage
  have hsum : ∀ l : List Elem, (l.map Elem.bareTaken).sum ≤ (l.map Elem.bare).sum := by
    intro l
    refine List.sum_le_sum fun e _ => ?_
    cases e with
    | cls accepts text => simp only [Elem.bareTaken, Elem.bare]; split <;> omega
    | _ => exact Nat.le_refl _
  obtain ⟨front, back, rfl⟩ := List.append_of_mem hmem
  have hfront := hsum front
  have hback := hsum back
  simp only [List.map_append, List.sum_append, List.map_cons, List.sum_cons, Elem.bareTaken,
    haccepts, if_true, Elem.bare] at hcount hle
  omega

theorem inner_le_of_agree (h : Agree es)
    (hslash : ∀ accepts text, .cls accepts text ∈ es → accepts 47 = false)
    {front : List Elem} {e : Elem} (hes : es = front ++ [e]) : es.countP Elem.inner ≤ e.trail := by
  obtain ⟨s, hs, hne, hzero, hcount⟩ := exists_ne_nil hlit hmember hslash hes
  have hlanguage := (h s hzero fun hnil => absurd hnil hne).mp hs
  have hle := denotes_bound_le hlanguage
  rw [sum_bound, List.count_nil] at hle
  omega

theorem width_of_agree (h : Agree es)
    (hslash : ∀ accepts text, .cls accepts text ∈ es → accepts 47 = false)
    (hdirs : .dirs false ∉ es) {front back : List Elem} {leading : Bool}
    (hes : es = front ++ .dirs leading :: back) (hback : ∀ e ∈ back, e.width = 0) :
    (es.map Elem.width).sum = 0 := by
  obtain ⟨s, hs, hzero, hlength⟩ := exists_short hlit hmember hslash hdirs
  by_contra hwidth
  have hne : s ≠ [] := by
    rintro rfl
    exact hwidth hlength.symm
  have htakes := (h s hzero fun hnil => absurd hnil hne).mpr hs
  have hzeros : (back.map Elem.width).sum = 0 :=
    List.sum_eq_zero fun n hn => by
      obtain ⟨e, he, rfl⟩ := List.mem_map.mp hn
      exact hback e he
  subst hes
  obtain ⟨m, hfront, m', hstep, _⟩ := (through_append front).mp htakes
  have hle : m.length + (front.map Elem.width).sum ≤ s.length :=
    hfront.cost_le fun _ _ _ _ hstep => hstep.width_le
  have hpos : 0 < m.length := by
    rcases hstep with ⟨rfl, hm⟩ | ⟨run, rfl⟩
    · exact List.length_pos_of_ne_nil hm
    · simp
  simp only [List.map_append, List.sum_append, List.map_cons, List.sum_cons, Elem.width,
    hzeros] at hlength
  omega

end Converse

theorem closed_append (cs cs' : List (List Elem)) : closed (cs ++ cs') = closed cs ++ closed cs' :=
  List.flatMap_append

theorem sum_fixed_closed (cs : List (List Elem)) :
    cs.length ≤ ((closed cs).map Elem.fixed).sum := by
  induction cs with
  | nil => exact Nat.le_refl _
  | cons c cs ih =>
      simp only [closed_cons, List.map_append, List.sum_append, List.length_cons,
        List.map_cons, List.map_nil, List.sum_cons, List.sum_nil, Elem.fixed, if_true]
      omega

theorem sum_fixed_eq_zero {c : List Elem} (h : .lit 47 ∉ c) : (c.map Elem.fixed).sum = 0 := by
  refine List.sum_eq_zero fun n hn => ?_
  obtain ⟨e, he, rfl⟩ := List.mem_map.mp hn
  cases e with
  | lit d =>
      have hd : d ≠ 47 := by
        rintro rfl
        exact h he
      simp [Elem.fixed, hd]
  | _ => rfl

theorem sum_fixed_le_bound (es : List Elem) :
    (es.map Elem.fixed).sum ≤ (es.map Elem.bound).sum :=
  sum_bound es ▸ Nat.le_add_right _ _

theorem length_le_of_denotes {es : List Elem} (hstar : ∀ e ∈ es, e ≠ .star ∧ e ≠ .any) :
    ∀ {s t : CStr}, Through Elem.Denotes es s t →
      s.length ≤ t.length + (es.map Elem.width).sum ∨ t.count 47 < s.count 47 := by
  induction es with
  | nil =>
      rintro s t rfl
      exact Or.inl (Nat.le_refl _)
  | cons e es ih =>
      rintro s t ⟨m, hstep, hm⟩
      have hmono := hstep.suffix.sublist.count_le 47
      have hrest := (hm.suffix fun _ _ _ _ => Elem.Denotes.suffix).sublist.count_le 47
      rw [List.map_cons, List.sum_cons]
      rcases ih (fun e he => hstar e (List.mem_cons_of_mem _ he)) hm with hle | hlt
      · cases e with
        | lit c =>
            obtain rfl : s = c :: m := hstep
            exact Or.inl (by simp only [List.length_cons, Elem.width]; omega)
        | one =>
            obtain ⟨c, _, rfl⟩ := hstep
            exact Or.inl (by simp only [List.length_cons, Elem.width]; omega)
        | cls accepts text =>
            obtain ⟨c, _, _, rfl⟩ := hstep
            exact Or.inl (by simp only [List.length_cons, Elem.width]; omega)
        | star => exact absurd rfl (hstar _ List.mem_cons_self).1
        | any => exact absurd rfl (hstar _ List.mem_cons_self).2
        | dirs leading =>
            rcases hstep with ⟨_, rfl⟩ | ⟨run, rfl⟩
            · exact Or.inl (by simp only [Elem.width]; omega)
            · refine Or.inr ?_
              rw [List.count_append, List.count_cons_self]
              omega
      · exact Or.inr (by omega)

section Name

variable {es : List Elem}
variable (hlit : ∀ c, .lit c ∈ es → c ≠ 0)
variable (hmember : ∀ accepts text, .cls accepts text ∈ es → ∃ c, c ≠ 0 ∧ accepts c = true)

include hlit hmember

omit hlit hmember in
theorem slash_suffix_closed {front : List Elem} {cs : List (List Elem)} {s t : CStr}
    (h : Through Elem.Denotes (front ++ .dirs false :: closed cs) s t) : 47 :: t <:+ s := by
  obtain ⟨m, hfront, m', hdirs, hm⟩ := (through_append front).mp h
  have hm' : m <:+ s := hfront.suffix fun _ _ _ _ => Elem.Denotes.suffix
  rcases hdirs with ⟨hfalse, _⟩ | ⟨run, rfl⟩
  · exact absurd hfalse (by decide)
  have hrun : 47 :: m' <:+ s := (List.suffix_append run _).trans hm'
  by_cases hcs : cs = []
  · subst hcs
    obtain rfl : m' = t := hm
    exact hrun
  · have hlast := (@closed_slashes t Elem.Denotes (fun _ _ _ => Elem.Denotes.suffix)
      (fun _ _ h => h) cs m' hm).2 hcs
    exact hlast.trans ((List.suffix_cons 47 m').trans hrun)

theorem name_of_agree (h : Agree es)
    (hslash : ∀ accepts text, .cls accepts text ∈ es → accepts 47 = false)
    {front c : List Elem} {cs cs' : List (List Elem)} {n : Nat}
    (hes : es = front ++ .dirs false :: (closed (cs ++ c :: cs') ++ List.replicate n (.dirs true)))
    (hn : 0 < n) (hcs : ∀ c ∈ cs', Component c) (hc : .lit 47 ∉ c) {u : CStr} (hu : 47 ∉ u)
    (hzero : 0 ∉ u) : ∃ m, Through Elem.Denotes c (u ++ 47 :: m) (47 :: m) := by
  have hparts : es = (front ++ .dirs false :: closed cs) ++ ((c ++ [.lit 47]) ++
      (closed cs' ++ List.replicate n (.dirs true))) := by
    rw [hes, closed_append, closed_cons]
    simp
  -- the text for the components behind
  have hcount : (u ++ 47 :: List.replicate cs'.length 47).count 47 = cs'.length + 1 := by
    rw [List.count_append, List.count_eq_zero.mpr hu, List.count_cons_self,
      List.count_replicate_self, Nat.zero_add]
  have hcloses : Closes (cs'.length + 1) (u ++ 47 :: List.replicate cs'.length 47) := by
    refine ⟨hcount.ge, ?_⟩
    rw [← List.replicate_succ, List.replicate_succ']
    exact (List.suffix_append _ [47]).trans (List.suffix_append u _)
  obtain ⟨m, hm, hend⟩ := exists_closed_left hcs hcloses
  have hback := (through_append _).mpr ⟨m, hm, takes_dirs_of_end hn hend.2⟩
  have hback0 : 0 ∉ u ++ 47 :: List.replicate cs'.length 47 := by
    simp [hzero]
  generalize hy : u ++ 47 :: List.replicate cs'.length 47 = y at *
  -- the text before them, with the fewest slashes
  have hmem : ∀ e, e ∈ (front ++ .dirs false :: closed cs) ++ (c ++ [.lit 47]) → e ∈ es := by
    intro e he
    rw [hparts, ← List.append_assoc]
    exact List.mem_append_left _ he
  obtain ⟨s, hs, ⟨hne, hs0⟩, hscount⟩ := @exists_few_slashes
    ((front ++ .dirs false :: closed cs) ++ (c ++ [.lit 47])) y
    (fun c hc => hlit c (hmem _ hc)) (fun accepts text hc => hmember accepts text (hmem _ hc))
    (fun accepts text hc => hslash accepts text (hmem _ hc)) hcloses.ne_nil hback0
  have htakes : Through Elem.Takes es s [] := by
    rw [hparts, ← List.append_assoc]
    exact (through_append _).mpr ⟨y, hs, hback⟩
  have hlanguage := (h s hs0 fun hnil => absurd hnil hne).mp htakes
  rw [hparts] at hlanguage
  obtain ⟨m₁, hbefore, hrest⟩ := (through_append _).mp hlanguage
  obtain ⟨m₃, hname, hafter⟩ := (through_append _).mp hrest
  -- no slash is left over, so the parts of the two readings are the same
  have hcounts : m₁.count 47 = cs'.length + 1 ∧ m₃.count 47 = cs'.length := by
    have hle₁ := denotes_bound_le hbefore
    have hle₂ := denotes_bound_le hname
    have hle₃ := denotes_bound_le hafter
    have hinner : 0 < (front ++ .dirs false :: closed cs).countP Elem.inner :=
      List.countP_pos_iff.mpr ⟨.dirs false, by simp, rfl⟩
    have hfixed := sum_fixed_le_bound (c ++ [.lit 47])
    have hclosed := sum_fixed_closed cs'
    have hback := sum_fixed_le_bound (closed cs' ++ List.replicate n (.dirs true))
    have hlast : ((c ++ [Elem.lit 47]).map Elem.fixed).sum = 1 := by
      rw [List.map_append, List.sum_append, sum_fixed_eq_zero hc]
      rfl
    rw [sum_bound] at hle₁
    rw [List.map_append, List.sum_append, hcount] at hscount
    simp only [List.map_append (f := Elem.fixed), List.sum_append, List.count_nil] at hback hle₃ ⊢
    omega
  obtain ⟨hcount₁, hcount₃⟩ := hcounts
  have hy₁ : m₁ = y := by
    obtain ⟨m', hm', hslash'⟩ := (through_append _).mp hs
    obtain ⟨m'', hc', hlast⟩ := (through_append _).mp hslash'
    obtain rfl : m'' = 47 :: y := through_singleton.mp hlast
    have hsuffix : 47 :: y <:+ s := (hc'.suffix fun _ _ _ _ => Elem.Takes.suffix).trans
      (hm'.suffix fun _ _ _ _ => Elem.Takes.suffix)
    exact suffix_eq_of_count (slash_suffix_closed hbefore) hsuffix (hcount₁.trans hcount.symm)
  obtain ⟨m', hc', hlast⟩ := (through_append _).mp hname
  obtain rfl : m' = 47 :: m₃ := through_singleton.mp hlast
  subst hy₁ hy
  have hthird : m₃ = List.replicate cs'.length 47 :=
    suffix_eq_of_count (hc'.suffix fun _ _ _ _ => Elem.Denotes.suffix) (List.suffix_append u _)
      (hcount₃.trans List.count_replicate_self.symm)
  subst hthird
  exact ⟨_, hc'⟩

theorem component_of_agree (h : Agree es)
    (hslash : ∀ accepts text, .cls accepts text ∈ es → accepts 47 = false) {front : List Elem}
    {n : Nat} (hn : 0 < n) (cs' : List (List Elem)) : ∀ {cs : List (List Elem)},
      es = front ++ .dirs false :: (closed (cs ++ cs') ++ List.replicate n (.dirs true)) →
        (∀ c ∈ cs', .lit 47 ∉ c ∧ .dirs false ∉ c) → ∀ c ∈ cs', Component c := by
  induction cs' with
  | nil => exact fun _ _ c hc => absurd hc List.not_mem_nil
  | cons c cs' ih =>
      intro cs hes hmem
      have hcs' : ∀ c ∈ cs', Component c :=
        @ih (cs ++ [c]) (by rw [hes, List.append_assoc, List.singleton_append])
          fun c hc => hmem c (List.mem_cons_of_mem _ hc)
      obtain ⟨hslash47, hfalse⟩ := hmem c List.mem_cons_self
      have hname := fun u => @name_of_agree es hlit hmember h hslash front c cs cs' n hes hn hcs'
        hslash47 u
      -- the empty name: no element takes a character
      obtain ⟨m, hempty⟩ := hname [] List.not_mem_nil List.not_mem_nil
      have hwidth : (c.map Elem.width).sum = 0 := by
        have hle : (47 :: m).length + (c.map Elem.width).sum ≤ ([] ++ 47 :: m).length :=
          hempty.cost_le fun _ _ _ _ hstep => hstep.width_le
        rw [List.nil_append] at hle
        omega
      have hnone : ∀ e ∈ c, e = .star ∨ e = .any ∨ e = .dirs true := by
        intro e he
        have hzero := List.sum_eq_zero_iff.mp hwidth _ (List.mem_map_of_mem he)
        cases e with
        | star => exact Or.inl rfl
        | any => exact Or.inr (Or.inl rfl)
        | dirs leading =>
            cases leading with
            | true => exact Or.inr (Or.inr rfl)
            | false => exact absurd he hfalse
        | _ => exact absurd hzero Nat.one_ne_zero
      have hcomponent : Component c := by
        refine ⟨hnone, ?_⟩
        by_contra hstars
        -- a name of one character: a star takes it
        obtain ⟨m, hone⟩ := hname [98] (by decide) (by decide)
        have hno : ∀ e ∈ c, e ≠ .star ∧ e ≠ .any := fun e he =>
          ⟨fun heq => hstars ⟨e, he, Or.inl heq⟩, fun heq => hstars ⟨e, he, Or.inr heq⟩⟩
        rcases length_le_of_denotes hno hone with hle | hlt
        · simp [hwidth] at hle
        · simp at hlt
      intro d hd
      rcases List.mem_cons.mp hd with rfl | hd
      · exact hcomponent
      · exact hcs' d hd

end Name

theorem exists_closed (l : List Elem) :
    ∃ cs last, l = closed cs ++ last ∧ (∀ c ∈ cs, .lit 47 ∉ c) ∧ .lit 47 ∉ last := by
  induction l with
  | nil => exact ⟨[], [], rfl, fun c hc => absurd hc List.not_mem_nil, List.not_mem_nil⟩
  | cons e l ih =>
      obtain ⟨cs, last, rfl, hcs, hlast⟩ := ih
      by_cases he : e = .lit 47
      · subst he
        refine ⟨[] :: cs, last, rfl, fun c hc => ?_, hlast⟩
        rcases List.mem_cons.mp hc with rfl | hc
        · exact List.not_mem_nil
        · exact hcs c hc
      · rcases cs with _ | ⟨c, cs⟩
        · exact ⟨[], e :: last, rfl, hcs, List.not_mem_cons_of_ne_of_not_mem (Ne.symm he) hlast⟩
        · refine ⟨(e :: c) :: cs, last, rfl, fun d hd => ?_, hlast⟩
          rcases List.mem_cons.mp hd with rfl | hd
          · exact List.not_mem_cons_of_ne_of_not_mem (Ne.symm he) (hcs c List.mem_cons_self)
          · exact hcs d (List.mem_cons_of_mem _ hd)

theorem exists_trailing (l : List Elem) :
    ∃ front n, l = front ++ List.replicate n (.dirs true) ∧
      (front = [] ∨ ∃ front' e, front = front' ++ [e] ∧ e ≠ .dirs true) := by
  induction l using List.reverseRecOn with
  | nil => exact ⟨[], 0, rfl, Or.inl rfl⟩
  | append_singleton l e ih =>
      by_cases he : e = .dirs true
      · obtain ⟨front, n, rfl, hfront⟩ := ih
        refine ⟨front, n + 1, ?_, hfront⟩
        rw [he, List.replicate_succ', List.append_assoc]
      · exact ⟨l ++ [e], 0, by simp, Or.inr ⟨l, e, rfl, he⟩⟩

theorem led_tail {leading : Bool} {e : Elem} {es : List Elem} (h : Led leading (e :: es)) :
    ∃ leading', Led leading' es := by
  cases e with
  | lit c => exact ⟨_, h⟩
  | dirs l => exact ⟨true, h.2⟩
  | _ => exact ⟨false, h⟩

theorem led_before {e : Elem} {back : List Elem} (front : List Elem) :
    ∀ {leading : Bool}, Led leading (front ++ e :: .dirs true :: back) →
      e = .lit 47 ∨ ∃ l, e = .dirs l := by
  induction front with
  | nil =>
      intro leading h
      cases e with
      | lit c =>
          have hc : true = decide (c = 47) := h.1
          exact Or.inl (congrArg Elem.lit (of_decide_eq_true hc.symm))
      | dirs l => exact Or.inr ⟨l, rfl⟩
      | _ => exact absurd h.1 (by decide)
  | cons f front ih =>
      intro leading h
      obtain ⟨leading', h⟩ := led_tail h
      exact ih h

theorem stars_of_led {es : List Elem} (hdirs : .dirs false ∉ es)
    (hwidth : (es.map Elem.width).sum = 0) (h : Led false es) : ∀ e ∈ es, e = .any ∨ e = .star := by
  induction es with
  | nil => exact fun e he => absurd he List.not_mem_nil
  | cons e es ih =>
      rw [List.map_cons, List.sum_cons] at hwidth
      have hrest := ih (fun hmem => hdirs (List.mem_cons_of_mem _ hmem)) (by omega)
      intro d hd
      cases e with
      | star =>
          rcases List.mem_cons.mp hd with rfl | hd
          · exact Or.inr rfl
          · exact hrest h d hd
      | any =>
          rcases List.mem_cons.mp hd with rfl | hd
          · exact Or.inl rfl
          · exact hrest h d hd
      | dirs leading => exact absurd (h.1 ▸ List.mem_cons_self) hdirs
      | _ => exact absurd hwidth (by simp [Elem.width])

theorem initial_of_led {es : List Elem} (hdirs : .dirs false ∉ es)
    (hwidth : (es.map Elem.width).sum = 0) (h : Led true es) : Initial es := by
  induction es with
  | nil => exact ⟨0, [], rfl, fun e he => absurd he List.not_mem_nil⟩
  | cons e es ih =>
      have hdirs' : .dirs false ∉ es := fun hmem => hdirs (List.mem_cons_of_mem _ hmem)
      have hwidth' : (es.map Elem.width).sum = 0 := by
        rw [List.map_cons, List.sum_cons] at hwidth
        omega
      cases e with
      | dirs leading =>
          obtain ⟨rfl, h⟩ := h
          obtain ⟨n, tail, rfl, htail⟩ := ih hdirs' hwidth' h
          exact ⟨n + 1, tail, rfl, htail⟩
      | star =>
          refine ⟨0, .star :: es, rfl, fun d hd => ?_⟩
          rcases List.mem_cons.mp hd with rfl | hd
          · exact Or.inr rfl
          · exact stars_of_led hdirs' hwidth' h d hd
      | any =>
          refine ⟨0, .any :: es, rfl, fun d hd => ?_⟩
          rcases List.mem_cons.mp hd with rfl | hd
          · exact Or.inl rfl
          · exact stars_of_led hdirs' hwidth' h d hd
      | _ =>
          rw [List.map_cons, List.sum_cons] at hwidth
          exact absurd hwidth (by simp [Elem.width])

section Dirs

variable {es : List Elem}
variable (hlit : ∀ c, .lit c ∈ es → c ≠ 0)
variable (hmember : ∀ accepts text, .cls accepts text ∈ es → ∃ c, c ≠ 0 ∧ accepts c = true)

include hlit hmember

theorem dirs_of_agree_leading (h : Agree es) (hled : Led true es)
    (hslash : ∀ accepts text, .cls accepts text ∈ es → accepts 47 = false)
    (hdirs : .dirs false ∉ es) : Settled es ∨ Initial es := by
  by_cases hsettled : Settled es
  · exact Or.inl hsettled
  · simp only [Settled, not_forall] at hsettled
    obtain ⟨front, leading, back, hes, hbad⟩ := hsettled
    have hleading : leading = true := by
      cases leading with
      | true => rfl
      | false => exact absurd (hes ▸ List.mem_append_right _ List.mem_cons_self) hdirs
    have hback : ∀ e ∈ back, e.width = 0 := by
      intro e he
      by_contra hwidth
      refine hbad ⟨hleading, e, he, ?_⟩
      cases e <;> first | rfl | exact absurd rfl hwidth
    exact Or.inr (initial_of_led hdirs
      (width_of_agree hlit hmember h hslash hdirs hes hback) hled)

theorem balanced_of_agree (h : Agree es) (hled : Led true es)
    (hslash : ∀ accepts text, .cls accepts text ∈ es → accepts 47 = false) {front back : List Elem}
    (hes : es = front ++ Elem.dirs false :: back) : Balanced es := by
  have hcount : es.countP Elem.inner = front.countP Elem.inner + (back.countP Elem.inner + 1) := by
    rw [hes, List.countP_append, List.countP_cons_of_pos rfl]
  obtain ⟨first, n, rfl, hfirst⟩ := exists_trailing back
  -- it is the only one, and the last element is a `**/`
  have honly : ∀ front' e, es = front' ++ [e] → front.countP Elem.inner = 0 ∧
      (first ++ List.replicate n (Elem.dirs true)).countP Elem.inner = 0 ∧ e.trail = 1 := by
    intro front' e hlast
    have hle := inner_le_of_agree hlit hmember h hslash hlast
    have htrail : e.trail ≤ 1 := by cases e <;> simp [Elem.trail]
    omega
  obtain ⟨front', e', hlast⟩ : ∃ front' e', es = front' ++ [e'] :=
    (List.eq_nil_or_concat' es).resolve_left (by rw [hes]; simp)
  obtain ⟨hfront, hback, _⟩ := honly front' e' hlast
  have hnone : ∀ l : List Elem, l.countP Elem.inner = 0 → .dirs false ∉ l :=
    fun l hl hmem => List.countP_eq_zero.mp hl _ hmem rfl
  rcases hfirst with rfl | ⟨first', e, rfl, he⟩
  · exact ⟨front, [], n, hes, hnone front hfront, fun c hc => absurd hc List.not_mem_nil,
      fun hne => absurd rfl hne⟩
  have hmem : e ∈ (first' ++ [e]) ++ List.replicate n (.dirs true) := by simp
  have hdirs : ∀ leading, e ≠ .dirs leading := by
    rintro (_ | _) rfl
    · exact hnone _ hback hmem
    · exact he rfl
  rcases n with _ | n
  · obtain ⟨_, _, htrail⟩ := honly (front ++ Elem.dirs false :: first') e (by rw [hes]; simp)
    cases e with
    | dirs leading => exact absurd rfl (hdirs leading)
    | _ => exact absurd htrail Nat.zero_ne_one
  obtain rfl : e = .lit 47 := by
    have hbefore : es = (front ++ .dirs false :: first') ++ e :: .dirs true ::
        List.replicate n (.dirs true) := by
      rw [hes, List.replicate_succ]
      simp
    rw [hbefore] at hled
    exact (led_before _ hled).resolve_right fun ⟨leading, heq⟩ => hdirs leading heq
  obtain ⟨cs, last, hcs, hnames, hlast47⟩ := exists_closed (first' ++ [.lit 47])
  obtain rfl : last = [] := by
    rcases List.eq_nil_or_concat' last with rfl | ⟨last', d, rfl⟩
    · rfl
    · rw [← List.append_assoc] at hcs
      obtain rfl : Elem.lit 47 = d := (List.append_singleton_inj.mp hcs).2
      exact absurd (by simp) hlast47
  rw [List.append_nil] at hcs
  rw [hcs] at hes hback
  refine ⟨front, cs, n + 1, hes, hnone front hfront, ?_, fun _ => Nat.succ_pos n⟩
  refine @component_of_agree es hlit hmember h hslash front (n + 1) (Nat.succ_pos n) cs [] hes
    fun c hc => ⟨hnames c hc, fun hfalse => hnone _ hback ?_⟩
  exact List.mem_append_left _ (List.mem_flatMap.mpr ⟨c, hc, List.mem_append_left _ hfalse⟩)

theorem dirs_of_agree (h : Agree es) (hled : Led true es)
    (hslash : ∀ accepts text, .cls accepts text ∈ es → accepts 47 = false) :
    Settled es ∨ Initial es ∨ Balanced es := by
  by_cases hdirs : .dirs false ∈ es
  · obtain ⟨front, back, hes⟩ := List.append_of_mem hdirs
    exact Or.inr (Or.inr (balanced_of_agree hlit hmember h hled hslash hes))
  · exact (dirs_of_agree_leading hlit hmember h hled hslash hdirs).imp_right Or.inl

end Dirs

theorem agree_iff {pat : CStr} :
    (∀ str : CStr, 0 ∉ str → (str = [] → ∀ e ∈ elements pat, e.double = false) →
      (globMatch pat str = true ↔ InLanguage (elements pat) str)) ↔ Agree (elements pat) := by
  refine forall_congr' fun str => ?_
  rw [globMatch_iff]

theorem agree_of_regular {es : List Elem} (h : Regular es) : Agree es := by
  intro s _ hnil
  rcases h.dirs with hsettled | ⟨n, tail, rfl, htail⟩ | hbalanced
  · exact settled_iff h.slash hsettled
  · by_cases hs : s = []
    · rcases n with _ | n
      · rw [List.replicate_zero, List.nil_append]
        exact stars_iff htail
      · have hdouble := hnil hs (.dirs true) (by simp)
        exact absurd hdouble (by decide)
    · exact initial_iff htail hs
  · exact balanced_iff h.slash hbalanced

theorem written_of_follows {pat : CStr} (hpat : 0 ∉ pat) (h : FollowsSyntax pat)
    (hmember : ∀ accepts text, .cls accepts text ∈ elements pat → ∃ c, c ≠ 0 ∧ accepts c = true)
    (hslash : ∀ accepts text, .cls accepts text ∈ elements pat → accepts 47 = false)
    (hdouble : ∀ e ∈ elements pat, e.double = false) {accepts : UInt8 → Bool} {text : CStr}
    (hmem : .cls accepts text ∈ elements pat) : 47 ∉ text := by
  have hlit : ∀ c, .lit c ∈ elements pat → c ≠ 0 := by
    rintro c hc rfl
    exact hpat (mem_of_lit_mem _ _ _ hc)
  obtain ⟨front', e', hlast⟩ := (List.eq_nil_or_concat' (elements pat)).resolve_left
    (List.ne_nil_of_mem hmem)
  obtain ⟨s, hs, _, hzero, hcount⟩ := exists_ne_nil hlit hmember hslash hlast
  have htrail : e'.trail = 0 := by
    have he' := hdouble e' (hlast ▸ List.mem_append_right _ List.mem_cons_self)
    cases e' with
    | dirs leading => exact absurd he' (by simp [Elem.double])
    | _ => rfl
  have hsame := h.same_slashes hdouble s hzero ((globMatch_iff pat s).mpr hs)
  rw [← elements_slashes pat] at hsame
  intro hwritten
  have hpos : 0 < text.count 47 := List.count_pos_iff.mpr hwritten
  have hsum : ∀ l : List Elem, (l.map Elem.fixed).sum ≤ (l.map Elem.slashes).sum := by
    intro l
    refine List.sum_le_sum fun e _ => ?_
    cases e <;> simp [Elem.fixed, Elem.slashes]
  obtain ⟨front, back, hes⟩ := List.append_of_mem hmem
  have hfront := hsum front
  have hback := hsum back
  rw [hes] at hcount hsame
  simp only [List.map_append, List.sum_append, List.map_cons, List.sum_cons, Elem.fixed,
    Elem.slashes] at hcount hsame
  omega

/-- The texts that `glob_match` finds are those of the syntax. -/
theorem glob_language_iff (pat : CStr) (hpat : 0 ∉ pat) :
    FollowsSyntax pat ↔ NoMember (elements pat) ∨ Regular (elements pat) := by
  have hlit : ∀ c, .lit c ∈ elements pat → c ≠ 0 := by
    rintro c hc rfl
    exact hpat (mem_of_lit_mem _ _ _ hc)
  constructor
  · intro h
    by_cases hnone : NoMember (elements pat)
    · exact Or.inl hnone
    have hmember : ∀ accepts text, .cls accepts text ∈ elements pat →
        ∃ c, c ≠ 0 ∧ accepts c = true := by
      intro accepts text hmem
      by_contra hall
      refine hnone ⟨accepts, text, hmem, fun c hc => ?_⟩
      exact Bool.eq_false_iff.mpr fun haccepts => hall ⟨c, hc, haccepts⟩
    have hagree : Agree (elements pat) := agree_iff.mp h.match_iff
    have hslash := fun accepts text => @slash_of_agree _ hlit hmember hagree accepts text
    exact Or.inr ⟨hslash, fun hdouble accepts text hmem =>
      written_of_follows hpat h hmember hslash hdouble hmem,
      dirs_of_agree hlit hmember hagree (elements_led pat) hslash⟩
  · rintro (hnone | hregular)
    · refine ⟨fun str hzero _ => ?_, fun _ str hzero hmatch => ?_⟩
      · rw [globMatch_iff]
        exact iff_of_false (noMember_takes hnone hzero) (noMember_denotes hnone hzero)
      · exact absurd (globMatch_iff pat str |>.mp hmatch) (noMember_takes hnone hzero)
    · refine ⟨agree_iff.mpr (agree_of_regular hregular), fun hdouble str _ hmatch => ?_⟩
      rw [← elements_slashes pat]
      exact slashes_of_takes hregular.slash (hregular.written hdouble) hdouble
        ((globMatch_iff pat str).mp hmatch)

/-- A pattern for the files of all directories. -/
theorem glob_language_iff_files :
    FollowsSyntax (bytesOf "**/*.c") ↔
      NoMember (elements (bytesOf "**/*.c")) ∨ Regular (elements (bytesOf "**/*.c")) :=
  glob_language_iff (bytesOf "**/*.c") (by decide +kernel)

/-- A class without `b` matches a slash. -/
theorem not_followsSyntax :
    (globMatch (bytesOf "a[!b]c") (bytesOf "a/c") = true ∧
      ¬ InLanguage (elements (bytesOf "a[!b]c")) (bytesOf "a/c")) ∧
      ¬ FollowsSyntax (bytesOf "a[!b]c") := by
  have hmatch : globMatch (bytesOf "a[!b]c") (bytesOf "a/c") = true := by decide +kernel
  have hlanguage : ¬ InLanguage (elements (bytesOf "a[!b]c")) (bytesOf "a/c") := by
    rintro ⟨s, hs, t, ⟨c, hc, _, heq⟩, _⟩
    obtain rfl : bytesOf "/c" = s := (List.cons.inj hs).2
    exact hc (List.cons.inj heq).1.symm
  refine ⟨⟨hmatch, hlanguage⟩, fun h => hlanguage ?_⟩
  exact (h.match_iff _ (by decide +kernel) fun hnil => absurd hnil (by decide +kernel)).mp hmatch

end Discover
end CodebaseMemory
