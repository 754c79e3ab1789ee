import CodebaseMemory.Discover.GlobElements

/-!
# Globs that follow their syntax (`src/discover/gitignore.c`)

In the code, a class that accepts a slash matches one, `**/` may be nothing also where
it does not begin a component, and it may not be nothing at the end of the text.

Three kinds of patterns match as the syntax says: those with a character behind each
`**/`, those that begin with their `**/`s, and those in which one `**/` that does not
begin a component makes up for one at the end.
-/

namespace CodebaseMemory
namespace Discover

open Lib
open Sqlite (CStr bytesOf)

/-- The characters that an element always takes. -/
def Elem.width : Elem → Nat
  | .lit _ => 1
  | .one => 1
  | .cls _ _ => 1
  | _ => 0

/-- `**`, alone or with a slash. -/
def Elem.double : Elem → Bool
  | .any => true
  | .dirs _ => true
  | _ => false

/-- `glob_match` is true for the texts of the pattern, and without `**` these have as
many slashes as the pattern. -/
structure FollowsSyntax (pat : CStr) : Prop where
  match_iff : ∀ str : CStr, 0 ∉ str → (str = [] → ∀ e ∈ elements pat, e.double = false) →
    (globMatch pat str = true ↔ InLanguage (elements pat) str)
  same_slashes : (∀ e ∈ elements pat, e.double = false) → ∀ str : CStr, 0 ∉ str →
    globMatch pat str = true → str.count 47 = pat.count 47

def NoMember (es : List Elem) : Prop :=
  ∃ accepts text, .cls accepts text ∈ es ∧ ∀ c, c ≠ 0 → accepts c = false

/-- Each `**/` begins a component, and a character has to follow. -/
def Settled (es : List Elem) : Prop :=
  ∀ front leading back, es = front ++ .dirs leading :: back →
    leading = true ∧ ∃ e ∈ back, e.width = 1

/-- `**/`s at the start, then stars. -/
def Initial (es : List Elem) : Prop :=
  ∃ n tail, es = List.replicate n (.dirs true) ++ tail ∧ ∀ e ∈ tail, e = .any ∨ e = .star

/-- A component that any name matches. -/
def Component (c : List Elem) : Prop :=
  (∀ e ∈ c, e = .star ∨ e = .any ∨ e = .dirs true) ∧ ∃ e ∈ c, e = .star ∨ e = .any

/-- Components with their slashes. -/
def closed (cs : List (List Elem)) : List Elem :=
  cs.flatMap fun c => c ++ [.lit 47]

/-- One `**/` does not begin a component; components that any name matches are behind it,
and then there is a `**/` that is not nothing. -/
def Balanced (es : List Elem) : Prop :=
  ∃ front cs n, es = front ++ .dirs false :: (closed cs ++ List.replicate n (.dirs true)) ∧
    .dirs false ∉ front ∧ (∀ c ∈ cs, Component c) ∧ (cs ≠ [] → 0 < n)

/-- The condition on a pattern whose classes have members. -/
structure Regular (es : List Elem) : Prop where
  slash : ∀ accepts text, .cls accepts text ∈ es → accepts 47 = false
  written : (∀ e ∈ es, e.double = false) → ∀ accepts text, .cls accepts text ∈ es → 47 ∉ text
  dirs : Settled es ∨ Initial es ∨ Balanced es

section Agree

variable {es : List Elem} {s t : CStr}

theorem Elem.takes_iff {e : Elem}
    (hcls : ∀ accepts text, e = .cls accepts text → accepts 47 = false)
    (hdirs : ∀ leading, e = .dirs leading → leading = true ∧ t ≠ []) :
    e.Takes s t ↔ e.Denotes s t := by
  cases e with
  | lit c => exact Iff.rfl
  | one => exact Iff.rfl
  | star => exact Iff.rfl
  | any => exact Iff.rfl
  | cls accepts text =>
      refine exists_congr fun c => ⟨fun ⟨hc, heq⟩ => ⟨?_, hc, heq⟩, fun ⟨_, hc, heq⟩ => ⟨hc, heq⟩⟩
      rintro rfl
      exact absurd hc (by simp [hcls accepts text rfl])
  | dirs leading =>
      obtain ⟨rfl, ht⟩ := hdirs leading rfl
      refine or_congr_left ⟨fun h => ⟨rfl, h.1⟩, fun h => ⟨h.2, ht⟩⟩

theorem noMember_takes (h : NoMember es) (hs : 0 ∉ s) : ¬ Through Elem.Takes es s t := by
  obtain ⟨accepts, text, hmem, hnone⟩ := h
  obtain ⟨front, back, rfl⟩ := List.append_of_mem hmem
  intro hthrough
  obtain ⟨m, hm, m', ⟨c, hc, rfl⟩, _⟩ := (through_append front).mp hthrough
  have hsuffix := hm.suffix fun _ _ _ _ => Elem.Takes.suffix
  have hzero : c ≠ 0 := by
    rintro rfl
    exact hs (hsuffix.subset List.mem_cons_self)
  exact absurd hc (by simp [hnone c hzero])

theorem noMember_denotes (h : NoMember es) (hs : 0 ∉ s) : ¬ Through Elem.Denotes es s t := by
  obtain ⟨accepts, text, hmem, hnone⟩ := h
  obtain ⟨front, back, rfl⟩ := List.append_of_mem hmem
  intro hthrough
  obtain ⟨m, hm, m', ⟨c, _, hc, rfl⟩, _⟩ := (through_append front).mp hthrough
  have hsuffix := hm.suffix fun _ _ _ _ => Elem.Denotes.suffix
  have hzero : c ≠ 0 := by
    rintro rfl
    exact hs (hsuffix.subset List.mem_cons_self)
  exact absurd hc (by simp [hnone c hzero])

theorem Elem.Takes.width_le {e : Elem} (h : e.Takes s t) : t.length + e.width ≤ s.length := by
  cases e with
  | lit c => exact h ▸ Nat.le_refl _
  | one =>
      obtain ⟨c, _, rfl⟩ := h
      exact Nat.le_refl _
  | cls accepts text =>
      obtain ⟨c, _, rfl⟩ := h
      exact Nat.le_refl _
  | star => exact h.suffix.length_le
  | any => exact h.suffix.length_le
  | dirs leading => exact h.suffix.length_le

theorem Elem.Denotes.width_le {e : Elem} (h : e.Denotes s t) : t.length + e.width ≤ s.length := by
  cases e with
  | lit c => exact h ▸ Nat.le_refl _
  | one =>
      obtain ⟨c, _, rfl⟩ := h
      exact Nat.le_refl _
  | cls accepts text =>
      obtain ⟨c, _, _, rfl⟩ := h
      exact Nat.le_refl _
  | star => exact h.suffix.length_le
  | any => exact h.suffix.length_le
  | dirs leading => exact h.suffix.length_le

theorem ne_nil_of_width {R : Elem → CStr → CStr → Prop}
    (hR : ∀ e s t, R e s t → t.length + e.width ≤ s.length) {e : Elem} (he : e ∈ es)
    (hwidth : e.width = 1) (h : Through R es s t) : s ≠ [] := by
  rintro rfl
  have hle := h.cost_le fun e _ => hR e
  have hmem : e.width ∈ es.map Elem.width := List.mem_map_of_mem he
  have hsum := List.single_le_sum (fun _ _ => Nat.zero_le _) _ hmem
  rw [List.length_nil] at hle
  omega

theorem settled_iff (hslash : ∀ accepts text, .cls accepts text ∈ es → accepts 47 = false)
    (h : Settled es) : Through Elem.Takes es s [] ↔ InLanguage es s := by
  induction es generalizing s with
  | nil => exact Iff.rfl
  | cons e es ih =>
      have hrest := fun m => @ih m
        (fun accepts text hm => hslash accepts text (List.mem_cons_of_mem _ hm))
        fun front leading back heq => h (e :: front) leading back (congrArg (e :: ·) heq)
      refine exists_congr fun m => ?_
      rw [hrest]
      refine and_congr_left fun hm => Elem.takes_iff ?_ ?_
      · rintro accepts text rfl
        exact hslash accepts text List.mem_cons_self
      · rintro leading rfl
        obtain ⟨hleading, e, he, hwidth⟩ := h [] leading es rfl
        exact ⟨hleading, ne_nil_of_width (fun _ _ _ => Elem.Denotes.width_le) he hwidth hm⟩

theorem stars_iff (h : ∀ e ∈ es, e = .any ∨ e = .star) :
    Through Elem.Takes es s t ↔ Through Elem.Denotes es s t := by
  refine (@through_congr _ _ _ _ (fun _ => True) es t (fun _ _ _ _ _ _ => trivial) ?_ trivial s).1
  intro e he s t _
  rcases h e he with rfl | rfl
  · exact Iff.rfl
  · exact Iff.rfl

theorem through_nil_of_nullable (h : ∀ e ∈ es, e = .star ∨ e = .any ∨ e = .dirs true) :
    Through Elem.Denotes es s s := by
  induction es with
  | nil => rfl
  | cons e es ih =>
      refine ⟨s, ?_, ih fun e he => h e (List.mem_cons_of_mem _ he)⟩
      rcases h e List.mem_cons_self with rfl | rfl | rfl
      · exact ⟨[], List.not_mem_nil, rfl⟩
      · exact ⟨[], rfl⟩
      · exact Or.inl ⟨rfl, rfl⟩

theorem inLanguage_of_slash {n : Nat} {tail : List Elem} (htail : ∀ e ∈ tail, e = .any ∨ e = .star)
    (run : CStr) :
    InLanguage (.dirs true :: (List.replicate n (.dirs true) ++ tail)) (run ++ [47]) := by
  refine ⟨[], Or.inr ⟨run, rfl⟩, through_nil_of_nullable fun e he => ?_⟩
  rcases List.mem_append.mp he with he | he
  · exact Or.inr (Or.inr (List.eq_of_mem_replicate he))
  · exact (htail e he).elim (fun h => Or.inr (Or.inl h)) Or.inl

theorem initial_iff {n : Nat} {tail : List Elem} (htail : ∀ e ∈ tail, e = .any ∨ e = .star)
    (hs : s ≠ []) :
    Through Elem.Takes (List.replicate n (.dirs true) ++ tail) s [] ↔
      InLanguage (List.replicate n (.dirs true) ++ tail) s := by
  induction n generalizing s with
  | zero =>
      rw [List.replicate_zero, List.nil_append]
      exact stars_iff htail
  | succ n ih =>
      rw [List.replicate_succ, List.cons_append]
      constructor
      · rintro ⟨m, hm, hrest⟩
        by_cases hnil : m = []
        · obtain ⟨run, rfl⟩ : ∃ run, s = run ++ 47 :: m := hm.resolve_left fun h => h.2 hnil
          exact hnil ▸ inLanguage_of_slash htail run
        · exact ⟨m, hm.imp_left fun h => ⟨rfl, h.1⟩, (ih hnil).mp hrest⟩
      · rintro ⟨m, hm, hrest⟩
        by_cases hnil : m = []
        · obtain ⟨run, rfl⟩ : ∃ run, s = run ++ 47 :: m :=
            hm.resolve_left fun h => hs (h.2.trans hnil)
          subst hnil
          rcases n with _ | n
          · -- the only `**/` takes all of the text
            rw [List.replicate_zero, List.nil_append]
            exact ⟨[], Or.inr ⟨run, rfl⟩, (stars_iff htail).mpr hrest⟩
          · exact ⟨_, Or.inl ⟨rfl, hs⟩, (ih hs).mpr (inLanguage_of_slash htail run)⟩
        · exact ⟨m, hm.imp_left fun h => ⟨h.2, hnil⟩, (ih hnil).mpr hrest⟩

/-- A text with so many slashes at least, the last at its end. -/
def Closes (n : Nat) (s : CStr) : Prop :=
  n ≤ s.count 47 ∧ [47] <:+ s

theorem Closes.ne_nil {n : Nat} (h : Closes n s) : s ≠ [] := by
  rintro rfl
  exact absurd (List.suffix_nil.mp h.2) (by simp)

theorem slash_suffix {rest : CStr} (h : [47] <:+ s) (hrest : rest <:+ s) (hne : rest ≠ []) :
    [47] <:+ rest := by
  rcases List.suffix_or_suffix_of_suffix h hrest with hend | hshort
  · exact hend
  · rcases List.suffix_cons_iff.mp hshort with rfl | hnil
    · exact List.suffix_rfl
    · exact absurd (List.suffix_nil.mp hnil) hne

theorem through_takes_iff (hslash : ∀ accepts text, .cls accepts text ∈ es → accepts 47 = false)
    (hdirs : .dirs false ∉ es) (ht : t ≠ []) :
    Through Elem.Takes es s t ↔ Through Elem.Denotes es s t := by
  refine (@through_congr _ _ _ _ (fun s => s ≠ []) es t (fun e _ s t h ht => ?_)
    (fun e he s t ht => Elem.takes_iff ?_ ?_) ht s).1
  · rintro rfl
    exact ht (List.suffix_nil.mp h.suffix)
  · rintro accepts text rfl
    exact hslash accepts text he
  · rintro (_ | _) rfl
    · exact absurd he hdirs
    · exact ⟨rfl, ht⟩

theorem Component.takes_iff {c : List Elem} (h : Component c) (ht : t ≠ []) :
    Through Elem.Takes (c ++ [.lit 47]) s t ↔ Through Elem.Denotes (c ++ [.lit 47]) s t := by
  refine through_takes_iff (fun accepts text he => ?_) (fun he => ?_) ht
  · rcases List.mem_append.mp he with he | he
    · rcases h.1 _ he with heq | heq | heq <;> exact absurd heq (by simp)
    · exact absurd (List.mem_singleton.mp he) (by simp)
  · rcases List.mem_append.mp he with he | he
    · rcases h.1 _ he with heq | heq | heq <;> exact absurd heq (by simp)
    · exact absurd (List.mem_singleton.mp he) (by simp)

theorem Component.name {c : List Elem} (h : Component c) {run : CStr} (hrun : 47 ∉ run) :
    Through Elem.Denotes (c ++ [.lit 47]) (run ++ 47 :: t) t := by
  obtain ⟨e, he, hstar⟩ := h.2
  obtain ⟨front, back, rfl⟩ := List.append_of_mem he
  have hfront := @through_nil_of_nullable front (run ++ 47 :: t) fun e he =>
    h.1 e (List.mem_append_left _ he)
  have hback := @through_nil_of_nullable back (47 :: t) fun e he =>
    h.1 e (List.mem_append_right _ (List.mem_cons_of_mem _ he))
  refine (through_append _).mpr ⟨47 :: t, (through_append _).mpr ⟨_, hfront, 47 :: t, ?_, hback⟩,
    through_singleton.mpr rfl⟩
  rcases hstar with rfl | rfl
  · exact ⟨run, hrun, rfl⟩
  · exact ⟨run, rfl⟩

theorem closed_cons (c : List Elem) (cs : List (List Elem)) :
    closed (c :: cs) = (c ++ [.lit 47]) ++ closed cs :=
  List.flatMap_cons

theorem exists_closed_left {cs : List (List Elem)} (h : ∀ c ∈ cs, Component c) :
    ∀ {s : CStr}, Closes (cs.length + 1) s →
      ∃ m, Through Elem.Takes (closed cs) s m ∧ Closes 1 m := by
  induction cs with
  | nil => exact fun {s} hs => ⟨s, rfl, hs⟩
  | cons c cs ih =>
      rintro s ⟨hcount, hend⟩
      have hmem : 47 ∈ s := hend.subset List.mem_cons_self
      obtain ⟨seg, rest, rfl, hseg⟩ := List.eq_append_cons_of_mem hmem
      rw [List.count_append, List.count_eq_zero.mpr hseg, List.count_cons_self,
        List.length_cons] at hcount
      have hsuffix : rest <:+ seg ++ 47 :: rest :=
        (List.suffix_cons 47 rest).trans (List.suffix_append seg _)
      have hrest : Closes (cs.length + 1) rest := by
        refine ⟨by omega, slash_suffix hend hsuffix ?_⟩
        rintro rfl
        rw [List.count_nil] at hcount
        omega
      obtain ⟨m, hm, hcloses⟩ := ih (fun c hc => h c (List.mem_cons_of_mem _ hc)) hrest
      rw [closed_cons]
      refine ⟨m, (through_append _).mpr ⟨rest, ?_, hm⟩, hcloses⟩
      exact ((h c List.mem_cons_self).takes_iff hrest.ne_nil).mpr
        ((h c List.mem_cons_self).name hseg)

theorem exists_closed_right {cs : List (List Elem)} (h : ∀ c ∈ cs, Component c) {s : CStr}
    (hs : Closes (cs.length + 1) s) :
    ∃ run v, s = run ++ 47 :: v ∧ Through Elem.Denotes (closed cs) v [] ∧
      v.count 47 = cs.length := by
  induction cs with
  | nil =>
      obtain ⟨_, run, rfl⟩ := hs
      exact ⟨run, [], rfl, rfl, rfl⟩
  | cons c cs ih =>
      obtain ⟨hcount, hrun⟩ := hs
      rw [List.length_cons] at hcount
      obtain ⟨run, v, rfl, hv, hvcount⟩ :=
        ih (fun c hc => h c (List.mem_cons_of_mem _ hc)) ⟨by omega, hrun⟩
      rw [List.count_append, List.count_cons_self, hvcount] at hcount
      have hmem : 47 ∈ run := List.count_pos_iff.mp (by omega)
      cases hsplit : splitLast 47 run with
      | none => exact absurd hmem (splitLast_eq_none.mp hsplit)
      | some parts =>
          obtain ⟨rfl, hseg⟩ := splitLast_eq_some.mp hsplit
          refine ⟨parts.1, parts.2 ++ 47 :: v, by simp, ?_, ?_⟩
          · rw [closed_cons]
            exact (through_append _).mpr ⟨v, (h c List.mem_cons_self).name hseg, hv⟩
          · rw [List.count_append, List.count_eq_zero.mpr hseg, List.count_cons_self, hvcount,
              List.length_cons, Nat.zero_add]

theorem closed_slashes {R : Elem → CStr → CStr → Prop} (hR : ∀ e s t, R e s t → t <:+ s)
    (hlit : ∀ s t, R (.lit 47) s t → s = 47 :: t) {cs : List (List Elem)} :
    ∀ {s : CStr}, Through R (closed cs) s t → t.count 47 + cs.length ≤ s.count 47 ∧
      (cs ≠ [] → 47 :: t <:+ s) := by
  induction cs with
  | nil =>
      rintro s rfl
      exact ⟨Nat.le_refl _, fun h => absurd rfl h⟩
  | cons c cs ih =>
      intro s hs
      rw [closed_cons] at hs
      obtain ⟨m, hc, hm⟩ := (through_append _).mp hs
      obtain ⟨m', hc, hslash⟩ := (through_append _).mp hc
      obtain rfl := hlit _ _ (through_singleton.mp hslash)
      have hsuffix : 47 :: m <:+ s := hc.suffix fun e _ => hR e
      have hle := hsuffix.sublist.count_le 47
      obtain ⟨hcount, hend⟩ := ih hm
      rw [List.count_cons_self] at hle
      refine ⟨by rw [List.length_cons]; omega, fun _ => ?_⟩
      by_cases hcs : cs = []
      · subst hcs
        obtain rfl : m = t := hm
        exact hsuffix
      · exact (hend hcs).trans ((List.suffix_cons 47 m).trans hsuffix)

theorem takes_dirs_end {n : Nat} (h : Through Elem.Takes (List.replicate n (.dirs true)) s []) :
    (n = 0 ∧ s = []) ∨ [47] <:+ s := by
  induction n generalizing s with
  | zero => exact Or.inl ⟨rfl, h⟩
  | succ n ih =>
      rw [List.replicate_succ] at h
      obtain ⟨m, ⟨rfl, hne⟩ | ⟨run, rfl⟩, hm⟩ := h
      · exact Or.inr ((ih hm).resolve_left fun h => hne h.2)
      · rcases ih hm with ⟨_, rfl⟩ | hend
        · exact Or.inr (List.suffix_append run [47])
        · exact Or.inr (hend.trans ((List.suffix_cons 47 m).trans (List.suffix_append run _)))

theorem denotes_dirs_end {n : Nat} (h : Through Elem.Denotes (List.replicate n (.dirs true)) s []) :
    s = [] ∨ [47] <:+ s := by
  induction n generalizing s with
  | zero => exact Or.inl h
  | succ n ih =>
      rw [List.replicate_succ] at h
      obtain ⟨m, ⟨_, rfl⟩ | ⟨run, rfl⟩, hm⟩ := h
      · exact ih hm
      · rcases ih hm with rfl | hend
        · exact Or.inr (List.suffix_append run [47])
        · exact Or.inr (hend.trans ((List.suffix_cons 47 m).trans (List.suffix_append run _)))

theorem takes_dirs_of_end {n : Nat} (hn : 0 < n) (h : [47] <:+ s) :
    Through Elem.Takes (List.replicate n (.dirs true)) s [] := by
  induction n with
  | zero => exact absurd hn (Nat.lt_irrefl 0)
  | succ n ih =>
      rw [List.replicate_succ]
      rcases Nat.eq_zero_or_pos n with rfl | hpos
      · obtain ⟨run, rfl⟩ := h
        exact ⟨[], Or.inr ⟨run, rfl⟩, rfl⟩
      · refine ⟨s, Or.inl ⟨rfl, ?_⟩, ih hpos⟩
        rintro rfl
        exact absurd (List.suffix_nil.mp h) (by simp)

section Back

variable {cs : List (List Elem)} {n : Nat}

theorem takes_back_iff (h : ∀ c ∈ cs, Component c) (hn : cs ≠ [] → 0 < n) :
    Through Elem.Takes (.dirs false :: (closed cs ++ List.replicate n (.dirs true))) s [] ↔
      Closes (cs.length + 1) s := by
  constructor
  · rintro ⟨m, hs, hm⟩
    obtain ⟨m', hcs, hend⟩ := (through_append _).mp hm
    obtain ⟨hcount, _⟩ :=
      @closed_slashes m' Elem.Takes (fun _ _ _ => Elem.Takes.suffix) (fun _ _ h => h) cs m hcs
    have hm' : m' <:+ m := hcs.suffix fun _ _ _ _ => Elem.Takes.suffix
    rcases takes_dirs_end hend with ⟨rfl, rfl⟩ | hend
    · obtain rfl : cs = [] := by
        by_contra hcs
        exact absurd (hn hcs) (Nat.lt_irrefl 0)
      obtain rfl : m = [] := hcs
      obtain ⟨run, rfl⟩ : ∃ run, s = run ++ [47] := hs.resolve_left fun h => h.2 rfl
      exact ⟨by simp, List.suffix_append run [47]⟩
    · have hsuffix : m <:+ s := @Elem.Takes.suffix (.dirs false) s m hs
      have hlast := hend.sublist.count_le 47
      have hle := hsuffix.sublist.count_le 47
      rw [List.count_singleton_self] at hlast
      exact ⟨by omega, hend.trans (hm'.trans hsuffix)⟩
  · intro hs
    rcases Nat.eq_zero_or_pos n with rfl | hpos
    · obtain rfl : cs = [] := by
        by_contra hcs
        exact absurd (hn hcs) (Nat.lt_irrefl 0)
      obtain ⟨run, rfl⟩ := hs.2
      exact ⟨[], Or.inr ⟨run, rfl⟩, rfl⟩
    · obtain ⟨m, hm, hend⟩ := exists_closed_left h hs
      exact ⟨s, Or.inl ⟨rfl, hs.ne_nil⟩,
        (through_append _).mpr ⟨m, hm, takes_dirs_of_end hpos hend.2⟩⟩

theorem denotes_back_iff (h : ∀ c ∈ cs, Component c) :
    Through Elem.Denotes (.dirs false :: (closed cs ++ List.replicate n (.dirs true))) s [] ↔
      Closes (cs.length + 1) s := by
  constructor
  · rintro ⟨m, ⟨hfalse, _⟩ | ⟨run, rfl⟩, hm⟩
    · exact absurd hfalse (by decide)
    obtain ⟨m', hcs, hend⟩ := (through_append _).mp hm
    obtain ⟨hcount, hlast⟩ :=
      @closed_slashes m' Elem.Denotes (fun _ _ _ => Elem.Denotes.suffix) (fun _ _ h => h) cs m hcs
    have hm' : m' <:+ m := hcs.suffix fun _ _ _ _ => Elem.Denotes.suffix
    have hsuffix : 47 :: m <:+ run ++ 47 :: m := List.suffix_append run _
    have hle := hsuffix.sublist.count_le 47
    rw [List.count_cons_self] at hle
    refine ⟨by omega, ?_⟩
    rcases denotes_dirs_end hend with rfl | hend
    · by_cases hnone : cs = []
      · subst hnone
        obtain rfl : m = [] := hcs
        exact hsuffix
      · exact (hlast hnone).trans ((List.suffix_cons 47 m).trans hsuffix)
    · exact hend.trans (hm'.trans ((List.suffix_cons 47 m).trans hsuffix))
  · intro hs
    obtain ⟨run, v, rfl, hv, _⟩ := exists_closed_right h hs
    have hnil : Through Elem.Denotes (List.replicate n (.dirs true)) [] [] :=
      through_nil_of_nullable fun e he => Or.inr (Or.inr (List.eq_of_mem_replicate he))
    exact ⟨v, Or.inr ⟨run, rfl⟩, (through_append _).mpr ⟨[], hv, hnil⟩⟩

end Back

theorem balanced_iff (hslash : ∀ accepts text, .cls accepts text ∈ es → accepts 47 = false)
    (h : Balanced es) : Through Elem.Takes es s [] ↔ InLanguage es s := by
  obtain ⟨front, cs, n, rfl, hfront, hcs, hn⟩ := h
  rw [InLanguage, through_append, through_append]
  refine exists_congr fun m => ?_
  rw [takes_back_iff hcs hn, denotes_back_iff hcs]
  refine and_congr_left fun hm => through_takes_iff (fun accepts text he => ?_) hfront hm.ne_nil
  exact hslash accepts text (List.mem_append_left _ he)

theorem slashes_of_takes (hslash : ∀ accepts text, .cls accepts text ∈ es → accepts 47 = false)
    (hwritten : ∀ accepts text, .cls accepts text ∈ es → 47 ∉ text)
    (hdouble : ∀ e ∈ es, e.double = false) (h : Through Elem.Takes es s []) :
    s.count 47 = (es.map Elem.slashes).sum := by
  have hcost : ∀ e ∈ es, ∀ s t : CStr, e.Takes s t → s.count 47 = t.count 47 + e.slashes := by
    intro e he s t hstep
    cases e with
    | lit c =>
        obtain rfl : s = c :: t := hstep
        rw [List.count_cons, Elem.slashes]
        simp
    | one =>
        obtain ⟨c, hc, rfl⟩ := hstep
        rw [List.count_cons_of_ne hc]
        rfl
    | cls accepts text =>
        obtain ⟨c, hc, rfl⟩ := hstep
        have hne : c ≠ 47 := by
          rintro rfl
          exact absurd hc (by simp [hslash accepts text he])
        rw [List.count_cons_of_ne hne, Elem.slashes, List.count_eq_zero.mpr (hwritten _ _ he)]
        rfl
    | star =>
        obtain ⟨run, hrun, rfl⟩ := hstep
        rw [List.count_append, List.count_eq_zero.mpr hrun, Nat.zero_add]
        rfl
    | any => exact absurd (hdouble _ he) (by simp [Elem.double])
    | dirs leading => exact absurd (hdouble _ he) (by simp [Elem.double])
  have heq := h.cost_eq hcost
  rwa [List.count_nil, Nat.zero_add] at heq

end Agree

end Discover
end CodebaseMemory
