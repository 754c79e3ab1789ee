import Mathlib.Data.List.Chain

/-!
# Depth-first search that notices cycles

A search marks what it enters and what it leaves, and flags what it meets while it is
entered.  It follows the order in which the successors are listed, and it turns back
where its stack has a given length.

`Explores S m as m'`: with `S` on the stack, the search goes through `as`.
-/

namespace CodebaseMemory
namespace Lib

/-- How far the search is with a node. -/
inductive Mark where
  | unvisited
  | inProgress
  | done
deriving DecidableEq

/-- The marks, and what was met while it was in progress. -/
structure Marks (α : Type) where
  state : α → Mark
  flag : α → Bool

section Paths

variable {α : Type} (r : α → α → Prop)

/-- A path that has nothing twice. -/
structure SimplePath (l : List α) : Prop where
  nodup : l.Nodup
  chain : l.IsChain r

/-- There is a cycle through `a`. -/
def OnCycle (a : α) : Prop :=
  Relation.TransGen r a a

/-- There is a cycle through `a` that avoids `S`. -/
def CycleAvoiding (S : List α) (a : α) : Prop :=
  Relation.TransGen (fun x y => r x y ∧ y ∉ S) a a

/-- Whatever path leads to an unmarked member of a cycle, there is a cycle around it. -/
def WayAround (marked : α → Bool) : Prop :=
  ∀ S v, SimplePath r (S ++ [v]) → marked v = false → OnCycle r v → CycleAvoiding r S v

variable {r}
variable {S l : List α}

theorem CycleAvoiding.onCycle {a : α} (h : CycleAvoiding r S a) : OnCycle r a :=
  Relation.TransGen.mono (fun _ _ => And.left) _ _ h

theorem cycleAvoiding_nil {a : α} : CycleAvoiding r [] a ↔ OnCycle r a :=
  ⟨CycleAvoiding.onCycle, fun h =>
    Relation.TransGen.mono (fun _ _ hstep => ⟨hstep, List.not_mem_nil⟩) _ _ h⟩

theorem transGen_of_chain {u w : α} (h : (u :: (l ++ [w])).IsChain r) (hS : ∀ x ∈ l ++ [w], x ∉ S) :
    Relation.TransGen (fun x y => r x y ∧ y ∉ S) u w := by
  induction l generalizing u with
  | nil =>
      have hstep := (List.isChain_cons_cons.mp h).1
      exact .single ⟨hstep, hS w List.mem_cons_self⟩
  | cons x l ih =>
      obtain ⟨hstep, hrest⟩ := List.isChain_cons_cons.mp h
      refine .head ⟨hstep, hS x List.mem_cons_self⟩ (ih hrest fun y hy => ?_)
      exact hS y (List.mem_cons_of_mem _ hy)

theorem SimplePath.left (h : SimplePath r (S ++ l)) : SimplePath r S :=
  ⟨(List.nodup_append.mp h.nodup).1, h.chain.left_of_append⟩

theorem SimplePath.not_mem_of_mem {v : α} (h : SimplePath r (S ++ l)) (hv : v ∈ l) : v ∉ S :=
  fun hS => (List.nodup_append.mp h.nodup).2.2 v hS v hv rfl

theorem SimplePath.not_mem {v : α} (h : SimplePath r (S ++ v :: l)) : v ∉ S :=
  h.not_mem_of_mem List.mem_cons_self

theorem cycleAvoiding_of_chain {u : α} (h : SimplePath r (S ++ u :: l))
    (hback : (S ++ u :: l ++ [u]).IsChain r) : CycleAvoiding r S u := by
  refine transGen_of_chain (l := l) ?_ fun x hx hxS => ?_
  · rw [List.append_assoc] at hback
    exact hback.right_of_append
  · rcases List.mem_append.mp hx with hx | hx
    · exact h.not_mem_of_mem (List.mem_cons_of_mem _ hx) hxS
    · exact h.not_mem (List.mem_singleton.mp hx ▸ hxS)

end Paths

section Search

variable {α : Type} [DecidableEq α]

def Marks.enter (m : Marks α) (a : α) : Marks α :=
  { m with state := Function.update m.state a .inProgress }

/-- The node is left. -/
def Marks.leave (m : Marks α) (a : α) : Marks α :=
  { m with state := Function.update m.state a .done }

/-- The node was met while it was in progress. -/
def Marks.meet (m : Marks α) (a : α) : Marks α :=
  { m with flag := Function.update m.flag a true }

variable (next : α → List α) (cap : Nat)

/-- `y` is one of the successors of `x`. -/
def Among (x y : α) : Prop :=
  y ∈ next x

/-- With `S` on the stack, the search goes through a list. -/
inductive Explores : List α → Marks α → List α → Marks α → Prop
  | nil (S : List α) (m : Marks α) : Explores S m [] m
  | done {S as : List α} {m m' : Marks α} {a : α} (ha : m.state a = .done)
      (h : Explores S m as m') : Explores S m (a :: as) m'
  | back {S as : List α} {m m' : Marks α} {a : α} (ha : m.state a = .inProgress)
      (h : Explores S (m.meet a) as m') : Explores S m (a :: as) m'
  | cut {S as : List α} {m m' : Marks α} {a : α} (ha : m.state a = .unvisited)
      (hcap : S.length = cap) (h : Explores S m as m') : Explores S m (a :: as) m'
  | enter {S as : List α} {m m₁ m' : Marks α} {a : α} (ha : m.state a = .unvisited)
      (hdown : Explores (S ++ [a]) (m.enter a) (next a) m₁)
      (h : Explores S (m₁.leave a) as m') : Explores S m (a :: as) m'

/-- The node is done, or it was met in progress. -/
def Marks.Seen (m : Marks α) (a : α) : Prop :=
  m.state a = .done ∨ m.state a = .inProgress ∧ m.flag a = true

def OnStack (S : List α) (m : Marks α) : Prop :=
  ∀ a, m.state a = .inProgress ↔ a ∈ S

variable {next cap} {S as : List α} {m m' : Marks α} {a b : α}

@[simp] theorem Marks.state_enter :
    (m.enter a).state b = if b = a then .inProgress else m.state b :=
  Function.update_apply _ _ _ _

@[simp] theorem Marks.state_leave : (m.leave a).state b = if b = a then .done else m.state b :=
  Function.update_apply _ _ _ _

@[simp] theorem Marks.state_meet : (m.meet a).state b = m.state b :=
  rfl

@[simp] theorem Marks.flag_enter : (m.enter a).flag b = m.flag b :=
  rfl

@[simp] theorem Marks.flag_leave : (m.leave a).flag b = m.flag b :=
  rfl

@[simp] theorem Marks.flag_meet : (m.meet a).flag b = if b = a then true else m.flag b :=
  Function.update_apply _ _ _ _

theorem Explores.append {bs : List α} {m₁ : Marks α} (h : Explores next cap S m as m₁)
    (h' : Explores next cap S m₁ bs m') : Explores next cap S m (as ++ bs) m' := by
  induction h with
  | nil => exact h'
  | done ha _ ih => exact .done ha (ih h')
  | back ha _ ih => exact .back ha (ih h')
  | cut ha hcap _ ih => exact .cut ha hcap (ih h')
  | enter ha hdown _ _ ih => exact .enter ha hdown (ih h')

theorem Explores.state_done (h : Explores next cap S m as m') (hb : m.state b = .done) :
    m'.state b = .done ∧ m'.flag b = m.flag b := by
  induction h with
  | nil => exact ⟨hb, rfl⟩
  | done _ _ ih => exact ih hb
  | cut _ _ _ ih => exact ih hb
  | @back _ _ m _ a ha _ ih =>
      have hne : b ≠ a := by
        rintro rfl
        exact absurd (ha.symm.trans hb) (by simp)
      obtain ⟨hstate, hflag⟩ := ih hb
      exact ⟨hstate, by rw [hflag, Marks.flag_meet, if_neg hne]⟩
  | @enter _ _ m m₁ _ a ha _ _ ihdown ih =>
      have hne : b ≠ a := by
        rintro rfl
        exact absurd (ha.symm.trans hb) (by simp)
      obtain ⟨hstate₁, hflag₁⟩ := ihdown (by rwa [Marks.state_enter, if_neg hne])
      obtain ⟨hstate, hflag⟩ := ih (by rwa [Marks.state_leave, if_neg hne])
      exact ⟨hstate, by rw [hflag, Marks.flag_leave, hflag₁, Marks.flag_enter]⟩

theorem Explores.state_inProgress (h : Explores next cap S m as m')
    (hb : m.state b = .inProgress) : m'.state b = .inProgress := by
  induction h with
  | nil => exact hb
  | done _ _ ih => exact ih hb
  | cut _ _ _ ih => exact ih hb
  | back _ _ ih => exact ih hb
  | @enter _ _ m m₁ _ a ha _ _ ihdown ih =>
      have hne : b ≠ a := by
        rintro rfl
        exact absurd (ha.symm.trans hb) (by simp)
      have hb₁ := ihdown (by rwa [Marks.state_enter, if_neg hne])
      exact ih (by rwa [Marks.state_leave, if_neg hne])

theorem Explores.flag_mono (h : Explores next cap S m as m') (hb : m.flag b = true) :
    m'.flag b = true := by
  induction h with
  | nil => exact hb
  | done _ _ ih => exact ih hb
  | cut _ _ _ ih => exact ih hb
  | back _ _ ih =>
      refine ih ?_
      rw [Marks.flag_meet, hb]
      exact ite_self _
  | enter _ _ _ ihdown ih => exact ih (ihdown hb)

theorem Explores.seen (h : Explores next cap S m as m') (hb : m.Seen b) : m'.Seen b :=
  hb.imp (fun hdone => (h.state_done hdone).1)
    fun hprogress => ⟨h.state_inProgress hprogress.1, h.flag_mono hprogress.2⟩

theorem OnStack.enter (h : OnStack S m) : OnStack (S ++ [a]) (m.enter a) := by
  intro b
  rw [Marks.state_enter, List.mem_append, List.mem_singleton, ← h b]
  by_cases hb : b = a
  · simp [hb]
  · simp [hb]

omit [DecidableEq α] in
theorem OnStack.not_mem (h : OnStack S m) (ha : m.state a = .unvisited) : a ∉ S :=
  fun hS => absurd (((h a).mpr hS).symm.trans ha) (by simp)

theorem OnStack.leave (h : OnStack (S ++ [a]) m) (ha : a ∉ S) : OnStack S (m.leave a) := by
  intro b
  have hb := h b
  rw [List.mem_append, List.mem_singleton] at hb
  rw [Marks.state_leave]
  by_cases heq : b = a
  · simp [heq, ha]
  · simp [heq, hb]

theorem Explores.onStack (h : Explores next cap S m as m') (hS : OnStack S m) : OnStack S m' := by
  induction h with
  | nil => exact hS
  | done _ _ ih => exact ih hS
  | cut _ _ _ ih => exact ih hS
  | back _ _ ih => exact ih hS
  | enter ha _ _ ihdown ih => exact ih ((ihdown hS.enter).leave (hS.not_mem ha))

theorem Explores.done_of_nil (h : Explores next cap [] m [a] m') (hstack : OnStack [] m)
    (hcap : 0 < cap) : m'.state a = .done := by
  cases h with
  | done ha h => exact (h.state_done ha).1
  | back ha _ => exact absurd ((hstack a).mp ha) List.not_mem_nil
  | cut _ hlength _ => exact absurd hlength (Nat.ne_of_lt hcap)
  | enter _ _ h => exact (h.state_done (by simp)).1

/-- The successors of the top of the stack are listed. -/
def Lists (next : α → List α) (S as : List α) : Prop :=
  ∀ a ∈ as, (S ++ [a]).IsChain (Among next)

omit [DecidableEq α] in
theorem lists_next (h : (S ++ [a]).IsChain (Among next)) :
    Lists next (S ++ [a]) (next a) := by
  intro b hb
  refine List.isChain_append.mpr ⟨h, List.isChain_singleton b, fun x hx y hy => ?_⟩
  rw [List.getLast?_concat] at hx
  obtain rfl := Option.some.inj hx
  obtain rfl := Option.some.inj hy
  exact hb

omit [DecidableEq α] in
theorem SimplePath.enter (h : SimplePath (Among next) S) (ha : a ∉ S)
    (hchain : (S ++ [a]).IsChain (Among next)) : SimplePath (Among next) (S ++ [a]) :=
  ⟨List.nodup_append.mpr ⟨h.nodup, List.pairwise_singleton _ a, by
    rintro x hx _ hy rfl
    exact ha (List.mem_singleton.mp hy ▸ hx)⟩, hchain⟩

structure SearchInv (next : α → List α) (S : List α) (m : Marks α) : Prop where
  stack : OnStack S m
  path : SimplePath (Among next) S
  closed : ∀ w, m.state w = .done → ∀ x ∈ next w, m.Seen x
  right : ∀ w, m.state w = .done → OnCycle (Among next) w → m.flag w = true

theorem Marks.Seen.leave (h : m.Seen b) : (m.leave a).Seen b := by
  rw [Seen, state_leave]
  by_cases hb : b = a
  · exact Or.inl (if_pos hb)
  · rw [if_neg hb]
    exact h

theorem Marks.Seen.enter (h : m.Seen b) (ha : m.state a = .unvisited) : (m.enter a).Seen b := by
  have hb : b ≠ a := by
    rintro rfl
    rw [Seen, ha] at h
    exact absurd h (by simp)
  rw [Seen, state_enter, if_neg hb]
  exact h

theorem Marks.Seen.meet (h : m.Seen b) : (m.meet a).Seen b := by
  refine h.imp id fun hprogress => ⟨hprogress.1, ?_⟩
  rw [flag_meet, hprogress.2]
  exact ite_self _

theorem SearchInv.meet (h : SearchInv next S m) : SearchInv next S (m.meet a) where
  stack := h.stack
  path := h.path
  closed := fun w hw x hx => (h.closed w hw x hx).meet
  right := by
    intro w hw hcycle
    rw [Marks.flag_meet, h.right w hw hcycle]
    exact ite_self _

theorem SearchInv.enter (h : SearchInv next S m) (ha : m.state a = .unvisited)
    (hchain : (S ++ [a]).IsChain (Among next)) :
    SearchInv next (S ++ [a]) (m.enter a) := by
  have hdone : ∀ w, (m.enter a).state w = .done → m.state w = .done := by
    intro w hw
    by_cases heq : w = a
    · simp [heq] at hw
    · rwa [Marks.state_enter, if_neg heq] at hw
  exact ⟨h.stack.enter, h.path.enter (h.stack.not_mem ha) hchain,
    fun w hw x hx => (h.closed w (hdone w hw) x hx).enter ha,
    fun w hw hcycle => h.right w (hdone w hw) hcycle⟩

omit [DecidableEq α] in
theorem SearchInv.done_or_flag (h : SearchInv next (S ++ [a]) m) (hseen : ∀ c ∈ next a, m.Seen c)
    (hb : Relation.TransGen (fun x y => Among next x y ∧ y ∉ S) a b) :
    m.state b = .done ∨ b = a ∧ m.flag a = true := by
  have hfrom : ∀ y, m.Seen y → y ∉ S → m.state y = .done ∨ y = a ∧ m.flag a = true := by
    rintro y (hdone | ⟨hprogress, hflag⟩) hy
    · exact Or.inl hdone
    · have hmem := (h.stack y).mp hprogress
      rw [List.mem_append, List.mem_singleton] at hmem
      obtain rfl := hmem.resolve_left hy
      exact Or.inr ⟨rfl, hflag⟩
  induction hb with
  | single hstep => exact hfrom _ (hseen _ hstep.1) hstep.2
  | tail _ hstep ih =>
      rcases ih with hdone | ⟨rfl, _⟩
      · exact hfrom _ (h.closed _ hdone _ hstep.1) hstep.2
      · exact hfrom _ (hseen _ hstep.1) hstep.2

theorem SearchInv.leave (h : SearchInv next (S ++ [a]) m) (ha : a ∉ S)
    (hseen : ∀ c ∈ next a, m.Seen c) {marked : α → Bool} (hway : WayAround (Among next) marked)
    (hmarked : ∀ b, marked b = true → m.flag b = true) : SearchInv next S (m.leave a) := by
  refine ⟨h.stack.leave ha, h.path.left, fun w hw x hx => ?_, fun w hw hcycle => ?_⟩
  · by_cases heq : w = a
    · exact (hseen x (heq ▸ hx)).leave
    · rw [Marks.state_leave, if_neg heq] at hw
      exact (h.closed w hw x hx).leave
  · rw [Marks.flag_leave]
    by_cases heq : w = a
    · subst heq
      cases hmark : marked w with
      | true => exact hmarked w hmark
      | false =>
          rcases h.done_or_flag hseen (hway S w h.path hmark hcycle) with hdone | ⟨_, hflag⟩
          · exact h.right w hdone hcycle
          · exact hflag
    · rw [Marks.state_leave, if_neg heq] at hw
      exact h.right w hw hcycle

theorem Explores.inv {marked : α → Bool} (hway : WayAround (Among next) marked)
    (hcap : ∀ l, SimplePath (Among next) l → l.length ≤ cap) (h : Explores next cap S m as m')
    (hinv : SearchInv next S m) (hlists : Lists next S as)
    (hmarked : ∀ b, marked b = true → m.flag b = true) :
    SearchInv next S m' ∧ ∀ a ∈ as, m'.Seen a := by
  induction h with
  | nil => exact ⟨hinv, fun a ha => absurd ha List.not_mem_nil⟩
  | done ha h ih =>
      obtain ⟨hinv', hseen⟩ := ih hinv (fun b hb => hlists b (List.mem_cons_of_mem _ hb)) hmarked
      exact ⟨hinv', List.forall_mem_cons.mpr ⟨h.seen (Or.inl ha), hseen⟩⟩
  | back ha h ih =>
      obtain ⟨hinv', hseen⟩ := ih hinv.meet (fun b hb => hlists b (List.mem_cons_of_mem _ hb))
        fun b hb => by simp [hmarked b hb]
      exact ⟨hinv', List.forall_mem_cons.mpr ⟨h.seen (Or.inr ⟨ha, by simp⟩), hseen⟩⟩
  | @cut S _ _ _ a ha hlength _ _ =>
      -- the stack with the node on it would be too long
      have hpath := hinv.path.enter (hinv.stack.not_mem ha) (hlists a List.mem_cons_self)
      have hle := hcap _ hpath
      rw [List.length_append, List.length_singleton] at hle
      omega
  | enter ha hdown h ihdown ih =>
      have hchain := hlists _ List.mem_cons_self
      obtain ⟨hinv₁, hseen₁⟩ := ihdown (hinv.enter ha hchain) (lists_next hchain) hmarked
      have hmarked₁ : ∀ b, marked b = true → _ := fun b hb => hdown.flag_mono (hmarked b hb)
      obtain ⟨hinv', hseen⟩ := ih (hinv₁.leave (hinv.stack.not_mem ha) hseen₁ hway hmarked₁)
        (fun b hb => hlists b (List.mem_cons_of_mem _ hb)) hmarked₁
      exact ⟨hinv', List.forall_mem_cons.mpr ⟨h.seen (Or.inl (by simp)), hseen⟩⟩

theorem Explores.exists_cycle (h : Explores next cap S m as m') (hS : OnStack S m)
    (hpath : SimplePath (Among next) S) (hlists : Lists next S as) (hb : m'.flag b = true) :
    m.flag b = true ∨ ∃ T l, S <+: T ++ b :: l ∧ SimplePath (Among next) (T ++ b :: l) ∧
      CycleAvoiding (Among next) T b := by
  induction h with
  | nil => exact Or.inl hb
  | done _ _ ih => exact ih hS hpath (fun c hc => hlists c (List.mem_cons_of_mem _ hc)) hb
  | cut _ _ _ ih => exact ih hS hpath (fun c hc => hlists c (List.mem_cons_of_mem _ hc)) hb
  | @back S _ m _ a ha _ ih =>
      rcases ih hS hpath (fun c hc => hlists c (List.mem_cons_of_mem _ hc)) hb with hflag | hcycle
      · rw [Marks.flag_meet] at hflag
        by_cases heq : b = a
        · subst heq
          obtain ⟨T, l, rfl⟩ := List.append_of_mem ((hS b).mp ha)
          exact Or.inr ⟨T, l, List.prefix_rfl, hpath,
            cycleAvoiding_of_chain hpath (hlists b List.mem_cons_self)⟩
        · exact Or.inl (by rwa [if_neg heq] at hflag)
      · exact Or.inr hcycle
  | @enter S _ m m₁ _ a ha hdown _ ihdown ih =>
      have hchain := hlists a List.mem_cons_self
      have ha' := hS.not_mem ha
      rcases ih ((hdown.onStack hS.enter).leave ha') hpath
        (fun c hc => hlists c (List.mem_cons_of_mem _ hc)) hb with hflag | hcycle
      · rcases ihdown hS.enter (hpath.enter ha' hchain) (lists_next hchain) hflag with
          hflag | ⟨T, l, hstack, hcycle⟩
        · exact Or.inl hflag
        · exact Or.inr ⟨T, l, (List.prefix_append S [a]).trans hstack, hcycle⟩
      · exact Or.inr hcycle

/-- What follows on the path is the first successor. -/
def FirstNext (next : α → List α) (l : List α) : Prop :=
  l.IsChain fun x y => (next x).head? = some y

theorem Explores.of_unvisited (h : Explores next cap S m (a :: as) m')
    (ha : m.state a = .unvisited) (hcap : S.length < cap) :
    ∃ m₁, Explores next cap (S ++ [a]) (m.enter a) (next a) m₁ ∧
      Explores next cap S (m₁.leave a) as m' := by
  cases h with
  | done hdone _ => exact absurd (ha.symm.trans hdone) (by simp)
  | back hprogress _ => exact absurd (ha.symm.trans hprogress) (by simp)
  | cut _ hlength _ => exact absurd hlength (Nat.ne_of_lt hcap)
  | enter _ hdown h => exact ⟨_, hdown, h⟩

omit [DecidableEq α] in
theorem SimplePath.front_eq {T l : List α} (h : SimplePath (Among next) (T ++ a :: l))
    (hS : S ++ [a] <+: T ++ a :: l) : T = S := by
  obtain ⟨r, hr⟩ := hS
  rw [List.append_assoc, List.singleton_append] at hr
  have hpath : SimplePath (Among next) (S ++ a :: r) := hr ▸ h
  rcases List.append_eq_append_iff.mp hr with ⟨U, rfl, hU⟩ | ⟨U, rfl, hU⟩
  · cases U with
    | nil => exact List.append_nil S
    | cons x U =>
        obtain ⟨rfl, _⟩ := List.cons.inj hU
        exact absurd (List.mem_append_right S List.mem_cons_self) h.not_mem
  · cases U with
    | nil => exact (List.append_nil T).symm
    | cons x U =>
        obtain ⟨rfl, _⟩ := List.cons.inj hU
        exact absurd (List.mem_append_right T List.mem_cons_self) hpath.not_mem

theorem Explores.down (hcap : ∀ l, SimplePath (Among next) l → l.length ≤ cap) {l : List α}
    (h : Explores next cap S m (a :: as) m') (hS : OnStack S m)
    (hpath : SimplePath (Among next) (S ++ a :: l)) (hnew : ∀ x ∈ a :: l, m.state x = .unvisited)
    (hfirst : FirstNext next (a :: l)) {front : List α} {v : α} (hv : a :: l = front ++ [v]) :
    m'.state v = .done ∧
      (m'.flag v = true → m.flag v = true ∨ CycleAvoiding (Among next) (S ++ front) v) := by
  have hlt : S.length < cap := by
    have hle := hcap _ hpath
    rw [List.length_append, List.length_cons] at hle
    omega
  induction l generalizing S m a as m' front with
  | nil =>
      obtain ⟨rfl, rfl⟩ : front = [] ∧ a = v := by
        cases front with
        | nil => exact ⟨rfl, (List.cons.inj hv).1⟩
        | cons _ _ => simp at hv
      obtain ⟨m₁, hdown, hrest⟩ := h.of_unvisited (hnew a List.mem_cons_self) hlt
      obtain ⟨hstate, hflag⟩ := hrest.state_done (b := a) (by simp)
      refine ⟨hstate, fun hset => ?_⟩
      rw [hflag, Marks.flag_leave] at hset
      rcases hdown.exists_cycle hS.enter hpath (lists_next hpath.chain) hset with
        hold | ⟨T, l, hstack, hsimple, hcycle⟩
      · exact Or.inl hold
      · rw [List.append_nil, ← hsimple.front_eq hstack]
        exact Or.inr hcycle
  | cons b l ih =>
      obtain ⟨front, rfl⟩ : ∃ front', front = a :: front' := by
        cases front with
        | nil => simp at hv
        | cons x front' => exact ⟨front', by rw [(List.cons.inj hv).1]⟩
      obtain ⟨m₁, hdown, hrest⟩ := h.of_unvisited (hnew a List.mem_cons_self) hlt
      obtain ⟨hhead, hfirst'⟩ := List.isChain_cons_cons.mp hfirst
      obtain ⟨rest, hnext⟩ := List.head?_eq_some_iff.mp hhead
      rw [hnext] at hdown
      have hpath' : SimplePath (Among next) (S ++ [a] ++ b :: l) := by
        rwa [List.append_assoc]
      have hnew' : ∀ x ∈ b :: l, (m.enter a).state x = .unvisited := by
        intro x hx
        rw [Marks.state_enter, if_neg]
        · exact hnew x (List.mem_cons_of_mem _ hx)
        · rintro rfl
          exact hpath'.not_mem_of_mem hx (List.mem_append_right S List.mem_cons_self)
      have hlt' : (S ++ [a]).length < cap := by
        have hle := hcap _ hpath'
        rw [List.length_append, List.length_cons] at hle
        omega
      obtain ⟨hstate₁, hflag₁⟩ := ih hdown hS.enter hpath' hnew' hfirst' (List.cons.inj hv).2 hlt'
      obtain ⟨hstate, hflag⟩ := hrest.state_done (b := v) (by
        rw [Marks.state_leave, hstate₁]
        exact ite_self _)
      refine ⟨hstate, fun hset => ?_⟩
      rw [hflag, Marks.flag_leave] at hset
      rw [List.append_cons]
      exact hflag₁ hset

end Search

end Lib
end CodebaseMemory
