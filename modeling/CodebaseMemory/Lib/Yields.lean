import CodebaseMemory.Lib.Descent

/-!
# Recursive descent, with the value that is read

`Yields N f a L ok` says what a run gives: a word of `L` is read without a slip,
and the value is `a`, if what comes after it is as `ok` says and there are fewer
than `N` tokens left.  A language for each value makes a printer of the values,
and the parser reads back what it prints.
-/

namespace CodebaseMemory
namespace Lib

open Computability

variable {κ ε α β : Type}

/-- The parser reads the word `w` as `a`, leaves `r`, and does not slip. -/
def Parser.Gives (f : Parser κ ε α) (a : α) (p : Cursor κ ε) (w r : List (Token κ)) : Prop :=
  ∃ q, f.run p = (some a, q) ∧ q.rest = r ∧ q.slipped = p.slipped ∧
    q.before = w.reverse ++ p.before

/-- The parser reads the words of the language as `a`. -/
def Yields (N : Nat) (f : Parser κ ε α) (a : α) (L : Language (Token κ))
    (ok : List (Token κ) → Prop) : Prop :=
  ∀ ⦃p : Cursor κ ε⦄ ⦃w r : List (Token κ)⦄, p.rest.length < N → w ∈ L → p.rest = w ++ r → ok r →
    f.Gives a p w r

theorem Parser.run_goOn {f : Parser κ ε α} {p q : Cursor κ ε} {a : α}
    (h : f.run p = (some a, q)) : (Parser.goOn f).run p = (some (some a), q) := by
  simp [Parser.goOn, Parser.orGoOn, h, Pure.pure]

/-- The words of one token of this kind with this text. -/
def textTok (k : κ) (s : List UInt8) : Language (Token κ) :=
  {w | ∃ t : Token κ, t.type = k ∧ t.text = s ∧ w = [t]}

/-- The words are single tokens of this kind that are as `Q` says. -/
def OfKind (T : Language (Token κ)) (k : κ) (Q : Token κ → Prop) : Prop :=
  ∀ w ∈ T, ∃ t : Token κ, t.type = k ∧ Q t ∧ w = [t]

theorem ofKind_tok (k : κ) : OfKind (tok k) k (fun _ => True) := by
  rintro w ⟨t, ht, rfl⟩
  exact ⟨t, ht, trivial, rfl⟩

theorem ofKind_text (k : κ) (s : List UInt8) : OfKind (textTok k s) k (fun t => t.text = s) := by
  rintro w ⟨t, ht, hs, rfl⟩
  exact ⟨t, ht, hs, rfl⟩

@[simp] theorem follows_text_mul {k : κ} {s : List UInt8} {L : Language (Token κ)} {ks : List κ}
    {ok' : List (Token κ) → Prop} (h : k ∉ ks) : Follows (textTok k s * L) ok' (Avoids ks) := by
  intro v hv r _
  obtain ⟨x, ⟨t, rfl, -, rfl⟩, u, -, rfl⟩ := Language.mem_mul.mp hv
  exact avoids_cons.mpr h

@[simp] theorem follows_text {k : κ} {s : List UInt8} {ks : List κ}
    {ok' : List (Token κ) → Prop} (h : k ∉ ks) : Follows (textTok k s) ok' (Avoids ks) := by
  rintro v ⟨t, rfl, -, rfl⟩ r _
  exact avoids_cons.mpr h

namespace Yields

variable {N N' : Nat} {L M T : Language (Token κ)} {ok ok' : List (Token κ) → Prop}
variable {f : Parser κ ε α} {g : α → Parser κ ε β} {a : α} {b : β}

theorem mono (h : Yields N f a L ok) (hN : N' ≤ N) : Yields N' f a L ok :=
  fun _ _ _ hlt => h (Nat.lt_of_lt_of_le hlt hN)

theorem le (h : Yields N f a L ok) (hL : M ≤ L) (hok : ∀ r, ok' r → ok r) :
    Yields N f a M ok' :=
  fun _ _ _ hlt hw hrest hr => h hlt (hL hw) hrest (hok _ hr)

theorem add (hL : Yields N f a L ok) (hM : Yields N f a M ok) : Yields N f a (L + M) ok :=
  fun _ _ _ hlt hw hrest hr => hw.elim (fun hw => hL hlt hw hrest hr)
    (fun hw => hM hlt hw hrest hr)

theorem zero : Yields 0 f a L ok :=
  fun _ _ _ hlt => absurd hlt (Nat.not_lt_zero _)

theorem pure (a : α) : Yields N (Pure.pure a : Parser κ ε α) a 1 ok := by
  intro p w r _ hw hrest _
  rw [(Language.mem_one w).mp hw] at hrest ⊢
  exact ⟨p, rfl, hrest, rfl, rfl⟩

theorem bindLt (hf : Yields N f a L ok) (hg : Yields N' (g a) b M ok')
    (hfollows : Follows M ok' ok) (hlt : ∀ w ∈ L, N ≤ N' + w.length) :
    Yields N (f >>= g) b (L * M) ok' := by
  intro p u r hN hu hrest hr
  obtain ⟨w, hw, v, hv, rfl⟩ := Language.mem_mul.mp hu
  rw [List.append_assoc] at hrest
  obtain ⟨p', hrun, hp', hslip, hbefore⟩ := hf hN hw hrest (hfollows v hv r hr)
  have hN' : p'.rest.length < N' := by
    have hw' := hlt w hw
    rw [hp']
    rw [hrest, List.length_append] at hN
    omega
  obtain ⟨q, hrun', hq, hslip', hbefore'⟩ := hg hN' hv hp' hr
  refine ⟨q, ?_, hq, hslip'.trans hslip, ?_⟩
  · change Parser.bindRun f g p = _
    rw [Parser.bindRun, hrun]
    exact hrun'
  · rw [hbefore', hbefore, List.reverse_append, List.append_assoc]

theorem bind (hf : Yields N f a L ok) (hg : Yields N (g a) b M ok')
    (hfollows : Follows M ok' ok) : Yields N (f >>= g) b (L * M) ok' :=
  hf.bindLt hg hfollows fun _ _ => Nat.le_add_right _ _

theorem bind_one (hf : Yields N f a 1 ok) (hg : Yields N (g a) b M ok')
    (hfollows : Follows M ok' ok) : Yields N (f >>= g) b M ok' := by
  have h := hf.bind hg hfollows
  rwa [one_mul] at h

theorem map {g : α → β} (hf : Yields N f a L ok) :
    Yields N (f >>= fun a => Pure.pure (g a)) (g a) L ok := by
  have h := hf.bind (pure (g a)) (g := fun a => Pure.pure (g a)) follows_self
  rwa [mul_one] at h

theorem orGoOn {found : α → Parser κ ε β} {missed : Parser κ ε β}
    (h : Yields N (f >>= found) b L ok) : Yields N (Parser.orGoOn f found missed) b L ok := by
  intro p w r hN hw hrest hr
  obtain ⟨q, hrun, hq⟩ := h hN hw hrest hr
  refine ⟨q, ?_, hq⟩
  change Parser.bindRun f found p = _ at hrun
  unfold Parser.bindRun at hrun
  rcases hp : f.run p with ⟨_ | a, p'⟩
  · rw [hp] at hrun
    cases hrun
  · rw [hp] at hrun
    simpa only [Parser.orGoOn, hp] using hrun

theorem andAlso {g : Parser κ ε β} (hf : Yields N f a L ok) (hg : Parses N g M ok')
    (hfollows : Follows M ok' ok) : Yields N (Parser.andAlso f g) a (L * M) ok' := by
  intro p u r hN hu hrest hr
  obtain ⟨w, hw, v, hv, rfl⟩ := Language.mem_mul.mp hu
  rw [List.append_assoc] at hrest
  obtain ⟨p', hrun, hp', hslip, hbefore⟩ := hf hN hw hrest (hfollows v hv r hr)
  have hN' : p'.rest.length < N := by
    rw [hp']
    rw [hrest, List.length_append] at hN
    omega
  obtain ⟨b, q, hrun', hq, hslip', hbefore'⟩ := hg.goOn.complete hN' hv hp' hr
  refine ⟨q, ?_, hq, hslip'.trans hslip, ?_⟩
  · change ((f.run p).1, ((Parser.goOn g).run (f.run p).2).2) = _
    rw [hrun]
    exact congrArg (fun x => (some a, x.2)) hrun'
  · rw [hbefore', hbefore, List.reverse_append, List.append_assoc]

theorem withFuel {f : Nat → Parser κ ε α} (hf : ∀ n, Yields (min n N) (f n) a L ok) :
    Yields N (Parser.withFuel f) a L ok :=
  fun _ _ _ hlt hw hrest hr => hf _ (Nat.lt_min.mpr ⟨Nat.lt_succ_self _, hlt⟩) hw hrest hr

section Choice

variable {c : List (Token κ) → Bool} {f g : Parser κ ε α}

theorem ifRest_pos (hf : Yields N f a L ok) (hc : ∀ w ∈ L, ∀ r, ok r → c (w ++ r) = true) :
    Yields N (Parser.ifRest c f g) a L ok := by
  intro p w r hN hw hrest hr
  obtain ⟨q, hrun, hq⟩ := hf hN hw hrest hr
  refine ⟨q, ?_, hq⟩
  rw [Parser.run_ifRest_pos (by rw [hrest]; exact hc w hw r hr), hrun]

theorem ifRest_neg (hg : Yields N g a L ok) (hc : ∀ w ∈ L, ∀ r, ok r → c (w ++ r) = false) :
    Yields N (Parser.ifRest c f g) a L ok := by
  intro p w r hN hw hrest hr
  obtain ⟨q, hrun, hq⟩ := hg hN hw hrest hr
  refine ⟨q, ?_, hq⟩
  rw [Parser.run_ifRest_neg (by rw [hrest]; exact hc w hw r hr), hrun]

end Choice

section Kinds

variable {k : κ} {ks : List κ} {Q : Token κ → Prop}
variable {f g : Token κ → Parser κ ε α}
variable {err : List (Token κ) → ε}

theorem advance {c : Token κ → Bool} (hT : OfKind T k Q)
    (hc : ∀ t : Token κ, t.type = k → c t = true) (hg : ∀ t, Q t → Yields (N - 1) (g t) a L ok) :
    Yields N (Parser.advance c >>= g) a (T * L) ok := by
  intro p u r hN hu hrest hr
  obtain ⟨w, hw, v, hv, rfl⟩ := Language.mem_mul.mp hu
  obtain ⟨t, ht, hQ, rfl⟩ := hT w hw
  have hread : (Parser.advance c : Parser κ ε (Token κ)).run p =
      (some t, { p with before := t :: p.before, rest := v ++ r }) := by
    simp [Parser.advance, hrest, hc t ht]
  have hN' : (v ++ r).length < N - 1 := by
    rw [hrest, List.append_assoc, List.singleton_append, List.length_cons] at hN
    omega
  obtain ⟨q, hrun, hq, hslip, hbefore⟩ :=
    hg t hQ (p := { p with before := t :: p.before, rest := v ++ r }) hN' hv rfl hr
  refine ⟨q, ?_, hq, hslip, ?_⟩
  · change Parser.bindRun (Parser.advance c) g p = _
    rw [Parser.bindRun, hread]
    exact hrun
  · rw [hbefore, List.reverse_append, List.append_assoc]
    rfl

variable [DecidableEq κ]

theorem startsAs_ofKind (hT : OfKind T k Q) {w : List (Token κ)} (hw : w ∈ T * L)
    (r : List (Token κ)) : Parser.startsAs (Parser.isTok k) (w ++ r) = true := by
  obtain ⟨x, hx, v, -, rfl⟩ := Language.mem_mul.mp hw
  obtain ⟨t, ht, -, rfl⟩ := hT x hx
  exact decide_eq_true ht

theorem ifMatch {g : Parser κ ε α} (hT : OfKind T k Q)
    (hf : ∀ t, Q t → Yields (N - 1) (f t) a L ok) : Yields N (Parser.ifMatch k f g) a (T * L) ok :=
  ifRest_pos (advance hT (fun _ ht => decide_eq_true ht) hf)
    fun _ hw r _ => startsAs_ofKind hT hw r

theorem ifMatch_one {g : Parser κ ε α} (hT : OfKind T k Q)
    (hf : ∀ t, Q t → Yields (N - 1) (f t) a 1 ok) : Yields N (Parser.ifMatch k f g) a T ok := by
  have h : Yields N (Parser.ifMatch k f g) a (T * 1) ok := ifMatch hT hf
  rwa [mul_one] at h

theorem ifMatch_miss {g : Parser κ ε α} (hg : Yields N g a L ok) (hL : Follows L ok (Avoids [k])) :
    Yields N (Parser.ifMatch k f g) a L ok :=
  hg.ifRest_neg fun w hw r hr =>
    Parses.startsAs_eq_false (fun _ => Parses.isTok_type) (hL w hw r hr)

theorem expect (hT : OfKind T k Q) (hg : ∀ t, Q t → Yields (N - 1) (g t) a L ok) :
    Yields N (Parser.expect k err >>= g) a (T * L) ok := by
  intro p w r hN hw hrest hr
  obtain ⟨q, hrun, hq⟩ := advance hT (fun _ ht => decide_eq_true ht) hg hN hw hrest hr
  refine ⟨q, ?_, hq⟩
  rw [← hrun]
  refine Parser.run_bind_congr g (Parser.run_ifRest_pos ?_)
  rw [hrest]
  exact startsAs_ofKind hT hw r

theorem expect_one (hT : OfKind T k Q) (hg : ∀ t, Q t → Yields (N - 1) (g t) a 1 ok) :
    Yields N (Parser.expect k err >>= g) a T ok := by
  have h : Yields N (Parser.expect k err >>= g) a (T * 1) ok := expect hT hg
  rwa [mul_one] at h

theorem goOn_expect (hT : OfKind T k Q) (a : α) :
    Yields N (Parser.goOn (Parser.expect k err) >>= fun _ => Pure.pure a) a T ok := by
  have h : Yields N (Parser.expect k err >>= fun _ => Pure.pure a) a T ok :=
    expect_one hT fun _ _ => pure a
  intro p w r hN hw hrest hr
  obtain ⟨q, hrun, hq⟩ := h hN hw hrest hr
  refine ⟨q, ?_, hq⟩
  change Parser.bindRun _ _ p = _ at hrun
  unfold Parser.bindRun at hrun
  split at hrun
  · cases hrun
  · next t p' hp' =>
      change Parser.bindRun _ _ p = _
      rw [Parser.bindRun, Parser.run_goOn hp']
      exact hrun

end Kinds

section Loops

variable {k : κ} {ks : List κ}

theorem loop_nil {go : List (Token κ) → Bool} {front : Parser κ ε β} {back : β → Parser κ ε α}
    (hgo : ∀ r, ok r → go r = false) (n : Nat) :
    Yields n (Parser.loop go front back n) [] 1 ok := by
  cases n with
  | zero => exact zero
  | succ n =>
      refine ifRest_neg (pure []) fun w hw r hr => ?_
      rw [(Language.mem_one w).mp hw]
      exact hgo r hr

theorem loop_cons {go : List (Token κ) → Bool} {back : Parser κ ε α} {as : List α} {n : Nat}
    (hback : ∀ N, Yields N back a L ok') (hgo : ∀ w ∈ L, ∀ r, w ≠ [] ∧ go (w ++ r) = true)
    (h : Yields n (Parser.loop go (Pure.pure ()) (fun _ => back) n) as M ok)
    (hfollows : Follows M ok ok') :
    Yields (n + 1) (Parser.loop go (Pure.pure ()) (fun _ => back) (n + 1)) (a :: as) (L * M)
      ok := by
  refine ifRest_pos (orGoOn ((pure ()).bind_one
    ((hback _).bindLt h.map hfollows fun w hw => ?_) follows_true)) fun w hw r _ => ?_
  · have hpos := List.length_pos_of_ne_nil (hgo w hw []).1
    omega
  · obtain ⟨u, hu, v, -, rfl⟩ := Language.mem_mul.mp hw
    rw [List.append_assoc]
    exact (hgo u hu (v ++ r)).2

/-- The rounds of a loop, each after a token of this kind. -/
def rounds (k : κ) (A : α → Language (Token κ)) (as : List α) : Language (Token κ) :=
  (as.map fun a => tok k * A a).prod

theorem rounds_cons (k : κ) (A : α → Language (Token κ)) (a : α) (as : List α) :
    rounds k A (a :: as) = tok k * (A a * rounds k A as) := by
  rw [rounds, List.map_cons, List.prod_cons, mul_assoc]
  rfl

theorem rounds_concat (k : κ) (A : α → Language (Token κ)) (as : List α) (a : α) :
    rounds k A (as ++ [a]) = rounds k A as * (tok k * A a) := by
  rw [rounds, List.map_append, List.prod_append, List.map_singleton, List.prod_singleton]
  rfl

theorem follows_rounds {A : α → Language (Token κ)} (hk : k ∉ ks) (as : List α) :
    Follows (rounds k A as) (Avoids (k :: ks)) (Avoids ks) := by
  cases as with
  | nil => exact follows_one_avoids (List.subset_cons_self k ks)
  | cons a as =>
      rw [rounds_cons]
      exact follows_tok_mul hk

theorem whileMatch [DecidableEq κ] {f : Parser κ ε α} {A : α → Language (Token κ)}
    (hf : ∀ a, Yields N f a (A a) (Avoids ks)) (hk : k ∉ ks) (as : List α) :
    Yields N (Parser.whileMatch k f) as (rounds k A as) (Avoids (k :: ks)) := by
  refine withFuel fun n => ?_
  induction as generalizing n with
  | nil =>
      cases n with
      | zero =>
          rw [Nat.zero_min]
          exact zero
      | succ n =>
          refine ifRest_neg (pure []) fun w hw r hr => ?_
          rw [(Language.mem_one w).mp hw]
          exact Parses.startsAs_eq_false (fun _ => Parses.isTok_type) hr.head
  | cons a as ih =>
      cases n with
      | zero =>
          rw [Nat.zero_min]
          exact zero
      | succ n =>
          rw [rounds_cons]
          refine ifRest_pos (orGoOn (advance (ofKind_tok k) (fun _ ht => decide_eq_true ht)
            fun t _ => ?_)) fun _ hw r _ => startsAs_ofKind (ofKind_tok k) hw r
          have hbound : min (n + 1) N - 1 ≤ min n N := by omega
          exact (((hf a).mono (Nat.min_le_right n N)).bind (ih n).map
            (follows_rounds hk as)).mono hbound

end Loops

end Yields

end Lib
end CodebaseMemory
