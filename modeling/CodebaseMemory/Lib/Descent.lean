import Mathlib.Computability.Language
import Mathlib.Order.CompletePartialOrder

/-!
# Recursive descent over a token cursor

A parser runs on a cursor into a list of tokens and returns a value or fails;
either way there is a new cursor.  A parser that looks for a token and goes on
whether it was there or not *slips* where it was not, and the cursor remembers
that, whatever happens later.  This is no part of what a parser computes.

`Parses N f L ok` compares a parser with a language.  A run that succeeds without
a slip has read a word of `L`; and a word of `L` is read, without a slip, if what
comes after it is as `ok` says (a loop must not find another round there) and
there are fewer than `N` tokens left.  The bound is for parsers that call
themselves with less fuel.
-/

namespace CodebaseMemory
namespace Lib

open Computability

structure Token (κ : Type) where
  type : κ
  text : List UInt8
  pos : Nat

/-- A place in a list of tokens; `before` has the last token first. -/
structure Cursor (κ ε : Type) where
  before : List (Token κ)
  rest : List (Token κ)
  error : Option ε
  /-- ghost: a token was missing, and the parser went on -/
  slipped : Bool

/-- A parser.  It never forgets a slip. -/
structure Parser (κ ε α : Type) where
  run : Cursor κ ε → Option α × Cursor κ ε
  keeps : ∀ p, p.slipped = true → (run p).2.slipped = true

variable {κ ε α β : Type}

namespace Parser

/-- Runs `f`, then `g` on its result. -/
def bindRun (f : Parser κ ε α) (g : α → Parser κ ε β) (p : Cursor κ ε) : Option β × Cursor κ ε :=
  match f.run p with
  | (none, q) => (none, q)
  | (some a, q) => (g a).run q

instance : Monad (Parser κ ε) where
  pure a := ⟨fun p => (some a, p), fun _ h => h⟩
  bind f g :=
    { run := bindRun f g
      keeps := by
        intro p hp
        have hf := f.keeps p hp
        unfold bindRun
        split
        · next q hq => rwa [hq] at hf
        · next a q hq =>
            rw [hq] at hf
            exact (g a).keeps q hf }

def fail (err : List (Token κ) → ε) : Parser κ ε α where
  run p := (none, { p with error := some (err p.rest) })
  keeps _ h := h

/-- Fails without an error. -/
def stop : Parser κ ε α where
  run p := (none, p)
  keeps _ h := h

/-- Goes past the next token if it is as `c` says. -/
def advance (c : Token κ → Bool) : Parser κ ε (Token κ) where
  run p :=
    match p.rest with
    | [] => (none, p)
    | t :: rest =>
        if c t then (some t, { p with before := t :: p.before, rest := rest }) else (none, p)
  keeps p h := by
    split
    · exact h
    · split <;> exact h

/-- Decides by the tokens that are left. -/
def ifRest (c : List (Token κ) → Bool) (f g : Parser κ ε α) : Parser κ ε α where
  run p := if c p.rest then f.run p else g.run p
  keeps p h := by
    split
    · exact f.keeps p h
    · exact g.keeps p h

/-- Decides by what was read last, the number of tokens read included. -/
def ifBefore (c : List (Token κ) → Bool) (f g : Parser κ ε α) : Parser κ ε α where
  run p := if c p.before then f.run p else g.run p
  keeps p h := by
    split
    · exact f.keeps p h
    · exact g.keeps p h

def slip : Parser κ ε Unit where
  run p := (some (), { p with slipped := true })
  keeps _ _ := rfl

/-- Goes on with the result of `f`, or slips and goes on without it. -/
def orGoOn (f : Parser κ ε α) (found : α → Parser κ ε β) (missed : Parser κ ε β) :
    Parser κ ε β where
  run p :=
    match f.run p with
    | (none, q) => missed.run { q with slipped := true }
    | (some a, q) => (found a).run q
  keeps p h := by
    have hf := f.keeps p h
    split
    · exact missed.keeps _ rfl
    · next a q hq =>
        rw [hq] at hf
        exact (found a).keeps q hf

/-- The result of `f`, if there is one. -/
def goOn (f : Parser κ ε α) : Parser κ ε (Option α) :=
  orGoOn f (fun a => pure (some a)) (pure none)

/-- Runs `g` after `f` even if `f` has failed; the result is that of `f`. -/
def andAlso (f : Parser κ ε α) (g : Parser κ ε β) : Parser κ ε α where
  run p := ((f.run p).1, ((goOn g).run (f.run p).2).2)
  keeps p h := (goOn g).keeps _ (f.keeps p h)

/-- Replaces the error of a failure. -/
def orError (err : ε) (f : Parser κ ε α) : Parser κ ε α where
  run p :=
    match f.run p with
    | (none, q) => (none, { q with error := some err })
    | (some a, q) => (some a, q)
  keeps p h := by
    have hf := f.keeps p h
    split
    · next q hq => rwa [hq] at hf
    · next a q hq => rwa [hq] at hf

/-- Runs with more fuel than there are tokens. -/
def withFuel (f : Nat → Parser κ ε α) : Parser κ ε α where
  run p := (f (p.rest.length + 1)).run p
  keeps p := (f (p.rest.length + 1)).keeps p

/-- A loop.  A round that misses its front part ends it. -/
def loop (go : List (Token κ) → Bool) (front : Parser κ ε β) (back : β → Parser κ ε α) :
    Nat → Parser κ ε (List α)
  | 0 => pure []
  | fuel + 1 =>
      ifRest go
        (orGoOn front
          (fun b => do
            let a ← back b
            let as ← loop go front back fuel
            pure (a :: as))
          (pure []))
        (pure [])

/-- The next token is as `c` says. -/
def startsAs (c : Token κ → Bool) : List (Token κ) → Bool
  | [] => false
  | t :: _ => c t

section Kinds

variable [DecidableEq κ]

/-- The token is of this kind. -/
def isTok (k : κ) (t : Token κ) : Bool :=
  t.type = k

/-- Reads a token of this kind. -/
def expect (k : κ) (err : List (Token κ) → ε) : Parser κ ε (Token κ) :=
  ifRest (startsAs (isTok k)) (advance (isTok k)) (fail err)

/-- Reads a token of this kind and goes on with `f`, or goes on with `g`. -/
def ifMatch (k : κ) (f : Token κ → Parser κ ε α) (g : Parser κ ε α) : Parser κ ε α :=
  ifRest (startsAs (isTok k)) (advance (isTok k) >>= f) g

/-- Reads a token of this kind if there is one. -/
def optional (k : κ) : Parser κ ε Bool :=
  ifMatch k (fun _ => pure true) (pure false)

/-- Goes on as long as there is a token of this kind. -/
def whileMatch (k : κ) (f : Parser κ ε α) : Parser κ ε (List α) :=
  withFuel (loop (startsAs (isTok k)) (advance (isTok k)) (fun _ => f))

end Kinds

variable {p : Cursor κ ε}
variable {f g : Parser κ ε α}
variable {c : List (Token κ) → Bool}

theorem ext (h : ∀ p, f.run p = g.run p) : f = g := by
  cases f
  cases g
  congr
  exact funext h

theorem ifRest_congr {f' g' : Parser κ ε α} (hf : ∀ p, c p.rest = true → f.run p = f'.run p)
    (hg : ∀ p, c p.rest = false → g.run p = g'.run p) : ifRest c f g = ifRest c f' g' := by
  refine ext fun p => ?_
  change (if c p.rest then f.run p else g.run p) = if c p.rest then f'.run p else g'.run p
  cases hc : c p.rest with
  | true => exact hf p hc
  | false => exact hg p hc

theorem bind_bind {γ : Type} (f : Parser κ ε α) (g : α → Parser κ ε β) (h : β → Parser κ ε γ) :
    (f >>= g) >>= h = f >>= fun a => g a >>= h := by
  refine ext fun p => ?_
  change (match bindRun f g p with
    | (none, q) => (none, q)
    | (some b, q) => (h b).run q) = bindRun f (fun a => g a >>= h) p
  rcases hf : f.run p with ⟨_ | a, q⟩
  · simp only [bindRun, hf]
  · simp only [bindRun, hf]
    rfl

theorem run_bind_congr {f' : Parser κ ε α} (g : α → Parser κ ε β) (h : f.run p = f'.run p) :
    (f >>= g).run p = (f' >>= g).run p := by
  change bindRun f g p = bindRun f' g p
  rw [bindRun, bindRun, h]

theorem run_ifRest_pos (h : c p.rest = true) : (ifRest c f g).run p = f.run p :=
  if_pos h

theorem run_ifRest_neg (h : c p.rest = false) : (ifRest c f g).run p = g.run p :=
  if_neg (Bool.eq_false_iff.mp h)

theorem optional_total [DecidableEq κ] (k : κ) (p : Cursor κ ε) :
    ∃ b q, (optional k : Parser κ ε Bool).run p = (some b, q) := by
  cases hc : startsAs (isTok k) p.rest with
  | false => exact ⟨false, p, run_ifRest_neg hc⟩
  | true =>
      cases hrest : p.rest with
      | nil =>
          rw [hrest] at hc
          cases hc
      | cons t r =>
          rw [hrest] at hc
          refine ⟨true, { p with before := t :: p.before, rest := r }, ?_⟩
          have ht : isTok k t = true := hc
          simp [optional, ifMatch, ifRest, startsAs, advance, Bind.bind, bindRun, Pure.pure,
            hrest, ht]

end Parser

/-- The words of one token that is as `c` says. -/
def single (c : Token κ → Bool) : Language (Token κ) :=
  {w | ∃ t : Token κ, c t = true ∧ w = [t]}

/-- The words of one token of this kind. -/
def tok (k : κ) : Language (Token κ) :=
  {w | ∃ t : Token κ, t.type = k ∧ w = [t]}

/-- A token of this kind, and after it a word that may depend on the token. -/
def tokThen (k : κ) (G : Token κ → Language (Token κ)) : Language (Token κ) :=
  {w | ∃ t v, t.type = k ∧ v ∈ G t ∧ w = t :: v}

/-- A word of the language or none. -/
def opt (L : Language (Token κ)) : Language (Token κ) :=
  L + 1

theorem mem_tok {k : κ} {w : List (Token κ)} : w ∈ tok k ↔ ∃ t : Token κ, t.type = k ∧ w = [t] :=
  Iff.rfl

theorem single_isTok [DecidableEq κ] (k : κ) : single (Parser.isTok k) = tok k := by
  ext w
  constructor
  · rintro ⟨t, ht, rfl⟩
    exact ⟨t, of_decide_eq_true ht, rfl⟩
  · rintro ⟨t, ht, rfl⟩
    exact ⟨t, decide_eq_true ht, rfl⟩

theorem mem_tok_mul {k : κ} {L : Language (Token κ)} {w : List (Token κ)} :
    w ∈ tok k * L ↔ ∃ t v, t.type = k ∧ v ∈ L ∧ w = t :: v := by
  rw [Language.mem_mul]
  constructor
  · rintro ⟨a, ⟨t, ht, rfl⟩, v, hv, rfl⟩
    exact ⟨t, v, ht, hv, rfl⟩
  · rintro ⟨t, v, ht, hv, rfl⟩
    exact ⟨[t], ⟨t, ht, rfl⟩, v, hv, rfl⟩

theorem kstar_mul (L M : Language (Token κ)) : L∗ * M = L * (L∗ * M) + M := by
  rw [← mul_assoc]
  nth_rewrite 3 [← one_mul M]
  rw [← add_mul, add_comm, Language.one_add_self_mul_kstar_eq_kstar]

/-- No token of these kinds is next. -/
def Avoids (ks : List κ) (r : List (Token κ)) : Prop :=
  ∀ t ∈ r.head?, t.type ∉ ks

/-- What can come after `L` is as `ok` says, if what comes after the words of `L`
is as `ok'` says. -/
def Follows (L : Language (Token κ)) (ok' ok : List (Token κ) → Prop) : Prop :=
  ∀ v ∈ L, ∀ r, ok' r → ok (v ++ r)

section Follows

variable {L M : Language (Token κ)} {k : κ} {ks : List κ} {ok ok' : List (Token κ) → Prop}

theorem avoids_nil (ks : List κ) : Avoids ks ([] : List (Token κ)) := by
  intro t ht
  cases ht

variable {r : List (Token κ)}

theorem avoids_cons {t : Token κ} : Avoids ks (t :: r) ↔ t.type ∉ ks := by
  simp [Avoids]

theorem Avoids.head (h : Avoids (k :: ks) r) : Avoids [k] r := by
  intro t ht hmem
  exact h t ht (List.mem_singleton.mp hmem ▸ List.mem_cons_self)

theorem Avoids.tail (h : Avoids (k :: ks) r) : Avoids ks r :=
  fun t ht hmem => h t ht (List.mem_cons_of_mem k hmem)

theorem Avoids.mono {ks' : List κ} (hks : ks ⊆ ks') (h : Avoids ks' r) : Avoids ks r :=
  fun t ht hmem => h t ht (hks hmem)

theorem follows_one (h : ∀ r, ok' r → ok r) : Follows (1 : Language (Token κ)) ok' ok := by
  rintro v rfl r hr
  exact h r hr

theorem follows_self : Follows (1 : Language (Token κ)) ok ok :=
  follows_one fun _ h => h

/-! The rules for `simp`: what can come first in a word is found step by step. -/

@[simp] theorem follows_true : Follows L ok' (fun _ => True) :=
  fun _ _ _ _ => trivial

@[simp] theorem follows_one_avoids {ks' : List κ} (h : ks ⊆ ks') :
    Follows (1 : Language (Token κ)) (Avoids ks') (Avoids ks) :=
  follows_one fun _ => Avoids.mono h

@[simp] theorem follows_zero : Follows (0 : Language (Token κ)) ok' ok :=
  fun v hv => absurd hv (Language.notMem_zero v)

@[simp] theorem follows_tok_mul (h : k ∉ ks) : Follows (tok k * L) ok' (Avoids ks) := by
  intro v hv r _
  obtain ⟨t, u, rfl, -, rfl⟩ := mem_tok_mul.mp hv
  exact avoids_cons.mpr h

@[simp] theorem follows_tok (h : k ∉ ks) : Follows (tok k) ok' (Avoids ks) := by
  rintro v ⟨t, rfl, rfl⟩ r _
  exact avoids_cons.mpr h

theorem follows_add : Follows (L + M) ok' ok ↔ Follows L ok' ok ∧ Follows M ok' ok := by
  constructor
  · exact fun h => ⟨fun v hv => h v (Or.inl hv), fun v hv => h v (Or.inr hv)⟩
  · exact fun h v hv => ((Language.mem_add L M v).mp hv).elim (h.1 v) (h.2 v)

-- `simp` writes a sum of languages as their supremum
@[simp] theorem follows_sup : Follows (L ⊔ M) ok' ok ↔ Follows L ok' ok ∧ Follows M ok' ok := by
  rw [← add_eq_sup, follows_add]

@[simp] theorem follows_sup_mul {K : Language (Token κ)} :
    Follows ((L ⊔ M) * K) ok' ok ↔ Follows (L * K) ok' ok ∧ Follows (M * K) ok' ok := by
  rw [← add_eq_sup, add_mul, follows_add]

@[simp] theorem follows_opt :
    Follows (opt L) ok' ok ↔ Follows L ok' ok ∧ Follows 1 ok' ok :=
  follows_add

@[simp] theorem follows_opt_mul :
    Follows (opt L * M) ok' ok ↔ Follows (L * M) ok' ok ∧ Follows M ok' ok := by
  rw [opt, add_mul, one_mul, follows_add]

@[simp] theorem follows_kstar :
    Follows (L∗) ok' ok ↔ Follows (L * L∗) ok' ok ∧ Follows 1 ok' ok := by
  rw [← follows_add, add_comm, Language.one_add_self_mul_kstar_eq_kstar]

@[simp] theorem follows_kstar_mul :
    Follows (L∗ * M) ok' ok ↔ Follows (L * (L∗ * M)) ok' ok ∧ Follows M ok' ok := by
  rw [← follows_add, ← kstar_mul]

end Follows

/-- Every word begins with a token of one of these kinds. -/
def Begins (L : Language (Token κ)) (S : List κ) : Prop :=
  ∀ w ∈ L, ∃ t v, w = t :: v ∧ t.type ∈ S

namespace Begins

variable {L M : Language (Token κ)} {k : κ} {S ks : List κ} {ok' : List (Token κ) → Prop}

theorem tok (h : k ∈ S) : Begins (tok k) S := by
  rintro w ⟨t, rfl, rfl⟩
  exact ⟨t, [], rfl, h⟩

theorem single {c : Token κ → Bool} (h : ∀ t, c t = true → t.type ∈ S) :
    Begins (single c) S := by
  rintro w ⟨t, ht, rfl⟩
  exact ⟨t, [], rfl, h t ht⟩

theorem mono {S' : List κ} (h : Begins L S) (hS : S ⊆ S') : Begins L S' := by
  intro w hw
  obtain ⟨t, v, rfl, ht⟩ := h w hw
  exact ⟨t, v, rfl, hS ht⟩

theorem mul (h : Begins L S) : Begins (L * M) S := by
  intro w hw
  obtain ⟨a, ha, b, -, rfl⟩ := Language.mem_mul.mp hw
  obtain ⟨t, v, rfl, ht⟩ := h a ha
  exact ⟨t, v ++ b, rfl, ht⟩

theorem add (hL : Begins L S) (hM : Begins M S) : Begins (L + M) S := by
  intro w hw
  exact ((Language.mem_add L M w).mp hw).elim (hL w) (hM w)

theorem opt_mul (hL : Begins L S) (hM : Begins M S) : Begins (opt L * M) S := by
  rw [opt, add_mul, one_mul]
  exact hL.mul.add hM

variable {p : Cursor κ ε}
variable {f : Parser κ ε α}
variable {w : List (Token κ)}

theorem avoids (h : Begins L S) (hS : ∀ k ∈ S, k ∉ ks) (hw : w ∈ L) (r : List (Token κ)) :
    Avoids ks (w ++ r) := by
  obtain ⟨t, v, rfl, ht⟩ := h w hw
  exact avoids_cons.mpr (hS _ ht)

theorem follows (h : Begins L S) (hS : ∀ k ∈ S, k ∉ ks) : Follows L ok' (Avoids ks) :=
  fun _ hw r _ => h.avoids hS hw r

end Begins

/-- The parser reads the word `w`, leaves `r`, and does not slip. -/
def Parser.Reads (f : Parser κ ε α) (p : Cursor κ ε) (w r : List (Token κ)) : Prop :=
  ∃ a q, f.run p = (some a, q) ∧ q.rest = r ∧ q.slipped = p.slipped ∧
    q.before = w.reverse ++ p.before

theorem Parser.Reads.bind {g : α → Parser κ ε β} {v r : List (Token κ)} (hf : f.Reads p w (v ++ r))
    (hg : ∀ (a : α) (q : Cursor κ ε), q.rest = v ++ r → q.before = w.reverse ++ p.before →
      (g a).Reads q v r) : (f >>= g).Reads p (w ++ v) r := by
  obtain ⟨a, p', hrun, hp', hslip, hbefore⟩ := hf
  obtain ⟨b, q, hrun', hq, hslip', hbefore'⟩ := hg a p' hp' hbefore
  refine ⟨b, q, ?_, hq, hslip'.trans hslip, ?_⟩
  · change Parser.bindRun f g p = _
    rw [Parser.bindRun, hrun]
    exact hrun'
  · rw [hbefore', hbefore, List.reverse_append, List.append_assoc]

theorem Parser.Reads.build {g : α → Parser κ ε β} {r : List (Token κ)} (hf : f.Reads p w r)
    (hg : ∀ a, ∃ b, g a = pure b) : (f >>= g).Reads p w r := by
  obtain ⟨a, q, hrun, hq⟩ := hf
  obtain ⟨b, hb⟩ := hg a
  refine ⟨b, q, ?_, hq⟩
  change Parser.bindRun f g p = _
  rw [Parser.bindRun, hrun]
  exact congrArg (fun x : Parser κ ε β => x.run q) hb

structure Parses (N : Nat) (f : Parser κ ε α) (L : Language (Token κ))
    (ok : List (Token κ) → Prop) : Prop where
  sound : ∀ {p q : Cursor κ ε} {a : α}, f.run p = (some a, q) → q.slipped = false →
    ∃ w ∈ L, p.rest = w ++ q.rest
  complete : ∀ {p : Cursor κ ε} {w r : List (Token κ)}, p.rest.length < N → w ∈ L →
    p.rest = w ++ r → ok r → f.Reads p w r

theorem Parser.not_slipped (f : Parser κ ε α) (h : (f.run p).2.slipped = false) :
    p.slipped = false := by
  rw [← Bool.not_eq_true]
  intro hp
  rw [f.keeps p hp] at h
  exact Bool.noConfusion h

namespace Parses

variable {N : Nat} {L M : Language (Token κ)} {ok ok' : List (Token κ) → Prop}
variable {f : Parser κ ε α} {g : α → Parser κ ε β}

theorem congr (h : Parses N f L ok) (hL : L = M) (hok : ∀ r, ok' r → ok r) :
    Parses N f M ok' where
  sound hrun hslip := hL ▸ h.sound hrun hslip
  complete hN hw hrest hr := h.complete hN (hL ▸ hw) hrest (hok _ hr)

theorem mono {N' : Nat} (h : Parses N f L ok) (hN : N' ≤ N) : Parses N' f L ok where
  sound := h.sound
  complete hlt := h.complete (Nat.lt_of_lt_of_le hlt hN)

theorem pure (a : α) : Parses N (Pure.pure a : Parser κ ε α) 1 ok where
  sound := by
    intro p q a' hrun _
    obtain ⟨-, rfl⟩ := Prod.mk.inj hrun
    exact ⟨[], rfl, rfl⟩
  complete := by
    intro p w r _ hw hrest _
    rw [(Language.mem_one w).mp hw] at hrest ⊢
    exact ⟨a, p, rfl, hrest, rfl, rfl⟩

theorem bindLt {N' : Nat} (hf : Parses N f L ok) (hg : ∀ a, Parses N' (g a) M ok')
    (hfollows : Follows M ok' ok) (hlt : ∀ w ∈ L, N ≤ N' + w.length) :
    Parses N (f >>= g) (L * M) ok' where
  sound := by
    intro p q b hrun hslip
    change Parser.bindRun f g p = _ at hrun
    unfold Parser.bindRun at hrun
    split at hrun
    · cases hrun
    · next a p' hp' =>
        have hmid : p'.slipped = false := by
          refine (g a).not_slipped ?_
          rw [hrun]
          exact hslip
        obtain ⟨w, hw, hrest⟩ := hf.sound hp' hmid
        obtain ⟨v, hv, hrest'⟩ := (hg a).sound hrun hslip
        refine ⟨w ++ v, Language.append_mem_mul hw hv, ?_⟩
        rw [hrest, hrest', List.append_assoc]
  complete := by
    intro p u r hN hu hrest hr
    obtain ⟨w, hw, v, hv, rfl⟩ := Language.mem_mul.mp hu
    rw [List.append_assoc] at hrest
    refine (hf.complete hN hw hrest (hfollows v hv r hr)).bind fun a q hq _ => ?_
    have hN' : q.rest.length < N' := by
      have hw' := hlt w hw
      rw [hq]
      rw [hrest, List.length_append] at hN
      omega
    exact (hg a).complete hN' hv hq hr

theorem bind (hf : Parses N f L ok) (hg : ∀ a, Parses N (g a) M ok')
    (hfollows : Follows M ok' ok) : Parses N (f >>= g) (L * M) ok' :=
  hf.bindLt hg hfollows fun _ _ => Nat.le_add_right _ _

theorem map {g : α → β} (hf : Parses N f L ok) :
    Parses N (f >>= fun a => Pure.pure (g a)) L ok :=
  (hf.bind (fun a => pure (g a)) follows_self).congr (mul_one L) fun _ h => h

theorem ifRest {c : List (Token κ) → Bool} {g : Parser κ ε α} (hf : Parses N f L ok)
    (hg : Parses N g M ok) (hL : ∀ w ∈ L, ∀ r, ok r → c (w ++ r) = true)
    (hM : ∀ w ∈ M, ∀ r, ok r → c (w ++ r) = false) : Parses N (Parser.ifRest c f g) (L + M) ok where
  sound := by
    intro p q a hrun hslip
    change (if c p.rest then f.run p else g.run p) = _ at hrun
    split at hrun
    · obtain ⟨w, hw, hrest⟩ := hf.sound hrun hslip
      exact ⟨w, Or.inl hw, hrest⟩
    · obtain ⟨w, hw, hrest⟩ := hg.sound hrun hslip
      exact ⟨w, Or.inr hw, hrest⟩
  complete := by
    intro p w r hN hw hrest hr
    rcases hw with hw | hw
    · obtain ⟨a, q, hrun, hq⟩ := hf.complete hN hw hrest hr
      refine ⟨a, q, ?_, hq⟩
      change (if c p.rest then f.run p else g.run p) = _
      rw [hrest, if_pos (hL w hw r hr)]
      exact hrun
    · obtain ⟨a, q, hrun, hq⟩ := hg.complete hN hw hrest hr
      refine ⟨a, q, ?_, hq⟩
      change (if c p.rest then f.run p else g.run p) = _
      rw [hrest, if_neg (Bool.eq_false_iff.mp (hM w hw r hr))]
      exact hrun

theorem orGoOn {found : α → Parser κ ε β} {missed : Parser κ ε β} (hf : Parses N f L ok)
    (hfound : ∀ a, Parses N (found a) M ok') (hfollows : Follows M ok' ok) :
    Parses N (Parser.orGoOn f found missed) (L * M) ok' where
  sound := by
    intro p q b hrun hslip
    have hbind := (hf.bind hfound hfollows).sound (p := p) (q := q) (a := b)
    refine hbind ?_ hslip
    change (match f.run p with
      | (none, q) => missed.run { q with slipped := true }
      | (some a, q) => (found a).run q) = _ at hrun
    change Parser.bindRun f found p = _
    unfold Parser.bindRun
    split at hrun
    · next p' hp' =>
        -- after a miss every run ends with a slip
        have hkept := missed.keeps { p' with slipped := true } rfl
        rw [hrun] at hkept
        rw [hslip] at hkept
        cases hkept
    · next a p' hp' => simpa only [hp'] using hrun
  complete := by
    intro p u r hN hu hrest hr
    obtain ⟨b, q, hrun, hq⟩ := (hf.bind hfound hfollows).complete hN hu hrest hr
    refine ⟨b, q, ?_, hq⟩
    change Parser.bindRun f found p = _ at hrun
    unfold Parser.bindRun at hrun
    change (match f.run p with
      | (none, q) => missed.run { q with slipped := true }
      | (some a, q) => (found a).run q) = _
    split at hrun
    · cases hrun
    · next a p' hp' => simpa only [hp'] using hrun

theorem goOn (hf : Parses N f L ok) : Parses N (Parser.goOn f) L ok :=
  (hf.orGoOn (fun a => pure (some a)) follows_self).congr (mul_one L) fun _ h => h

theorem andAlso {g : Parser κ ε β} (hf : Parses N f L ok) (hg : Parses N g M ok')
    (hfollows : Follows M ok' ok) : Parses N (Parser.andAlso f g) (L * M) ok' where
  sound := by
    intro p q a hrun hslip
    obtain ⟨ha, hq⟩ := Prod.mk.inj hrun
    have hrun' : f.run p = (some a, (f.run p).2) := Prod.ext ha rfl
    have hmid : (f.run p).2.slipped = false := (Parser.goOn g).not_slipped (hq ▸ hslip)
    obtain ⟨w, hw, hrest⟩ := hf.sound hrun' hmid
    obtain ⟨b, hb⟩ : ∃ b, ((Parser.goOn g).run (f.run p).2).1 = some b := by
      change ∃ b, (match g.run (f.run p).2 with
        | (none, q) => (some none, { q with slipped := true })
        | (some b, q) => (some (some b), q)).1 = some b
      split
      · exact ⟨_, rfl⟩
      · exact ⟨_, rfl⟩
    obtain ⟨v, hv, hrest'⟩ := hg.goOn.sound (Prod.ext hb hq) hslip
    refine ⟨w ++ v, Language.append_mem_mul hw hv, ?_⟩
    rw [hrest, hrest', List.append_assoc]
  complete := by
    intro p u r hN hu hrest hr
    obtain ⟨w, hw, v, hv, rfl⟩ := Language.mem_mul.mp hu
    rw [List.append_assoc] at hrest
    obtain ⟨a, p', hrun, hp', hslip, hbefore⟩ := hf.complete hN hw hrest (hfollows v hv r hr)
    have hN' : p'.rest.length < N := by
      rw [hp']
      rw [hrest, List.length_append] at hN
      omega
    obtain ⟨b, q, hrun', hq, hslip', hbefore'⟩ := hg.goOn.complete hN' hv hp' hr
    refine ⟨a, q, ?_, hq, hslip'.trans hslip, ?_⟩
    · change ((f.run p).1, ((Parser.goOn g).run (f.run p).2).2) = _
      rw [hrun]
      exact congrArg (fun x => (some a, x.2)) hrun'
    · rw [hbefore', hbefore, List.reverse_append, List.append_assoc]

theorem orError {err : ε} (hf : Parses N f L ok) : Parses N (Parser.orError err f) L ok where
  sound := by
    intro p q a hrun hslip
    change (match f.run p with
      | (none, q) => (none, { q with error := some err })
      | (some a, q) => (some a, q)) = _ at hrun
    split at hrun
    · cases hrun
    · next b p' hp' =>
        obtain ⟨-, rfl⟩ := Prod.mk.inj hrun
        exact hf.sound hp' hslip
  complete := by
    intro p w r hN hw hrest hr
    obtain ⟨a, q, hrun, hq⟩ := hf.complete hN hw hrest hr
    refine ⟨a, q, ?_, hq⟩
    change (match f.run p with
      | (none, q) => (none, { q with error := some err })
      | (some a, q) => (some a, q)) = _
    rw [hrun]

theorem fail {err : List (Token κ) → ε} : Parses N (Parser.fail err : Parser κ ε α) 0 ok where
  sound hrun := by cases hrun
  complete _ hw := absurd hw (Language.notMem_zero _)

theorem stop : Parses N (Parser.stop : Parser κ ε α) 0 ok where
  sound hrun := by cases hrun
  complete _ hw := absurd hw (Language.notMem_zero _)

theorem zero (h : Parses N f L ok) (hle : L ≤ M) : Parses 0 f M ok' where
  sound hrun hslip := by
    obtain ⟨w, hw, hrest⟩ := h.sound hrun hslip
    exact ⟨w, hle hw, hrest⟩
  complete hlt := absurd hlt (Nat.not_lt_zero _)

theorem stop_zero : Parses 0 (Parser.stop : Parser κ ε α) L ok where
  sound hrun := by cases hrun
  complete hlt := absurd hlt (Nat.not_lt_zero _)

theorem slip {g : Unit → Parser κ ε β} : Parses N (Parser.slip >>= g) 0 ok where
  sound := by
    intro p q b hrun hslip
    have hkept := (g ()).keeps { p with slipped := true } rfl
    change (g ()).run { p with slipped := true } = _ at hrun
    rw [hrun, hslip] at hkept
    cases hkept
  complete _ hw := absurd hw (Language.notMem_zero _)

theorem withFuel {f : Nat → Parser κ ε α} (hf : ∀ n, Parses (min n N) (f n) L ok) :
    Parses N (Parser.withFuel f) L ok where
  sound hrun hslip := (hf _).sound hrun hslip
  complete hlt hw hrest hr :=
    (hf _).complete (Nat.lt_min.mpr ⟨Nat.lt_succ_self _, hlt⟩) hw hrest hr

section Loop

variable {go : List (Token κ) → Bool} {front : Parser κ ε β} {back : β → Parser κ ε α}
variable {F B : Language (Token κ)} {okF okB : List (Token κ) → Prop}

theorem loop (hfront : Parses N front F okF) (hback : ∀ b, Parses N (back b) B okB)
    (hFB : Follows B okB okF) (hnil : go [] = false)
    (hgo : ∀ w ∈ F * B, ∀ r, go (w ++ r) = true) (hagain : ∀ w ∈ F * B, ∀ r, okB (w ++ r))
    (hstop : ∀ r, ok r → go r = false ∧ okB r) (n : Nat) :
    Parses (min n N) (Parser.loop go front back n) ((F * B)∗) ok := by
  have hnext : Follows ((F * B)∗) ok okB := by
    intro v hv r hr
    obtain ⟨ws, rfl, hws⟩ := Language.mem_kstar.mp hv
    cases ws with
    | nil => exact (hstop r hr).2
    | cons w ws =>
        rw [List.flatten_cons, List.append_assoc]
        exact hagain w (hws w List.mem_cons_self) _
  have hround : Follows (B * (F * B)∗) ok okF := by
    intro v hv r hr
    obtain ⟨y, hy, z, hz, rfl⟩ := Language.mem_mul.mp hv
    rw [List.append_assoc]
    exact hFB y hy _ (hnext z hz r hr)
  have hgo' : ∀ w ∈ F * (B * (F * B)∗), ∀ r, ok r → go (w ++ r) = true := by
    intro w hw r _
    rw [← mul_assoc] at hw
    obtain ⟨x, hx, z, -, rfl⟩ := Language.mem_mul.mp hw
    rw [List.append_assoc]
    exact hgo x hx _
  have hend : ∀ w ∈ (1 : Language (Token κ)), ∀ r, ok r → go (w ++ r) = false := by
    intro w hw r hr
    rw [(Language.mem_one w).mp hw]
    exact (hstop r hr).1
  have hunfold : F * (B * (F * B)∗) + 1 = (F * B)∗ := by
    rw [← mul_assoc, add_comm, Language.one_add_self_mul_kstar_eq_kstar]
  induction n with
  | zero =>
      refine ⟨?_, fun hlt => absurd (Nat.lt_of_lt_of_le hlt (Nat.min_le_left 0 N))
        (Nat.not_lt_zero _)⟩
      have hpure : Parses 0 (Pure.pure [] : Parser κ ε (List α)) 1 ok := pure []
      intro p q a hrun hslip
      obtain ⟨w, hw, hrest⟩ := hpure.sound hrun hslip
      rw [(Language.mem_one w).mp hw] at hrest
      exact ⟨[], Language.nil_mem_kstar _, hrest⟩
  | succ n ih =>
      refine ⟨?_, ?_⟩
      · have hrounds : ∀ b, Parses 0 (do
            let a ← back b
            let as ← Parser.loop go front back n
            Pure.pure (a :: as)) (B * (F * B)∗) ok :=
          fun b => ((hback b).mono (Nat.zero_le N)).bind
            (fun a => (ih.mono (Nat.zero_le _)).map) hnext
        have hround₀ : Parses 0 (Parser.loop go front back (n + 1))
            (F * (B * (F * B)∗) + 1) ok :=
          ((hfront.mono (Nat.zero_le N)).orGoOn hrounds hround).ifRest (pure []) hgo' hend
        rw [hunfold] at hround₀
        intro p q as hrun hslip
        exact hround₀.sound hrun hslip
      intro p u r hlt hu hrest hr
      obtain ⟨hltn, hltN⟩ := Nat.lt_min.mp hlt
      rw [← hunfold] at hu
      rcases hu with hu | hu
      · -- a round is not empty, so that there is fuel for the rest
        obtain ⟨x, hx, v, hv, rfl⟩ := Language.mem_mul.mp hu
        obtain ⟨y, hy, z, hz, rfl⟩ := Language.mem_mul.mp hv
        have hxy : x ++ y ≠ [] := by
          intro hxy
          have hgo₀ := hgo (x ++ y) (Language.append_mem_mul hx hy) []
          rw [hxy] at hgo₀
          exact Bool.noConfusion (hnil.symm.trans hgo₀)
        have hpos := List.length_pos_iff.mpr hxy
        rw [List.length_append] at hpos
        have hlen := congrArg List.length hrest
        simp only [List.length_append] at hlen
        rw [List.append_assoc, List.append_assoc] at hrest
        obtain ⟨b, p₁, hrun₁, hp₁, hslip₁, hbefore₁⟩ :=
          hfront.complete hltN hx hrest (hFB y hy _ (hnext z hz r hr))
        obtain ⟨a, p₂, hrun₂, hp₂, hslip₂, hbefore₂⟩ :=
          (hback b).complete (by simp only [hp₁, List.length_append]; omega) hy hp₁
            (hnext z hz r hr)
        obtain ⟨as, q, hrun₃, hq, hslip₃, hbefore₃⟩ :=
          ih.complete (by simp only [hp₂, List.length_append]; omega) hz hp₂ hr
        refine ⟨a :: as, q, ?_, hq, hslip₃.trans (hslip₂.trans hslip₁), ?_⟩
        · have hgo₁ : go p.rest = true := by
            rw [hrest, ← List.append_assoc]
            exact hgo (x ++ y) (Language.append_mem_mul hx hy) _
          simp [Parser.loop, Parser.ifRest, Parser.orGoOn, Bind.bind, Parser.bindRun, Pure.pure,
            hgo₁, hrun₁, hrun₂, hrun₃]
        · rw [hbefore₃, hbefore₂, hbefore₁]
          simp only [List.reverse_append, List.append_assoc]
      · rw [(Language.mem_one u).mp hu] at hrest ⊢
        refine ⟨[], p, ?_, hrest, rfl, rfl⟩
        have hgo₀ : go p.rest = false := by
          rw [hrest]
          exact (hstop r hr).1
        simp [Parser.loop, Parser.ifRest, Pure.pure, hgo₀]

theorem loop_begins {S ks : List κ} (hfront : Parses N front F okF)
    (hback : ∀ b, Parses N (back b) B (Avoids ks)) (hFB : Follows B (Avoids ks) okF)
    (hS : Begins (F * B) S) (hks : ∀ k ∈ S, k ∉ ks) (hnil : go [] = false)
    (hgo : ∀ (t : Token κ) (r : List (Token κ)), t.type ∈ S → go (t :: r) = true)
    (hstop : ∀ r, ok r → go r = false ∧ Avoids ks r) :
    Parses N (Parser.withFuel (Parser.loop go front back)) ((F * B)∗) ok := by
  refine withFuel (loop hfront hback hFB hnil ?_ ?_ hstop)
  · intro w hw r
    obtain ⟨t, v, rfl, ht⟩ := hS w hw
    exact hgo t (v ++ r) ht
  · exact fun w hw r => hS.avoids hks hw r

end Loop

variable {c : Token κ → Bool}
variable {S : List κ}

theorem advance : Parses N (Parser.advance c : Parser κ ε (Token κ)) (single c) ok where
  sound := by
    intro p q t hrun _
    simp only [Parser.advance] at hrun
    split at hrun
    · cases hrun
    · next t' rest hrest =>
        split at hrun
        · next ht =>
            obtain ⟨-, rfl⟩ := Prod.mk.inj hrun
            exact ⟨[t'], ⟨t', ht, rfl⟩, hrest⟩
        · cases hrun
  complete := by
    rintro p w r _ ⟨t, ht, rfl⟩ hrest _
    refine ⟨t, { p with before := t :: p.before, rest := r }, ?_, rfl, rfl, rfl⟩
    simp [Parser.advance, hrest, ht]

theorem advance_bind {g : Token κ → Parser κ ε α} (hg : ∀ t, Parses (N - 1) (g t) M ok) :
    Parses N (Parser.advance c >>= g) (single c * M) ok := by
  refine advance.bindLt hg follows_true ?_
  rintro w ⟨t, -, rfl⟩
  rw [List.length_singleton]
  omega

theorem startsAs_eq_false {c : Token κ → Bool} {S : List κ} {s : List (Token κ)}
    (hc : ∀ t, c t = true → t.type ∈ S) (h : Avoids S s) : Parser.startsAs c s = false := by
  cases s with
  | nil => rfl
  | cons t s =>
      rw [← Bool.not_eq_true]
      exact fun ht => avoids_cons.mp h (hc t ht)

theorem startsAs_single_mul {w : List (Token κ)} (hw : w ∈ single c * L) (r : List (Token κ)) :
    Parser.startsAs c (w ++ r) = true := by
  obtain ⟨x, ⟨t, ht, rfl⟩, v, -, rfl⟩ := Language.mem_mul.mp hw
  exact ht

theorem ifStarts {f g : Parser κ ε α} (hf : Parses N f (single c * L) ok) (hg : Parses N g M ok)
    (hS : ∀ t, c t = true → t.type ∈ S) (hM : Follows M ok (Avoids S)) :
    Parses N (Parser.ifRest (Parser.startsAs c) f g) (single c * L + M) ok :=
  hf.ifRest hg (fun _ hw r _ => startsAs_single_mul hw r)
    (fun w hw r hr => startsAs_eq_false hS (hM w hw r hr))

theorem reject {g : Parser κ ε α} {err : List (Token κ) → ε} (hg : Parses N g M ok)
    (hS : ∀ t, c t = true → t.type ∈ S) (hM : Follows M ok (Avoids S)) :
    Parses N (Parser.ifRest (Parser.startsAs c) (Parser.fail err) g) M ok := by
  have hfail : Parses N (Parser.fail err : Parser κ ε α) (single c * 0) ok := by
    rw [mul_zero]
    exact fail
  have h := hfail.ifStarts hg hS hM
  rwa [mul_zero, zero_add] at h

section Kinds

variable [DecidableEq κ] {k : κ} {ks : List κ}
variable {err : List (Token κ) → ε}

theorem expect : Parses N (Parser.expect k err) (tok k) ok := by
  have hchoice : Parses N (Parser.expect k err) (single (Parser.isTok k) + 0) ok := by
    refine advance.ifRest fail ?_ ?_
    · rintro w ⟨t, ht, rfl⟩ r _
      exact ht
    · exact fun w hw => absurd hw (Language.notMem_zero w)
  rwa [add_zero, single_isTok] at hchoice

theorem expect_bind {g : Token κ → Parser κ ε α} (hg : ∀ t, Parses N (g t) M ok) :
    Parses N (Parser.expect k err >>= g) (tok k * M) ok :=
  expect.bind hg follows_true

theorem expect_bind_dep {g : Token κ → Parser κ ε α} {G : Token κ → Language (Token κ)}
    (hg : ∀ t, Parses N (g t) (G t) ok) :
    Parses N (Parser.expect k err >>= g) (tokThen k G) ok where
  sound := by
    intro p q a hrun hslip
    change Parser.bindRun (Parser.expect k err) g p = _ at hrun
    unfold Parser.bindRun at hrun
    split at hrun
    · cases hrun
    · next t p' hp' =>
        obtain ⟨v, hv, hv'⟩ := (hg t).sound hrun hslip
        have hread : t.type = k ∧ p.rest = t :: p'.rest := by
          simp only [Parser.expect, Parser.ifRest, Parser.advance, Parser.fail] at hp'
          split at hp'
          · split at hp'
            · cases hp'
            · next t' rest hrest =>
                split at hp'
                · next ht =>
                    obtain ⟨h₁, rfl⟩ := Prod.mk.inj hp'
                    obtain rfl := Option.some.inj h₁
                    exact ⟨of_decide_eq_true ht, hrest⟩
                · cases hp'
          · cases hp'
        refine ⟨t :: v, ⟨t, v, hread.1, hv, rfl⟩, ?_⟩
        rw [hread.2, hv', List.cons_append]
  complete := by
    rintro p w r hN ⟨t, v, ht, hv, rfl⟩ hrest hr
    have hread : (Parser.expect k err).run p =
        (some t, { p with before := t :: p.before, rest := v ++ r }) := by
      rw [List.cons_append] at hrest
      simp [Parser.expect, Parser.ifRest, Parser.advance, Parser.startsAs, Parser.isTok, hrest, ht]
    have hN' : (v ++ r).length < N := by
      rw [hrest, List.cons_append, List.length_cons] at hN
      omega
    obtain ⟨a, q, hrun, hq, hslip, hbefore⟩ := (hg t).complete
      (p := { p with before := t :: p.before, rest := v ++ r }) hN' hv rfl hr
    refine ⟨a, q, ?_, hq, hslip, ?_⟩
    · change Parser.bindRun (Parser.expect k err) g p = _
      rw [Parser.bindRun, hread]
      exact hrun
    · rw [hbefore, List.reverse_cons, List.append_assoc]
      rfl

theorem goOn_expect_bind {g : Option (Token κ) → Parser κ ε α} (hg : ∀ t, Parses N (g t) M ok) :
    Parses N (Parser.goOn (Parser.expect k err) >>= g) (tok k * M) ok :=
  expect.goOn.bind hg follows_true

theorem isTok_type {t : Token κ} (h : Parser.isTok k t = true) : t.type ∈ [k] :=
  List.mem_singleton.mpr (of_decide_eq_true h)

theorem ifTok {f g : Parser κ ε α} (hf : Parses N f (tok k * L) ok) (hg : Parses N g M ok)
    (hM : Follows M ok (Avoids [k])) :
    Parses N (Parser.ifRest (Parser.startsAs (Parser.isTok k)) f g) (tok k * L + M) ok := by
  rw [← single_isTok] at hf ⊢
  exact hf.ifStarts hg (fun _ => isTok_type) hM

theorem ifMatch {f : Token κ → Parser κ ε α} {g : Parser κ ε α}
    (hf : ∀ t, Parses (N - 1) (f t) L ok) (hg : Parses N g M ok)
    (hM : Follows M ok (Avoids [k])) :
    Parses N (Parser.ifMatch k f g) (tok k * L + M) ok := by
  refine ifTok ?_ hg hM
  rw [← single_isTok]
  exact advance_bind hf

theorem ifMatch_pure {f : Token κ → Parser κ ε α} {a : α}
    (hf : ∀ t, Parses (N - 1) (f t) L (Avoids ks)) :
    Parses N (Parser.ifMatch k f (Pure.pure a)) (opt (tok k * L)) (Avoids (k :: ks)) :=
  ifMatch (fun t => (hf t).congr rfl fun _ => Avoids.tail) (pure a) (follows_one fun _ => Avoids.head)

theorem ifMatch_value {f : Token κ → α} {a : α} :
    Parses N (Parser.ifMatch k (fun t => Pure.pure (f t)) (Pure.pure a) : Parser κ ε α)
      (opt (tok k)) (Avoids [k]) := by
  have h : Parses N (Parser.ifMatch k (fun t => Pure.pure (f t)) (Pure.pure a) : Parser κ ε α)
      (opt (tok k * 1)) (Avoids [k]) := ifMatch_pure fun t => pure (f t)
  rwa [mul_one] at h

theorem optional : Parses N (Parser.optional k : Parser κ ε Bool) (opt (tok k)) (Avoids [k]) :=
  ifMatch_value

theorem optional_bind {g : Bool → Parser κ ε α} (hg : ∀ b, Parses N (g b) M ok)
    (hM : Follows M ok (Avoids [k])) :
    Parses N (Parser.optional k >>= g) (opt (tok k) * M) ok :=
  optional.bind hg hM

theorem whileMatch {f : Parser κ ε α} (hf : Parses N f L (Avoids ks)) (hk : k ∉ ks) :
    Parses N (Parser.whileMatch k f) ((tok k * L)∗) (Avoids (k :: ks)) := by
  rw [← single_isTok]
  refine withFuel (loop advance (fun _ => hf) follows_true rfl ?_ ?_ ?_)
  · exact fun w hw r => startsAs_single_mul hw r
  · intro w hw r
    obtain ⟨x, ⟨t, ht, rfl⟩, v, -, rfl⟩ := Language.mem_mul.mp hw
    refine avoids_cons.mpr ?_
    rwa [of_decide_eq_true ht]
  · exact fun r hr => ⟨startsAs_eq_false (fun _ => isTok_type) hr.head, hr.tail⟩

end Kinds

end Parses

end Lib
end CodebaseMemory
