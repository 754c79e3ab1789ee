import CodebaseMemory.Lib.Descent

/-!
# Brackets in languages of tokens

A token opens a bracket, closes one, does neither, or cannot stand in a text.  A
text is well bracketed if every bracket is closed by its own kind in the right order.
That the words of a language are so follows from its parts: `Closed` is what
the argument needs of a class of words, and `closed_neutral` says that the words
that leave all open brackets as they are make such a class.
-/

namespace CodebaseMemory
namespace Lib

open Computability

/-- A class of words that has the empty word and can be put together. -/
structure Closed {α : Type} (K : Language α) : Prop where
  nil_mem : [] ∈ K
  append_mem : ∀ {v w}, v ∈ K → w ∈ K → v ++ w ∈ K

namespace Closed

variable {α : Type} {K A B : Language α}

theorem one_le (h : Closed K) : 1 ≤ K := by
  rintro w rfl
  exact h.nil_mem

theorem mul_le (h : Closed K) (hA : A ≤ K) (hB : B ≤ K) : A * B ≤ K := by
  intro w hw
  obtain ⟨a, ha, b, hb, rfl⟩ := Language.mem_mul.mp hw
  exact h.append_mem (hA ha) (hB hb)

theorem kstar_le (h : Closed K) (hA : A ≤ K) : A∗ ≤ K := by
  intro w hw
  obtain ⟨ws, rfl, hws⟩ := Language.mem_kstar.mp hw
  clear hw
  induction ws with
  | nil => exact h.nil_mem
  | cons v ws ih =>
      rw [List.flatten_cons]
      exact h.append_mem (hA (hws v List.mem_cons_self))
        (ih fun y hy => hws y (List.mem_cons_of_mem v hy))

end Closed

theorem add_le_of_le {α : Type} {K A B : Language α} (hA : A ≤ K) (hB : B ≤ K) : A + B ≤ K := by
  intro w hw
  exact ((Language.mem_add A B w).mp hw).elim (fun h => hA h) (fun h => hB h)

theorem Closed.opt_le {κ : Type} {K A : Language (Token κ)} (h : Closed K) (hA : A ≤ K) :
    opt A ≤ K :=
  add_le_of_le hA h.one_le

/-- What a token does to the brackets. -/
inductive Shape (ι : Type) where
  | plain
  | opens (i : ι)
  | closes (i : ι)
  | never
deriving DecidableEq

section Neutral

variable {κ ι : Type} [DecidableEq ι] (shape : κ → Shape ι)

/-- Closes the bracket that was opened last. -/
def closeBracket (i : ι) : List ι → Option (List ι)
  | [] => none
  | j :: stack => if i = j then some stack else none

def readBracket (stack : List ι) (t : Token κ) : Option (List ι) :=
  match shape t.type with
  | .plain => some stack
  | .opens i => some (i :: stack)
  | .closes i => closeBracket i stack
  | .never => none

/-- The open brackets after a text. -/
def readBrackets : List ι → List (Token κ) → Option (List ι)
  | stack, [] => some stack
  | stack, t :: w => (readBracket shape stack t).bind (readBrackets · w)

/-- Every bracket that is opened is closed. -/
def WellBracketed (w : List (Token κ)) : Prop :=
  readBrackets shape [] w = some []

/-- The words that leave the open brackets as they are. -/
def neutral : Language (Token κ) :=
  {w | ∀ stack, readBrackets shape stack w = some stack}

theorem readBrackets_append (stack : List ι) (v w : List (Token κ)) :
    readBrackets shape stack (v ++ w) =
      (readBrackets shape stack v).bind (readBrackets shape · w) := by
  induction v generalizing stack with
  | nil => rfl
  | cons t v ih =>
      rw [List.cons_append, readBrackets, readBrackets]
      cases readBracket shape stack t with
      | none => rfl
      | some stack' => exact ih stack'

theorem closed_neutral : Closed (neutral shape) where
  nil_mem := fun _ => rfl
  append_mem := by
    intro v w hv hw stack
    rw [readBrackets_append, hv stack]
    exact hw stack

variable {shape} {c : Token κ → Bool} {k k' : κ} {i : ι} {A : Language (Token κ)}

theorem readBrackets_plain {t : Token κ} (h : shape t.type = .plain) (stack : List ι) :
    readBrackets shape stack [t] = some stack := by
  unfold readBrackets readBracket
  rw [h]
  rfl

theorem tok_le_neutral (h : shape k = .plain) : tok k ≤ neutral shape := by
  rintro w ⟨t, rfl, rfl⟩ stack
  exact readBrackets_plain h stack

theorem enclosed_le_neutral (hopen : shape k = .opens i) (hclose : shape k' = .closes i)
    (hA : A ≤ neutral shape) : tok k * A * tok k' ≤ neutral shape := by
  intro w hw stack
  obtain ⟨v, hv, u, ⟨t', rfl, rfl⟩, rfl⟩ := Language.mem_mul.mp hw
  obtain ⟨t, a, rfl, ha, rfl⟩ := mem_tok_mul.mp hv
  have hpush : readBracket shape stack t = some (i :: stack) := by
    unfold readBracket
    rw [hopen]
  have hpop : readBracket shape (i :: stack) t' = some stack := by
    unfold readBracket
    rw [hclose]
    exact if_pos rfl
  rw [List.cons_append, readBrackets, hpush, Option.bind_some, readBrackets_append, hA ha,
    Option.bind_some, readBrackets, hpop]
  rfl

theorem WellBracketed.of_neutral {w : List (Token κ)} (h : w ∈ neutral shape) :
    WellBracketed shape w :=
  h []

theorem ne_never_of_readBrackets {w : List (Token κ)} {stack stack' : List ι}
    (h : readBrackets shape stack w = some stack') : ∀ t ∈ w, shape t.type ≠ .never := by
  induction w generalizing stack with
  | nil => exact fun t ht => absurd ht List.not_mem_nil
  | cons u w ih =>
      rw [readBrackets] at h
      obtain ⟨mid, hmid, hrest⟩ := Option.bind_eq_some_iff.mp h
      intro t ht hnever
      rcases List.mem_cons.mp ht with rfl | ht
      · unfold readBracket at hmid
        rw [hnever] at hmid
        cases hmid
      · exact ih hrest t ht hnever

end Neutral

end Lib
end CodebaseMemory
