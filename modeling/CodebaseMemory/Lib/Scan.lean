
/-!
# Scanners

A scanner reads a text from the left, step by step.  A step takes at least one element
and gives a token or nothing; what it gives may depend on all that is left.
-/

namespace CodebaseMemory
namespace Lib

variable {α τ : Type}

/-- A scanner, by what it does at a place before an element and the text behind it. -/
structure Scanner (α τ : Type) where
  step : Nat → α → List α → Option τ × List α
  shorter : ∀ pos c text, (step pos c text).2.length ≤ text.length

namespace Scanner

variable (σ : Scanner α τ)

/-- The tokens of a text, with fuel for the steps. -/
def runFuel : Nat → Nat → List α → List τ
  | 0, _, _ => []
  | _ + 1, _, [] => []
  | fuel + 1, pos, c :: text =>
      let next := σ.step pos c text
      next.1.toList ++ runFuel fuel (pos + (text.length + 1 - next.2.length)) next.2

/-- The tokens of a text that begins at a place. -/
def run (pos : Nat) (text : List α) : List τ :=
  σ.runFuel text.length pos text

variable {σ}

theorem runFuel_congr {n m : Nat} {text : List α} (hn : text.length ≤ n) (hm : text.length ≤ m)
    (pos : Nat) : σ.runFuel n pos text = σ.runFuel m pos text := by
  induction n generalizing m pos text with
  | zero =>
      obtain rfl := List.length_eq_zero_iff.mp (Nat.le_zero.mp hn)
      cases m <;> rfl
  | succ n ih =>
      cases text with
      | nil => cases m <;> rfl
      | cons c text =>
          cases m with
          | zero => exact absurd hm (Nat.not_succ_le_zero _)
          | succ m =>
              have hshort := σ.shorter pos c text
              rw [runFuel, runFuel, ih (Nat.le_trans hshort (Nat.le_of_succ_le_succ hn))
                (Nat.le_trans hshort (Nat.le_of_succ_le_succ hm))]

theorem run_nil (pos : Nat) : σ.run pos [] = [] :=
  rfl

theorem run_cons (pos : Nat) (c : α) (text : List α) :
    σ.run pos (c :: text) = (σ.step pos c text).1.toList ++
      σ.run (pos + (text.length + 1 - (σ.step pos c text).2.length)) (σ.step pos c text).2 := by
  rw [run, List.length_cons, runFuel, run, runFuel_congr (σ.shorter pos c text) (Nat.le_refl _)]

theorem run_gap {gap : List α}
    (hskip : ∀ c ∈ gap, ∀ pos text, σ.step pos c text = (none, text)) (pos : Nat)
    (text : List α) : σ.run pos (gap ++ text) = σ.run (pos + gap.length) text := by
  induction gap generalizing pos with
  | nil => rfl
  | cons c gap ih =>
      obtain ⟨hc, hgap⟩ := List.forall_mem_cons.mp hskip
      rw [List.cons_append, run_cons, hc, Option.toList_none, List.nil_append]
      dsimp only
      rw [Nat.add_sub_cancel_left, ih hgap, List.length_cons, Nat.add_right_comm, Nat.add_assoc]

theorem run_word {pos : Nat} {c : α} {word rest : List α} {t : τ}
    (hstep : σ.step pos c (word ++ rest) = (some t, rest)) :
    σ.run pos (c :: word ++ rest) = t :: σ.run (pos + (c :: word).length) rest := by
  rw [List.cons_append, run_cons, hstep, Option.toList_some, List.singleton_append,
    List.length_append, List.length_cons]
  dsimp only
  congr 2
  omega

end Scanner

end Lib
end CodebaseMemory
