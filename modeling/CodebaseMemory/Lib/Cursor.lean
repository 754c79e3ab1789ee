import Mathlib.Algebra.BigOperators.Group.List.Basic
import Mathlib.Algebra.Ring.Nat

/-!
# Texts put behind one another

A program fills a buffer of a fixed size from a cursor on.  It stores bytes without a check, or
it calls `snprintf` with what is left of the buffer as the size, and moves the cursor by the length
of the whole text, also when the text was cut.
-/

namespace CodebaseMemory
namespace Lib

/-- A write at the cursor. -/
inductive Put where
  | store (len : Nat)
  | print (len : Nat)
deriving DecidableEq

/-- How far the cursor moves. -/
def Put.len : Put → Nat
  | .store len => len
  | .print len => len

/-- The bytes that `snprintf` writes, with the zero.  A negative size arrives as a `size_t` that
no text exhausts. -/
def printed (room : Int) (len : Nat) : Nat :=
  if room < 0 then len + 1 else min (len + 1) room.toNat

/-- The bytes that are written with `room` bytes left. -/
def Put.written (room : Int) : Put → Nat
  | .store len => len
  | .print len => printed room len

/-- The writes with their places, from the cursor `pos` on. -/
def places : Nat → List Put → List (Nat × Put)
  | _, [] => []
  | pos, p :: ps => (pos, p) :: places (pos + p.len) ps

/-- The write stays in a buffer of `size` bytes. -/
def Inside (size : Nat) (w : Nat × Put) : Prop :=
  ∀ i < w.2.written (size - w.1), w.1 + i < size

/-- The bytes from the cursor on that must be there. -/
def Put.needed : Put → Nat
  | .store len => len
  | .print _ => 0

section Cursor

variable {size pos : Nat}

theorem inside_print_iff (len : Nat) : Inside size (pos, .print len) ↔ pos ≤ size := by
  constructor
  · intro h
    by_contra hpos
    have hneg : (size : Int) - pos < 0 := by omega
    have hfirst := h 0 (by rw [Put.written, printed, if_pos hneg]; omega)
    dsimp only at hfirst
    omega
  · intro h i hi
    have hpos : ¬ (size : Int) - pos < 0 := by omega
    dsimp only [Put.written] at hi ⊢
    rw [printed, if_neg hpos] at hi
    omega

theorem inside_store_iff {len : Nat} (hlen : 0 < len) :
    Inside size (pos, .store len) ↔ pos + len ≤ size := by
  constructor
  · intro h
    have hlast := h (len - 1) (by rw [Put.written]; omega)
    dsimp only at hlast
    omega
  · intro h i hi
    dsimp only [Put.written] at hi ⊢
    omega

theorem inside_of_le {p : Put} (h : pos + p.needed ≤ size) : Inside size (pos, p) := by
  cases p with
  | print len => exact (inside_print_iff len).mpr h
  | store len =>
      intro i hi
      dsimp only [Put.written, Put.needed] at hi h ⊢
      omega

/-- All the texts together. -/
def total (ps : List Put) : Nat :=
  (ps.map Put.len).sum

@[simp] theorem total_cons (p : Put) (ps : List Put) : total (p :: ps) = p.len + total ps := by
  rw [total, List.map_cons, List.sum_cons, total]

@[simp] theorem total_nil : total [] = 0 := rfl

theorem total_append (ps qs : List Put) : total (ps ++ qs) = total ps + total qs := by
  rw [total, List.map_append, List.sum_append, total, total]

theorem places_append (ps qs : List Put) :
    places pos (ps ++ qs) = places pos ps ++ places (pos + total ps) qs := by
  induction ps generalizing pos with
  | nil => rfl
  | cons p ps ih =>
      rw [List.cons_append, places, ih, places, List.cons_append, total_cons, Nat.add_assoc]

theorem inside_of_total_le {ps : List Put} (h : pos + total ps ≤ size) :
    ∀ w ∈ places pos ps, Inside size w := by
  induction ps generalizing pos with
  | nil => exact fun w hw => absurd hw List.not_mem_nil
  | cons p ps ih =>
      rw [total_cons] at h
      rw [places, List.forall_mem_cons]
      refine ⟨inside_of_le ?_, ih (by omega)⟩
      have hneeded : p.needed ≤ p.len := by
        cases p with
        | store len => exact Nat.le_refl len
        | print len => exact Nat.zero_le len
      omega

theorem inside_printed_iff (ps : List Put) (len : Nat) :
    (∀ w ∈ places pos (ps ++ [.print len]), Inside size w) ↔ pos + total ps ≤ size := by
  rw [places_append, List.forall_mem_append]
  constructor
  · rintro ⟨-, hlast⟩
    exact (inside_print_iff len).mp (hlast _ List.mem_cons_self)
  · intro h
    exact ⟨inside_of_total_le h, fun w hw => by
      rw [List.mem_singleton.mp hw]
      exact (inside_print_iff len).mpr h⟩

theorem inside_stored_iff (ps : List Put) {len : Nat} (hlen : 0 < len) :
    (∀ w ∈ places pos (ps ++ [.store len]), Inside size w) ↔ pos + total ps + len ≤ size := by
  rw [places_append, List.forall_mem_append]
  constructor
  · rintro ⟨-, hlast⟩
    exact (inside_store_iff hlen).mp (hlast _ List.mem_cons_self)
  · intro h
    exact ⟨inside_of_total_le (by omega), fun w hw => by
      rw [List.mem_singleton.mp hw]
      exact (inside_store_iff hlen).mpr h⟩

theorem lt_of_mem_places {ps : List Put} {w : Nat × Put} (hw : w ∈ places pos ps)
    (h : pos + total ps < size) : w.1 < size := by
  induction ps generalizing pos with
  | nil => exact absurd hw List.not_mem_nil
  | cons p ps ih =>
      rw [total_cons] at h
      rcases List.mem_cons.mp hw with rfl | hw
      · dsimp only
        omega
      · exact ih hw (by omega)

end Cursor

end Lib
end CodebaseMemory
