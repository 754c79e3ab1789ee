import CodebaseMemory.Query.InClause

/-!
# Statements with placeholders

The text of a statement with numbered placeholders, `?1` and so on, and the values that are bound
to them.
-/

namespace CodebaseMemory
namespace Query

open Lib
open Sqlite (CStr bytesOf)

section Pieces

/-- A piece of a statement: its text, or a value that is bound. -/
inductive Piece where
  | text (s : CStr)
  | value (v : CStr)

def values : List Piece → List CStr
  | [] => []
  | .text _ :: ps => values ps
  | .value v :: ps => v :: values ps

/-- The placeholder of a number. -/
def param (n : Nat) : CStr :=
  63 :: decimalNat n

/-- The statement, when `n` values are bound already. -/
def printPieces : Nat → List Piece → CStr
  | _, [] => []
  | n, .text s :: ps => s ++ printPieces n ps
  | n, .value _ :: ps => param (n + 1) ++ printPieces (n + 1) ps

/-- The numbers of the placeholders in a statement. -/
def paramsIn : CStr → List Nat
  | [] => []
  | c :: rest =>
      if c = 63 then digitsValue 0 (rest.takeWhile isDigit) :: paramsIn rest else paramsIn rest

/-- The statement does not begin with a digit. -/
def NoDigit (ps : List Piece) : Prop :=
  ∀ n, ∀ c ∈ (printPieces n ps).head?, isDigit c = false

/-- The texts are free of placeholders, and no digit stands behind a value. -/
def Readable : List Piece → Prop
  | [] => True
  | .text s :: ps => 63 ∉ s ∧ Readable ps
  | .value _ :: ps => NoDigit ps ∧ Readable ps

theorem values_append (ps qs : List Piece) : values (ps ++ qs) = values ps ++ values qs := by
  induction ps with
  | nil => rfl
  | cons p ps ih => cases p <;> simp [values, ih]

theorem printPieces_append (n : Nat) (ps qs : List Piece) :
    printPieces n (ps ++ qs) = printPieces n ps ++ printPieces (n + (values ps).length) qs := by
  induction ps generalizing n with
  | nil => rfl
  | cons p ps ih =>
      cases p with
      | text s => rw [List.cons_append, printPieces, ih, printPieces, values, List.append_assoc]
      | value v =>
          rw [List.cons_append, printPieces, ih, printPieces, values, List.append_assoc,
            List.length_cons, Nat.add_assoc, Nat.add_comm 1]

theorem NoDigit.append {ps qs : List Piece} (hps : NoDigit ps) (hqs : NoDigit qs) :
    NoDigit (ps ++ qs) := by
  intro n c hc
  rw [printPieces_append, List.head?_append] at hc
  cases hhead : (printPieces n ps).head? with
  | none =>
      rw [hhead, Option.none_or] at hc
      exact hqs _ c hc
  | some d =>
      rw [hhead, Option.some_or] at hc
      exact hps n c (hhead ▸ hc)

theorem Readable.append {ps qs : List Piece} (hps : Readable ps) (hqs : Readable qs)
    (hhead : NoDigit qs) : Readable (ps ++ qs) := by
  induction ps with
  | nil => exact hqs
  | cons p ps ih =>
      cases p with
      | text s => exact ⟨hps.1, ih hps.2⟩
      | value v => exact ⟨hps.1.append hhead, ih hps.2⟩

theorem paramsIn_append {s : CStr} (hs : 63 ∉ s) (t : CStr) :
    paramsIn (s ++ t) = paramsIn t := by
  induction s with
  | nil => rfl
  | cons c s ih =>
      rw [List.mem_cons, not_or] at hs
      rw [List.cons_append, paramsIn, if_neg (Ne.symm hs.1), ih hs.2]

theorem paramsIn_printPieces {ps : List Piece} (h : Readable ps) (n : Nat) :
    paramsIn (printPieces n ps) = List.range' (n + 1) (values ps).length := by
  induction ps generalizing n with
  | nil => rfl
  | cons p ps ih =>
      cases p with
      | text s => rw [printPieces, paramsIn_append h.1, ih h.2, values]
      | value v =>
          have hdigits : (decimalNat (n + 1) ++ printPieces (n + 1) ps).takeWhile isDigit =
              decimalNat (n + 1) := by
            rw [List.takeWhile_append_of_pos
              (List.all_eq_true.mp (all_isDigit_decimalNat (n + 1)))]
            have hstop : (printPieces (n + 1) ps).takeWhile isDigit = [] := by
              cases hrest : printPieces (n + 1) ps with
              | nil => rfl
              | cons c rest =>
                  rw [List.takeWhile_cons_of_neg]
                  rw [h.1 (n + 1) c (by rw [hrest]; rfl)]
                  exact Bool.false_ne_true
            rw [hstop, List.append_nil]
          have hmark : 63 ∉ decimalNat (n + 1) :=
            fun hmem => absurd (byte_bounds hmem).2 (by decide)
          rw [printPieces, param, List.cons_append, paramsIn, if_pos rfl, hdigits,
            digitsValue_decimalNat, paramsIn_append hmark, ih h.2, values,
            List.length_cons, List.range'_succ]

theorem length_param_le {n : Nat} (h : n < 100) : (param n).length ≤ 3 := by
  rw [param, List.length_cons, decimalNat, List.length_map]
  have hdigits : (Nat.toDigits 10 n).length ≤ 2 :=
    (Nat.length_toDigits_le_iff (by decide) (by decide)).mpr h
  omega

theorem noDigit_text {s : CStr} (ps : List Piece) (hs : s ≠ [])
    (h : s.head?.any isDigit = false) : NoDigit (.text s :: ps) := by
  intro n c hc
  obtain ⟨d, rest, rfl⟩ := List.exists_cons_of_ne_nil hs
  obtain rfl : d = c := Option.some.inj hc
  exact h

/-- Conditions joined by AND. -/
def conjunction : List (List Piece) → List Piece
  | [] => []
  | c :: cs => c ++ cs.flatMap fun d => .text (bytesOf " AND ") :: d

theorem conjunction_append_singleton {cs : List (List Piece)} (hcs : cs ≠ []) (c : List Piece) :
    conjunction (cs ++ [c]) = conjunction cs ++ .text (bytesOf " AND ") :: c := by
  cases cs with
  | nil => exact absurd rfl hcs
  | cons d cs =>
      rw [List.cons_append, conjunction, conjunction, List.flatMap_append,
        List.flatMap_singleton, List.append_assoc]

end Pieces

end Query
end CodebaseMemory
