import CodebaseMemory.Lib.Decimal
import CodebaseMemory.Lib.Text
import CodebaseMemory.Sqlite.Record

/-!
# Lists in the text of a statement (`src/store/store.c`)

A traversal prints the ids of its nodes and the placeholders of its edge types
into buffers of a fixed size: `snprintf` at the end of what is there, with the
length clamped to the buffer.  The list in the statement is what was printed, up
to the end of the buffer.
-/

namespace CodebaseMemory
namespace Query

open Lib
open Sqlite (CStr bytesOf)

/-- `snprintf` at the end of the text in a buffer of `size` bytes. -/
def snprintfAt (size : Nat) (buf piece : CStr) : CStr :=
  (buf ++ piece).take (size - 1)

theorem foldl_snprintfAt (size : Nat) (pieces : List CStr) :
    ∀ text : CStr, pieces.foldl (snprintfAt size) (text.take (size - 1)) =
      (text ++ pieces.flatten).take (size - 1) := by
  induction pieces with
  | nil =>
      intro text
      rw [List.foldl_nil, List.flatten_nil, List.append_nil]
  | cons piece pieces ih =>
      intro text
      have hstep : snprintfAt size (text.take (size - 1)) piece =
          (text ++ piece).take (size - 1) := by
        rw [snprintfAt, List.take_append, List.take_append, List.take_take, List.length_take,
          Nat.min_self]
        by_cases hroom : text.length ≤ size - 1
        · rw [Nat.min_eq_right hroom]
        · rw [Nat.min_eq_left (by omega), Nat.sub_self,
            Nat.sub_eq_zero_of_le (show size - 1 ≤ text.length by omega)]
      rw [List.foldl_cons, hstep, ih, List.flatten_cons, List.append_assoc]

def isDigit (b : UInt8) : Bool :=
  48 ≤ b && b ≤ 57

/-- A number without a sign. -/
def readNat (text : CStr) : Option Nat :=
  if text ≠ [] ∧ text.all isDigit then some (digitsValue 0 text) else none

/-- A number that may have a minus sign. -/
def readInt : CStr → Option Int
  | [] => none
  | b :: text => if b = 45 then (readNat text).map fun n => -(n : Int)
      else (readNat (b :: text)).map fun n => (n : Int)

/-- A numbered parameter, `?1`. -/
def readParam : CStr → Option Nat
  | [] => none
  | b :: text => if b = 63 then readNat text else none

def readList {α : Type} (item : CStr → Option α) (text : CStr) : Option (List α) :=
  (text.splitOn 44).mapM item

theorem all_isDigit_decimalNat (n : Nat) : (decimalNat n).all isDigit = true := by
  rw [List.all_eq_true]
  intro b hb
  obtain ⟨hlow, hhigh⟩ := byte_bounds hb
  rw [isDigit, Bool.and_eq_true, decide_eq_true_iff, decide_eq_true_iff, UInt8.le_iff_toNat_le,
    UInt8.le_iff_toNat_le]
  exact ⟨hlow, hhigh⟩

theorem readNat_decimalNat (n : Nat) : readNat (decimalNat n) = some n := by
  rw [readNat, if_pos ⟨decimalNat_ne_nil n, all_isDigit_decimalNat n⟩, digitsValue_decimalNat]

theorem readInt_decimal (i : Int) : readInt (decimal i) = some i := by
  cases i with
  | ofNat n =>
      obtain ⟨b, bs, hbytes⟩ := List.exists_cons_of_ne_nil (decimalNat_ne_nil n)
      have hminus : b ≠ 45 := by
        rintro rfl
        exact decimalNat_ne_cons_minus n bs hbytes
      rw [decimal, hbytes, readInt, if_neg hminus, ← hbytes, readNat_decimalNat]
      rfl
  | negSucc n =>
      rw [decimal, readInt, if_pos rfl, readNat_decimalNat]
      rfl

theorem not_mem_decimalNat {c : UInt8} (hc : c < 48) (n : Nat) : c ∉ decimalNat n := by
  intro hmem
  have hlow := (byte_bounds hmem).1
  rw [UInt8.lt_iff_toNat_lt] at hc
  exact absurd hc (Nat.not_lt.mpr hlow)

theorem not_mem_decimal {c : UInt8} (hc : c < 48) (hminus : c ≠ 45) (i : Int) :
    c ∉ decimal i := by
  cases i with
  | ofNat n => exact not_mem_decimalNat hc n
  | negSucc n =>
      rw [decimal, List.mem_cons]
      rintro (h | h)
      · exact hminus h
      · exact not_mem_decimalNat hc (n + 1) h

theorem readList_join {α : Type} {item : CStr → Option α} {print : α → CStr} {xs : List α}
    (hne : xs ≠ []) (hitem : ∀ x, x ∈ xs → item (print x) = some x)
    (hcomma : ∀ x, x ∈ xs → (44 : UInt8) ∉ print x) :
    readList item (join 44 (xs.map print)) = some xs := by
  have hwords : words 44 (xs.map print) = xs.map print := by
    have hsplit : ∀ part, part ∈ xs.map print → part.splitOn 44 = [part] := by
      intro part hpart
      obtain ⟨x, hx, rfl⟩ := List.mem_map.mp hpart
      exact List.splitOn_eq_singleton (hcomma x hx)
    rw [words, List.flatMap_congr hsplit, List.flatMap_singleton']
  rw [readList, splitOn_join (by simpa using hne), hwords]
  clear hwords hne
  induction xs with
  | nil => rfl
  | cons x xs ih =>
      rw [List.map_cons, List.mapM_cons, hitem x List.mem_cons_self,
        ih (fun y hy => hitem y (List.mem_cons_of_mem _ hy))
          fun y hy => hcomma y (List.mem_cons_of_mem _ hy)]
      rfl

def bfsBuildTypesClause (edgeTypeCount bufSz : Nat) : CStr :=
  if edgeTypeCount = 0 then snprintfAt bufSz [] (bytesOf "?1")
  else
    (List.range edgeTypeCount).foldl (fun buf i =>
      let buf := if i > 0 then snprintfAt bufSz buf (bytesOf ",") else buf
      snprintfAt bufSz buf (63 :: decimalNat (i + 1))) []

/-- The list of types, `CALLS` where none is given. -/
def requestedTypes (edgeTypes : List CStr) : List CStr :=
  if edgeTypes = [] then [bytesOf "CALLS"] else edgeTypes

/-- The types that the parameters of the clause are bound to. -/
def bfsTypes (edgeTypes : List CStr) : Option (List CStr) :=
  (readList readParam (bfsBuildTypesClause edgeTypes.length 512)).map fun params =>
    params.filterMap fun k => (requestedTypes edgeTypes)[k - 1]?

/-- The placeholders of `n` types. -/
def placeholders (n : Nat) : CStr :=
  join 44 ((List.range n).map fun i => 63 :: decimalNat (i + 1))

theorem join_concat {parts : List CStr} (hne : parts ≠ []) (part : CStr) :
    join 44 (parts ++ [part]) = join 44 parts ++ 44 :: part := by
  induction parts with
  | nil => exact absurd rfl hne
  | cons p ps ih =>
      cases ps with
      | nil => simp [join, List.intercalate_cons_cons, List.intercalate_singleton]
      | cons q qs =>
          have hrest := ih (List.cons_ne_nil q qs)
          simp only [join, List.cons_append, List.intercalate_cons_cons] at hrest ⊢
          rw [hrest]
          simp only [List.append_assoc]

theorem placeholders_succ {n : Nat} (hn : 0 < n) :
    placeholders (n + 1) = placeholders n ++ 44 :: 63 :: decimalNat (n + 1) := by
  rw [placeholders, List.range_succ, List.map_append, List.map_singleton, join_concat, placeholders]
  simp only [ne_eq, List.map_eq_nil_iff, List.range_eq_nil]
  omega

theorem bfsBuildTypesClause_eq {n : Nat} (hn : 0 < n) (bufSz : Nat) :
    bfsBuildTypesClause n bufSz = (placeholders n).take (bufSz - 1) := by
  rw [bfsBuildTypesClause, if_neg (by omega)]
  induction n with
  | zero => exact absurd hn (lt_irrefl 0)
  | succ n ih =>
      rw [List.range_succ, List.foldl_append, List.foldl_cons, List.foldl_nil]
      by_cases hzero : n = 0
      · subst hzero
        rfl
      · have hpos : 0 < n := by omega
        have hpieces := foldl_snprintfAt bufSz [bytesOf ",", 63 :: decimalNat (n + 1)]
          (placeholders n)
        have hflat : [bytesOf ",", 63 :: decimalNat (n + 1)].flatten =
            44 :: 63 :: decimalNat (n + 1) := by
          rw [List.flatten_cons, List.flatten_singleton]
          rfl
        rw [hflat, ← placeholders_succ hpos] at hpieces
        rw [ih hpos]
        simp only [gt_iff_lt, if_pos hpos]
        exact hpieces

theorem exists_placeholders {m : Nat} (hm : 0 < m) (d : Nat) :
    ∃ rest, placeholders (m + d) = placeholders m ++ rest := by
  induction d with
  | zero => exact ⟨[], (List.append_nil _).symm⟩
  | succ d ih =>
      obtain ⟨rest, hrest⟩ := ih
      refine ⟨rest ++ 44 :: 63 :: decimalNat (m + d + 1), ?_⟩
      rw [← Nat.add_assoc, placeholders_succ (by omega), hrest, List.append_assoc]

theorem length_placeholders : (placeholders 124).length = 511 := by
  decide +kernel

theorem clause_room {n : Nat} (hn : 0 < n) :
    bfsBuildTypesClause n 512 = placeholders (min n 124) := by
  rw [bfsBuildTypesClause_eq hn]
  by_cases hfew : n ≤ 124
  · obtain ⟨rest, hrest⟩ := exists_placeholders hn (124 - n)
    have hlength := congrArg List.length hrest
    rw [show n + (124 - n) = 124 by omega, length_placeholders, List.length_append] at hlength
    rw [Nat.min_eq_left hfew, List.take_of_length_le (by omega)]
  · obtain ⟨rest, hrest⟩ := exists_placeholders (m := 124) (by omega) (n - 124)
    rw [show 124 + (n - 124) = n by omega] at hrest
    rw [Nat.min_eq_right (by omega), hrest]
    exact List.take_left' length_placeholders

theorem readParam_placeholder (n : Nat) : readParam (63 :: decimalNat n) = some n := by
  rw [readParam, if_pos rfl, readNat_decimalNat]

theorem readList_placeholders {n : Nat} (hn : 0 < n) :
    readList readParam (placeholders n) = some ((List.range n).map (· + 1)) := by
  have hprint : (List.range n).map (fun i => 63 :: decimalNat (i + 1)) =
      ((List.range n).map (· + 1)).map fun k => 63 :: decimalNat k := by
    rw [List.map_map]
    rfl
  rw [placeholders, hprint]
  refine readList_join ?_ (fun k _ => readParam_placeholder k) fun k _ => ?_
  · simp only [ne_eq, List.map_eq_nil_iff, List.range_eq_nil]
    omega
  · rw [List.mem_cons, not_or]
    exact ⟨by decide, not_mem_decimalNat (by decide) k⟩

theorem filterMap_getElem?_range {α : Type} (xs : List α) :
    (List.range xs.length).filterMap (fun j => xs[j]?) = xs := by
  induction xs with
  | nil => rfl
  | cons x xs ih =>
      rw [List.length_cons, List.range_succ_eq_map, List.filterMap_cons, List.filterMap_map]
      exact congrArg (x :: ·) ih

theorem filterMap_params {α : Type} (xs : List α) (k : Nat) :
    ((List.range (min xs.length k)).map (· + 1)).filterMap (fun j => xs[j - 1]?) = xs.take k := by
  have hlength : min xs.length k = (xs.take k).length := by
    rw [List.length_take, Nat.min_comm]
  have hsame : (List.range (min xs.length k)).filterMap ((fun j => xs[j - 1]?) ∘ (· + 1)) =
      (List.range (min xs.length k)).filterMap fun j => (xs.take k)[j]? := by
    refine List.filterMap_congr fun j hj => ?_
    rw [List.mem_range] at hj
    rw [List.getElem?_take, if_pos (lt_of_lt_of_le hj (min_le_right _ _))]
    rfl
  rw [List.filterMap_map, hsame, hlength]
  exact filterMap_getElem?_range (xs.take k)

theorem bfsTypes_eq (edgeTypes : List CStr) :
    bfsTypes edgeTypes = some ((requestedTypes edgeTypes).take 124) := by
  have hclause : bfsBuildTypesClause edgeTypes.length 512 =
      placeholders (min (requestedTypes edgeTypes).length 124) := by
    cases edgeTypes with
    | nil => rfl
    | cons type types => exact clause_room (Nat.succ_pos _)
  have hpos : 0 < min (requestedTypes edgeTypes).length 124 := by
    rw [requestedTypes]
    split
    · decide
    · next hne => exact lt_min (List.length_pos_iff.mpr hne) (by omega)
  rw [bfsTypes, hclause, readList_placeholders hpos, Option.map_some, filterMap_params]

end Query
end CodebaseMemory
