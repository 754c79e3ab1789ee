import CodebaseMemory.Http.Head
import CodebaseMemory.Lib.Json
import CodebaseMemory.Lib.Text

/-!
# Query parameters (`src/ui/httpd.c`)

`cbm_http_query_param` looks for a name in a query string and decodes the value of its first
occurrence.
-/

namespace CodebaseMemory
namespace Http

open Lib

section Query

def ampersand : UInt8 := 38
def equals : UInt8 := 61
def percent : UInt8 := 37
def plus : UInt8 := 43

/-- `hex_val`; `none` is -1. -/
def hexVal (ch : UInt8) : Option Nat :=
  if 48 ≤ ch ∧ ch ≤ 57 then some (ch.toNat - 48)
  else if 97 ≤ ch ∧ ch ≤ 102 then some (ch.toNat - 97 + 10)
  else if 65 ≤ ch ∧ ch ≤ 70 then some (ch.toNat - 65 + 10)
  else none

/-- A character goes to the buffer; without room for it, the parameter is refused. -/
def pushChar (bufsz : Nat) (out : Bytes) (ch : UInt8) : Option Bytes :=
  if bufsz - 1 ≤ out.length then none else some (out ++ [ch])

/-- The loop that decodes the value `v`; `out` is what stands in the buffer. -/
def decodeValue (bufsz : Nat) : Bytes → Bytes → Option Bytes
  | [], out => if 0 < out.length then some out else none
  | ch :: v, out =>
      if ch = plus then (pushChar bufsz out space).bind (decodeValue bufsz v)
      else if ch = percent then
        match v with
        | hi :: lo :: v =>
            match hexVal hi, hexVal lo with
            | some hi, some lo =>
                if UInt8.ofNat (16 * hi + lo) = 0 then none
                else (pushChar bufsz out (UInt8.ofNat (16 * hi + lo))).bind (decodeValue bufsz v)
            | _, _ => none
        | _ => none
      else (pushChar bufsz out ch).bind (decodeValue bufsz v)

/-- The loop over the pairs from `p` on. -/
def queryLoop (name : Bytes) (bufsz : Nat) (p : Bytes) : Option Bytes :=
  if _h : p = [] then none
  else
    let pair := p.takeWhile (· != ampersand)
    let next := p.drop (pair.length + 1)
    match splitByte equals pair with
    | some (key, v) => if key = name then decodeValue bufsz v [] else queryLoop name bufsz next
    | none => if pair = name then none else queryLoop name bufsz next
termination_by p.length
decreasing_by
  all_goals
    have := List.length_pos_of_ne_nil _h
    simp only [List.length_drop]
    omega

/-- `cbm_http_query_param`; `none` is false, and a size below 0 is like 0. -/
def cbmHttpQueryParam (query name : Bytes) (bufsz : Nat) : Option Bytes :=
  if bufsz = 0 then none else queryLoop name bufsz query

/-- A text that stands for a value: each byte as it is, as `%XX`, or a space as `+`. -/
inductive Encodes : Bytes → Bytes → Prop where
  | nil : Encodes [] []
  | raw {c : UInt8} {text value : Bytes} (hamp : c ≠ ampersand) (hpercent : c ≠ percent)
      (hplus : c ≠ plus) (hnul : c ≠ 0) (h : Encodes text value) :
      Encodes (c :: text) (c :: value)
  | space {text value : Bytes} (h : Encodes text value) :
      Encodes (plus :: text) (space :: value)
  | escaped {a b c : UInt8} {hi lo : Nat} {text value : Bytes} (ha : Json.hexDigit a = some hi)
      (hb : Json.hexDigit b = some lo) (hc : c.toNat = 16 * hi + lo) (hnul : c ≠ 0)
      (h : Encodes text value) : Encodes (percent :: a :: b :: text) (c :: value)

/-- A parameter with the text that its value is written as. -/
structure Param where
  name : Bytes
  value : Bytes
  text : Bytes
  free : ∀ c ∈ name, c ≠ ampersand ∧ c ≠ equals ∧ c ≠ percent ∧ c ≠ plus
  encodes : Encodes text value

/-- `name=text` -/
def Param.pair (p : Param) : Bytes := p.name ++ equals :: p.text

def queryOf (params : List Param) : Bytes := join ampersand (params.map Param.pair)

variable {bufsz : Nat} {text value out : Bytes}

theorem hexVal_eq (ch : UInt8) : hexVal ch = Json.hexDigit ch := by
  simp only [hexVal, Json.hexDigit, UInt8.le_iff_toNat_le, show (48 : UInt8).toNat = 48 from rfl,
    show (57 : UInt8).toNat = 57 from rfl, show (65 : UInt8).toNat = 65 from rfl,
    show (70 : UInt8).toNat = 70 from rfl, show (97 : UInt8).toNat = 97 from rfl,
    show (102 : UInt8).toNat = 102 from rfl]
  by_cases hdigit : 48 ≤ ch.toNat ∧ ch.toNat ≤ 57
  · rw [if_pos hdigit, if_pos hdigit]
  rw [if_neg hdigit, if_neg hdigit]
  by_cases hlower : 97 ≤ ch.toNat ∧ ch.toNat ≤ 102
  · rw [if_pos hlower, if_neg (by omega), if_pos hlower]
    congr 1
    omega
  · rw [if_neg hlower, if_neg hlower]
    by_cases hupper : 65 ≤ ch.toNat ∧ ch.toNat ≤ 70
    · rw [if_pos hupper, if_pos hupper]
      congr 1
      omega
    · rw [if_neg hupper, if_neg hupper]

theorem decodeValue_raw {ch : UInt8} (hplus : ch ≠ plus) (hpercent : ch ≠ percent) (v : Bytes) :
    decodeValue bufsz (ch :: v) out = (pushChar bufsz out ch).bind (decodeValue bufsz v) := by
  rw [decodeValue.eq_def]
  dsimp only
  rw [if_neg hplus, if_neg hpercent]

theorem decodeValue_plus (v : Bytes) :
    decodeValue bufsz (plus :: v) out = (pushChar bufsz out space).bind (decodeValue bufsz v) := by
  rw [decodeValue.eq_def]
  dsimp only
  rw [if_pos rfl]

theorem pushChar_eq {ch : UInt8} (h : out.length + 1 < bufsz) :
    pushChar bufsz out ch = some (out ++ [ch]) := by
  rw [pushChar, if_neg (by omega)]

theorem decodeValue_encodes (h : Encodes text value) (hfits : out.length + value.length < bufsz) :
    decodeValue bufsz text out = if 0 < (out ++ value).length then some (out ++ value) else none := by
  induction h generalizing out with
  | nil => rw [decodeValue, List.append_nil]
  | raw hamp hpercent hplus hnul h ih =>
      rw [List.length_cons] at hfits
      rw [decodeValue_raw hplus hpercent, pushChar_eq (by omega), Option.bind_some,
        ih (by rw [List.length_append, List.length_singleton]; omega), List.append_assoc,
        List.singleton_append]
  | space h ih =>
      rw [List.length_cons] at hfits
      rw [decodeValue_plus, pushChar_eq (by omega), Option.bind_some,
        ih (by rw [List.length_append, List.length_singleton]; omega), List.append_assoc,
        List.singleton_append]
  | @escaped a b c hi lo text value ha hb hc hnul h ih =>
      rw [List.length_cons] at hfits
      have hbyte : UInt8.ofNat (16 * hi + lo) = c := by rw [← hc, UInt8.ofNat_toNat]
      rw [decodeValue, if_neg (by decide), if_pos rfl, hexVal_eq, hexVal_eq, ha, hb]
      dsimp only
      rw [hbyte, if_neg hnul, pushChar_eq (by omega), Option.bind_some,
        ih (by rw [List.length_append, List.length_singleton]; omega), List.append_assoc,
        List.singleton_append]

theorem splitByte_append {c : UInt8} {a b : Bytes} (h : ∀ x ∈ a, x ≠ c) :
    splitByte c (a ++ c :: b) = some (a, b) := by
  induction a with
  | nil => rw [List.nil_append, splitByte, if_pos rfl]
  | cons x a ih =>
      rw [List.cons_append, splitByte, if_neg (h x List.mem_cons_self),
        ih fun y hy => h y (List.mem_cons_of_mem _ hy)]
      rfl

theorem Encodes.ne_ampersand (h : Encodes text value) : ∀ c ∈ text, c ≠ ampersand := by
  have hdigit : ∀ {c : UInt8} {n : Nat}, Json.hexDigit c = some n → c ≠ ampersand := by
    rintro c n hc rfl
    have hnone : Json.hexDigit ampersand = none := by decide
    exact absurd (hnone.symm.trans hc) (by simp)
  induction h with
  | nil => exact fun c hc => absurd hc List.not_mem_nil
  | raw hamp hpercent hplus hnul h ih =>
      intro c hc
      rcases List.mem_cons.mp hc with rfl | hc
      · exact hamp
      · exact ih c hc
  | space h ih =>
      intro c hc
      rcases List.mem_cons.mp hc with rfl | hc
      · decide
      · exact ih c hc
  | escaped ha hb hc hnul h ih =>
      intro c hc
      rcases List.mem_cons.mp hc with rfl | hc
      · decide
      rcases List.mem_cons.mp hc with rfl | hc
      · exact hdigit ha
      rcases List.mem_cons.mp hc with rfl | hc
      · exact hdigit hb
      · exact ih c hc

theorem Param.ne_ampersand (p : Param) : ∀ c ∈ p.pair, c ≠ ampersand := by
  intro c hc
  rcases List.mem_append.mp hc with hc | hc
  · exact (p.free c hc).1
  · rcases List.mem_cons.mp hc with rfl | hc
    · decide
    · exact p.encodes.ne_ampersand c hc

theorem queryOf_cons (p : Param) (params : List Param) :
    (queryOf (p :: params)).takeWhile (· != ampersand) = p.pair ∧
      (queryOf (p :: params)).drop (p.pair.length + 1) = queryOf params := by
  have hpair : ∀ c ∈ p.pair, (c != ampersand) = true := fun c hc =>
    bne_iff_ne.mpr (p.ne_ampersand c hc)
  cases params with
  | nil =>
      rw [queryOf, List.map_singleton, join, List.intercalate_singleton]
      exact ⟨List.takeWhile_eq_self_iff.mpr hpair, List.drop_of_length_le (Nat.le_succ _)⟩
  | cons q params =>
      have hquery : queryOf (p :: q :: params) =
          p.pair ++ ampersand :: queryOf (q :: params) := by
        rw [queryOf, List.map_cons, List.map_cons, join, List.intercalate_cons_cons,
          List.append_assoc, List.singleton_append, queryOf, List.map_cons, join]
      rw [hquery]
      refine ⟨?_, ?_⟩
      · rw [List.takeWhile_append_of_pos hpair, List.takeWhile_cons_of_neg (by decide),
          List.append_nil]
      · rw [List.drop_append, List.drop_of_length_le (Nat.le_succ _), Nat.add_sub_cancel_left]
        rfl

theorem queryLoop_nil (name : Bytes) : queryLoop name bufsz [] = none := by
  rw [queryLoop, dif_pos rfl]

theorem queryLoop_cons (name : Bytes) (p : Param) (params : List Param) :
    queryLoop name bufsz (queryOf (p :: params)) =
      if p.name = name then decodeValue bufsz p.text []
      else queryLoop name bufsz (queryOf params) := by
  obtain ⟨htake, hdrop⟩ := queryOf_cons p params
  have hne : queryOf (p :: params) ≠ [] := by
    intro hnil
    rw [hnil, List.takeWhile_nil, Param.pair] at htake
    exact absurd htake.symm (by simp)
  have hsplit : splitByte equals p.pair = some (p.name, p.text) :=
    splitByte_append fun c hc => (p.free c hc).2.1
  rw [queryLoop, dif_neg hne]
  dsimp only
  rw [htake, hdrop, hsplit]

/-- A query parameter is decoded to what was encoded: the value of the first occurrence of the
name, if it is not empty and fits, and nothing for a name that does not occur. -/
theorem queryParam_encoded (params : List Param) (name : Bytes) (bufsz : Nat) :
    (∀ p, params.find? (·.name == name) = some p → p.value ≠ [] → p.value.length < bufsz →
      cbmHttpQueryParam (queryOf params) name bufsz = some p.value) ∧
    ((∀ p ∈ params, p.name ≠ name) →
      cbmHttpQueryParam (queryOf params) name bufsz = none) := by
  constructor
  · intro p hfind hvalue hfits
    rw [cbmHttpQueryParam, if_neg (by omega)]
    induction params with
    | nil => exact absurd hfind (by simp)
    | cons q params ih =>
        rw [queryLoop_cons]
        by_cases hq : q.name = name
        · rw [List.find?_cons, beq_iff_eq.mpr hq] at hfind
          obtain rfl := Option.some.inj hfind
          have hdecode := @decodeValue_encodes _ _ _ [] q.encodes (by simpa using hfits)
          rw [List.nil_append, if_pos (List.length_pos_iff.mpr hvalue)] at hdecode
          rw [if_pos hq, hdecode]
        · rw [List.find?_cons, beq_eq_false_iff_ne.mpr hq] at hfind
          rw [if_neg hq]
          exact ih hfind
  · intro hnone
    rw [cbmHttpQueryParam]
    split
    · rfl
    · induction params with
      | nil => exact queryLoop_nil name
      | cons q params ih =>
          rw [queryLoop_cons, if_neg (hnone q List.mem_cons_self)]
          exact ih fun p hp => hnone p (List.mem_cons_of_mem _ hp)

end Query

end Http
end CodebaseMemory
