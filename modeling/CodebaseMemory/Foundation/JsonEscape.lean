import CodebaseMemory.Lib.JsonStrings
import CodebaseMemory.Sqlite.Record

/-!
# Escaping for JSON (`src/foundation/str_util.c`)

`cbm_json_escape` writes a text between quotes of a JSON document: quotes, backslashes,
newlines, carriage returns and tabs as escapes of two bytes, other control characters not at
all.  It stops where the buffer has no room for the next escape.
-/

namespace CodebaseMemory
namespace Foundation

open Lib
open Sqlite (CStr)

section JsonEscape

def jsonCtrlLimit : UInt8 := 0x20

/-- The loop of `cbm_json_escape`; `out` is what stands in the buffer up to `pos`. -/
def jsonEscapeLoop (bufsize : Nat) : CStr → CStr → CStr
  | [], out => out
  | c :: src, out =>
      if out.length < bufsize - 1 then
        if c = 34 ∨ c = 92 then
          if bufsize - 1 < out.length + 2 then out
          else jsonEscapeLoop bufsize src (out ++ [92, c])
        else if c = 10 then
          if bufsize - 1 < out.length + 2 then out
          else jsonEscapeLoop bufsize src (out ++ [92, 110])
        else if c = 13 then
          if bufsize - 1 < out.length + 2 then out
          else jsonEscapeLoop bufsize src (out ++ [92, 114])
        else if c = 9 then
          if bufsize - 1 < out.length + 2 then out
          else jsonEscapeLoop bufsize src (out ++ [92, 116])
        else if c < jsonCtrlLimit then jsonEscapeLoop bufsize src out
        else jsonEscapeLoop bufsize src (out ++ [c])
      else out

/-- `cbm_json_escape`: the text in the buffer, whose length is returned.  Without room for its
end (`none`) nothing is written; a negative size is like 0. -/
def cbmJsonEscape (bufsize : Nat) (src : Option CStr) : Option CStr :=
  if bufsize = 0 then none
  else
    match src with
    | none => some []
    | some src => some (jsonEscapeLoop bufsize src [])

/-- The characters that are not left out. -/
def isKept (c : UInt8) : Bool :=
  decide (c = 10 ∨ c = 13 ∨ c = 9) || !decide (c < jsonCtrlLimit)

/-- The source without the control characters that are left out. -/
def kept (src : CStr) : CStr :=
  src.filter isKept

theorem isKept_iff {c : UInt8} :
    isKept c = true ↔ c = 10 ∨ c = 13 ∨ c = 9 ∨ ¬ c < jsonCtrlLimit := by
  rw [isKept, Bool.or_eq_true, decide_eq_true_iff, Bool.not_eq_true', decide_eq_false_iff_not,
    or_assoc, or_assoc]

theorem escapeByte_of_isKept {c : UInt8} (h : isKept c = true) :
    Json.escapeByte c =
      if c = 34 ∨ c = 92 then [92, c]
      else if c = 10 then [92, 110]
      else if c = 13 then [92, 114]
      else if c = 9 then [92, 116]
      else [c] := by
  rcases isKept_iff.mp h with rfl | rfl | rfl | hc
  · rfl
  · rfl
  · rfl
  · have hne : ∀ d : UInt8, d < jsonCtrlLimit → c ≠ d := by
      rintro d hd rfl
      exact hc hd
    rw [Json.escapeByte, if_neg (hne 8 (by decide)), if_neg (hne 9 (by decide)),
      if_neg (hne 10 (by decide)), if_neg (hne 12 (by decide)), if_neg (hne 13 (by decide)),
      if_neg (show ¬ c < 32 from hc), if_neg (hne 10 (by decide)), if_neg (hne 13 (by decide)),
      if_neg (hne 9 (by decide))]
    by_cases hquote : c = 34
    · rw [if_pos hquote, if_pos (Or.inl hquote), hquote]
    · rw [if_neg hquote]
      by_cases hslash : c = 92
      · rw [if_pos hslash, if_pos (Or.inr hslash), hslash]
      · rw [if_neg hslash, if_neg (by simp [hquote, hslash])]

theorem jsonEscapeLoop_dropped {c : UInt8} (h : isKept c = false) (bufsize : Nat)
    (src out : CStr) :
    jsonEscapeLoop bufsize (c :: src) out =
      if out.length < bufsize - 1 then jsonEscapeLoop bufsize src out else out := by
  have hnot := mt isKept_iff.mpr (ne_true_of_eq_false h)
  rw [not_or, not_or, not_or, not_not] at hnot
  obtain ⟨h10, h13, h9, hctrl⟩ := hnot
  have hplain : ¬ (c = 34 ∨ c = 92) := by
    rintro (rfl | rfl)
    · exact absurd hctrl (by decide)
    · exact absurd hctrl (by decide)
  rw [jsonEscapeLoop, if_neg hplain, if_neg h10, if_neg h13, if_neg h9, if_pos hctrl]

theorem jsonEscapeLoop_kept {c : UInt8} (h : isKept c = true) (bufsize : Nat)
    (src out : CStr) :
    jsonEscapeLoop bufsize (c :: src) out =
      if out.length + (Json.escapeByte c).length ≤ bufsize - 1 then
        jsonEscapeLoop bufsize src (out ++ Json.escapeByte c)
      else out := by
  -- the two tests for an escape of two bytes
  have htwo : ∀ s : CStr, s.length = 2 →
      (if out.length < bufsize - 1 then
        if bufsize - 1 < out.length + 2 then out else jsonEscapeLoop bufsize src (out ++ s)
      else out) =
        if out.length + s.length ≤ bufsize - 1 then jsonEscapeLoop bufsize src (out ++ s)
        else out := by
    intro s hs
    rw [hs]
    by_cases hfits : out.length + 2 ≤ bufsize - 1
    · rw [if_pos (by omega), if_neg (by omega), if_pos hfits]
    · rw [if_neg hfits]
      split
      · rw [if_pos (by omega)]
      · rfl
  rw [escapeByte_of_isKept h, jsonEscapeLoop]
  by_cases hslash : c = 34 ∨ c = 92
  · rw [if_pos hslash, if_pos hslash]
    exact htwo _ rfl
  rw [if_neg hslash, if_neg hslash]
  by_cases h10 : c = 10
  · rw [if_pos h10, if_pos h10]
    exact htwo _ rfl
  rw [if_neg h10, if_neg h10]
  by_cases h13 : c = 13
  · rw [if_pos h13, if_pos h13]
    exact htwo _ rfl
  rw [if_neg h13, if_neg h13]
  by_cases h9 : c = 9
  · rw [if_pos h9, if_pos h9]
    exact htwo _ rfl
  rw [if_neg h9, if_neg h9]
  have hctrl : ¬ c < jsonCtrlLimit := by
    rcases isKept_iff.mp h with h | h | h | h
    · exact absurd h h10
    · exact absurd h h13
    · exact absurd h h9
    · exact h
  rw [if_neg hctrl]
  rfl

theorem jsonEscapeLoop_eq (bufsize : Nat) (src out : CStr) (hroom : out.length ≤ bufsize - 1) :
    ∃ p, p <+: kept src ∧ jsonEscapeLoop bufsize src out = out ++ Json.escape p ∧
      out.length + (Json.escape p).length ≤ bufsize - 1 ∧
      (out.length + (Json.escape (kept src)).length ≤ bufsize - 1 → p = kept src) := by
  induction src generalizing out with
  | nil => exact ⟨[], List.prefix_rfl, (List.append_nil out).symm, hroom, fun _ => rfl⟩
  | cons c src ih =>
      cases hc : isKept c with
      | false =>
          have hkept : kept (c :: src) = kept src := List.filter_cons_of_neg (by simp [hc])
          rw [jsonEscapeLoop_dropped hc, hkept]
          split
          · exact ih out hroom
          · refine ⟨[], List.nil_prefix, (List.append_nil out).symm, hroom, fun hfits => ?_⟩
            have hlen := Json.length_escape (kept src)
            exact (List.length_eq_zero_iff.mp (by omega)).symm
      | true =>
          have hkept : kept (c :: src) = c :: kept src := List.filter_cons_of_pos hc
          rw [jsonEscapeLoop_kept hc, hkept]
          split
          · next hfits =>
              obtain ⟨p, hp, heq, hlen, hall⟩ := ih (out ++ Json.escapeByte c)
                (by rw [List.length_append]; exact hfits)
              rw [List.length_append] at hlen hall
              refine ⟨c :: p, List.cons_prefix_cons.mpr ⟨rfl, hp⟩, ?_, ?_, fun hwhole => ?_⟩
              · rw [heq, Json.escape_cons, List.append_assoc]
              · rw [Json.escape_cons, List.length_append]
                omega
              · rw [Json.escape_cons, List.length_append] at hwhole
                rw [hall (by omega)]
          · next hfull =>
              refine ⟨[], List.nil_prefix, (List.append_nil out).symm, hroom, fun hwhole => ?_⟩
              rw [Json.escape_cons, List.length_append] at hwhole
              omega

/-- Escaping is lossless up to control characters, and safe where it is cut off: what is written
has room with its end, and a JSON reader that finds it before a quote reads it up to this quote,
as a beginning of the source without the control characters that are left out, which is all of
it if its escaped form fits. -/
theorem cbmJsonEscape_reads_back (n : Nat) (src : CStr) :
    ∃ out p, cbmJsonEscape (n + 1) (some src) = some out ∧ out.length + 1 ≤ n + 1 ∧
      p <+: kept src ∧ (∀ rest, Json.readString (out ++ 34 :: rest) = some ((out, p), rest)) ∧
      ((Json.escape (kept src)).length < n + 1 → p = kept src) := by
  obtain ⟨p, hp, heq, hlen, hall⟩ := jsonEscapeLoop_eq (n + 1) src [] (Nat.zero_le _)
  rw [List.nil_append] at heq
  rw [List.length_nil, Nat.zero_add, Nat.add_sub_cancel] at hlen hall
  refine ⟨Json.escape p, p, ?_, Nat.succ_le_succ hlen, hp, Json.isSpelling_escape p,
    fun hwhole => hall (Nat.lt_succ_iff.mp hwhole)⟩
  rw [cbmJsonEscape, if_neg (Nat.succ_ne_zero n), heq]

end JsonEscape

end Foundation
end CodebaseMemory
