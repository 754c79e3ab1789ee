import CodebaseMemory.Cypher.Eval
import CodebaseMemory.Lib.JsonStrings

/-!
# Properties in JSON texts

`json_extract_prop` looks for the text `"key":` and takes what stands behind its
first occurrence, wherever that is.  It is compared with the value that a reader of
JSON finds for the key.
-/

namespace CodebaseMemory
namespace Cypher

open Lib
open Sqlite (CStr bytesOf)

/-- The first occurrence of a pattern, with what stands before it and behind it. -/
structure FirstAt (pattern text before rest : CStr) : Prop where
  text_eq : text = before ++ (pattern ++ rest)
  first : ∀ before' rest', text = before' ++ (pattern ++ rest') → before.length ≤ before'.length

section Search

variable {pattern : CStr}
variable {rest text : CStr}
variable {c : UInt8}

theorem afterFirst_cons_of_prefix (h : c :: text = pattern ++ rest) :
    afterFirst pattern (c :: text) = some rest := by
  have hpre : pattern.isPrefixOf (c :: text) = true :=
    List.isPrefixOf_iff_prefix.mpr ⟨rest, h.symm⟩
  rw [afterFirst, if_pos hpre, h, List.drop_left]

theorem afterFirst_cons_of_not_start (h : ¬ pattern <+: c :: text) :
    afterFirst pattern (c :: text) = afterFirst pattern text := by
  rw [afterFirst, if_neg fun hpre => h (List.isPrefixOf_iff_prefix.mp hpre)]

theorem firstAt_nil (h : text = pattern ++ rest) : FirstAt pattern text [] rest :=
  ⟨h, fun _ _ _ => Nat.zero_le _⟩

theorem FirstAt.cons {before : CStr} (h : FirstAt pattern text before rest)
    (hpre : ¬ pattern <+: c :: text) : FirstAt pattern (c :: text) (c :: before) rest := by
  refine ⟨by rw [h.text_eq]; rfl, fun before' rest' heq => ?_⟩
  cases before' with
  | nil => exact absurd ⟨rest', heq.symm⟩ hpre
  | cons d before' => exact Nat.succ_le_succ (h.first before' rest' (List.cons.inj heq).2)

theorem afterFirst_spec (hne : pattern ≠ []) (text : CStr) :
    (∃ before rest, afterFirst pattern text = some rest ∧ FirstAt pattern text before rest) ∨
      afterFirst pattern text = none ∧ ∀ before rest, text ≠ before ++ (pattern ++ rest) := by
  induction text with
  | nil =>
      refine Or.inr ⟨if_neg hne, fun before rest heq => hne ?_⟩
      exact (List.append_eq_nil_iff.mp (List.append_eq_nil_iff.mp heq.symm).2).1
  | cons c text ih =>
      by_cases hpre : pattern <+: c :: text
      · obtain ⟨rest, hrest⟩ := hpre
        exact Or.inl ⟨[], rest, afterFirst_cons_of_prefix hrest.symm, firstAt_nil hrest.symm⟩
      · rw [afterFirst_cons_of_not_start hpre]
        rcases ih with ⟨before, rest, hafter, hfirst⟩ | ⟨hafter, hno⟩
        · exact Or.inl ⟨c :: before, rest, hafter, hfirst.cons hpre⟩
        · refine Or.inr ⟨hafter, fun before rest heq => ?_⟩
          cases before with
          | nil => exact hpre ⟨rest, heq.symm⟩
          | cons d before => exact hno before rest (List.cons.inj heq).2

theorem FirstAt.unique {before before' rest' : CStr} (h : FirstAt pattern text before rest)
    (h' : FirstAt pattern text before' rest') : rest = rest' := by
  have hlen : before.length = before'.length :=
    Nat.le_antisymm (h.first _ _ h'.text_eq) (h'.first _ _ h.text_eq)
  obtain ⟨-, heq⟩ := List.append_inj (h.text_eq.symm.trans h'.text_eq) hlen
  exact List.append_cancel_left heq

end Search

/-- `"key":`. -/
def propPattern (key : CStr) : CStr :=
  34 :: (key ++ [34, 58])

/-- The value stands at the beginning of a text, up to a byte that ends it, or as far as there is
room. -/
def StandsAt (ends : UInt8 → Bool) (v text : CStr) : Prop :=
  ∃ more, text = v ++ more ∧ (∀ c ∈ v, ends c = false) ∧ v.length ≤ valueRoom ∧
    (v.length = valueRoom ∨ ∀ c ∈ more.head?, ends c = true)

/-- The value stands at the beginning of a text after blanks and tabs: between quotes, or bare and
before a comma, a brace or a blank. -/
def Stands (v rest : CStr) : Prop :=
  ∃ blanks text, rest = blanks ++ text ∧ (∀ c ∈ blanks, c = 32 ∨ c = 9) ∧
    ((∃ quoted, text = 34 :: quoted ∧ StandsAt (fun c => c = 34) v quoted) ∨
      (∀ c ∈ text.head?, c ≠ 32 ∧ c ≠ 9 ∧ c ≠ 34) ∧
        StandsAt (fun c => c = 44 ∨ c = 125 ∨ c = 32) v text)

/-- What stands behind the first occurrence of the key is the value; a key that occurs nowhere has
the empty value. -/
structure StandsFirst (json key v : CStr) : Prop where
  found : ∀ before rest, FirstAt (propPattern key) json before rest → Stands v rest
  missing : (∀ before rest, json ≠ before ++ (propPattern key ++ rest)) → v = []

theorem takeWhile_take_eq_iff (ends : UInt8 → Bool) (v text : CStr) :
    (text.takeWhile fun c => !ends c).take valueRoom = v ↔ StandsAt ends v text := by
  constructor
  · rintro rfl
    set run := text.takeWhile fun c => !ends c with hrun
    set after := text.dropWhile fun c => !ends c with hafter
    have htext : text = run ++ after := List.takeWhile_append_dropWhile.symm
    refine ⟨run.drop valueRoom ++ after, ?_, fun c hc => ?_, List.length_take_le _ _, ?_⟩
    · rw [← List.append_assoc, List.take_append_drop, ← htext]
    · simpa using List.mem_takeWhile_imp (List.mem_of_mem_take hc)
    · by_cases hfull : valueRoom ≤ run.length
      · exact Or.inl (List.length_take_of_le hfull)
      · refine Or.inr fun c hc => ?_
        rw [List.drop_eq_nil_of_le (by omega), List.nil_append, hafter] at hc
        have hstop := List.head?_dropWhile_not (fun c => !ends c) text
        rw [hc] at hstop
        simpa using hstop
  · rintro ⟨more, rfl, hv, hle, hend⟩
    have hpass : (v ++ more).takeWhile (fun c => !ends c) =
        v ++ more.takeWhile fun c => !ends c :=
      List.takeWhile_append_of_pos fun c hc => by simp [hv c hc]
    rw [hpass]
    rcases hend with hfull | hend
    · rw [← hfull, List.take_left]
    · have hstop : (more.takeWhile fun c => !ends c) = [] := by
        cases more with
        | nil => rfl
        | cons c more => simp [hend c rfl]
      rw [hstop, List.append_nil, List.take_of_length_le hle]

/-- What the look-up takes from the text behind the pattern. -/
def takenFrom (rest : CStr) : CStr :=
  match rest.dropWhile fun c => c = 32 || c = 9 with
  | 34 :: text => (text.takeWhile fun c => c ≠ 34).take valueRoom
  | text => (text.takeWhile fun c => c ≠ 44 && c ≠ 125 && c ≠ 32).take valueRoom

theorem takenFrom_quoted {rest quoted : CStr}
    (h : (rest.dropWhile fun c => c = 32 || c = 9) = 34 :: quoted) (v : CStr) :
    takenFrom rest = v ↔ StandsAt (fun c => c = 34) v quoted := by
  have hends : (fun c : UInt8 => decide (c ≠ 34)) = fun c => !decide (c = 34) := by
    funext c
    simp
  rw [← takeWhile_take_eq_iff, takenFrom, h, hends]
  exact Iff.rfl

theorem takenFrom_bare {rest text : CStr} (h : (rest.dropWhile fun c => c = 32 || c = 9) = text)
    (hquote : text.head? ≠ some 34) (v : CStr) :
    takenFrom rest = v ↔ StandsAt (fun c => c = 44 ∨ c = 125 ∨ c = 32) v text := by
  have hends : (fun c : UInt8 => decide (c ≠ 44) && decide (c ≠ 125) && decide (c ≠ 32)) =
      fun c => !decide (c = 44 ∨ c = 125 ∨ c = 32) := by
    funext c
    simp [Bool.and_assoc]
  rw [← takeWhile_take_eq_iff, takenFrom, h, ← hends]
  split
  · exact absurd rfl hquote
  · rfl

theorem dropWhile_blanks {blanks text : CStr} (hblanks : ∀ c ∈ blanks, c = 32 ∨ c = 9)
    (htext : ∀ c ∈ text.head?, c ≠ 32 ∧ c ≠ 9) :
    ((blanks ++ text).dropWhile fun c => c = 32 || c = 9) = text := by
  rw [List.dropWhile_append_of_pos fun c hc => by simpa using hblanks c hc]
  cases text with
  | nil => rfl
  | cons c text =>
      have hc := htext c rfl
      rw [List.dropWhile_cons_of_neg (by simp [hc.1, hc.2])]

theorem takenFrom_eq_iff (v rest : CStr) : takenFrom rest = v ↔ Stands v rest := by
  set text := rest.dropWhile fun c => c = 32 || c = 9 with htext
  have hrest : rest = (rest.takeWhile fun c => c = 32 || c = 9) ++ text :=
    List.takeWhile_append_dropWhile.symm
  have hblanks : ∀ c ∈ rest.takeWhile fun c => c = 32 || c = 9, c = 32 ∨ c = 9 := by
    intro c hc
    simpa using List.mem_takeWhile_imp hc
  have hhead : ∀ c ∈ text.head?, c ≠ 32 ∧ c ≠ 9 := by
    intro c hc
    have hstop := List.head?_dropWhile_not (fun c : UInt8 => c = 32 || c = 9) rest
    rw [← htext, hc] at hstop
    simpa using hstop
  constructor
  · intro htaken
    refine ⟨_, text, hrest, hblanks, ?_⟩
    by_cases hquote : text.head? = some 34
    · obtain ⟨quoted, hquoted⟩ : ∃ quoted, text = 34 :: quoted := List.head?_eq_some_iff.mp hquote
      exact Or.inl ⟨quoted, hquoted, (takenFrom_quoted (htext.symm.trans hquoted) v).mp htaken⟩
    · refine Or.inr ⟨fun c hc => ⟨(hhead c hc).1, (hhead c hc).2, ?_⟩,
        (takenFrom_bare htext.symm hquote v).mp htaken⟩
      rintro rfl
      exact hquote hc
  · rintro ⟨blanks, text', rfl, hblanks', ⟨quoted, rfl, hstands⟩ | ⟨hhead', hstands⟩⟩
    · refine (takenFrom_quoted (dropWhile_blanks hblanks' ?_) v).mpr hstands
      rintro c hc
      obtain rfl := Option.some.inj hc
      decide
    · refine (takenFrom_bare (dropWhile_blanks hblanks' fun c hc => ?_) ?_ v).mpr hstands
      · exact ⟨(hhead' c hc).1, (hhead' c hc).2.1⟩
      · exact fun hquote => (hhead' 34 hquote).2.2 rfl

section Found

variable {json key rest v : CStr}

theorem propPattern_ne_nil (key : CStr) : propPattern key ≠ [] :=
  List.cons_ne_nil _ _

theorem standsFirst_iff_of_some (h : afterFirst (propPattern key) json = some rest) :
    StandsFirst json key v ↔ Stands v rest := by
  rcases afterFirst_spec (propPattern_ne_nil key) json with
    ⟨before, rest', hafter, hfirst⟩ | ⟨hafter, -⟩
  · obtain rfl : rest = rest' := Option.some.inj (h.symm.trans hafter)
    constructor
    · exact fun hstands => hstands.found before rest hfirst
    · refine fun hstands => ⟨fun before' rest' h' => hfirst.unique h' ▸ hstands, fun hno => ?_⟩
      exact absurd hfirst.text_eq (hno before rest)
  · exact absurd (h.symm.trans hafter) (by simp)

theorem standsFirst_iff_of_none (h : afterFirst (propPattern key) json = none) :
    StandsFirst json key v ↔ v = [] := by
  rcases afterFirst_spec (propPattern_ne_nil key) json with ⟨_, _, hafter, -⟩ | ⟨-, hno⟩
  · exact absurd (h.symm.trans hafter) (by simp)
  · constructor
    · exact fun hstands => hstands.missing hno
    · exact fun hv => ⟨fun before rest h' => absurd h'.text_eq (hno before rest), fun _ => hv⟩

theorem jsonExtractProp_eq_iff (hkey : key.length < 250) :
    jsonExtractProp (some json) key = v ↔ StandsFirst json key v := by
  have hpattern : (34 :: (key ++ [34, 58])).take 255 = propPattern key :=
    List.take_of_length_le (by simp; omega)
  unfold jsonExtractProp
  dsimp only
  rw [hpattern, Option.bind_some]
  cases hafter : afterFirst (propPattern key) json with
  | none =>
      rw [standsFirst_iff_of_none hafter]
      exact eq_comm
  | some rest =>
      rw [standsFirst_iff_of_some hafter]
      exact takenFrom_eq_iff v rest

end Found

/-- A value that has room in the buffer of the result. -/
def fits (v : CStr) : Option CStr :=
  if v.length ≤ valueRoom then some v else none

/-- What is promised of a value: the bytes of a string, the text of a number, `true` or `false`. -/
def promisedValue : Json → Option CStr
  | .str _ value => fits value
  | .num spelling => fits spelling
  | .bool b => some (Json.text (.bool b))
  | _ => none

/-- What is promised for a key of an object; the empty text where the key is not there. -/
def promisedOf (key : CStr) (object : Json) : Option CStr :=
  match object.objGet key with
  | none => some []
  | some x => promisedValue x

/-- What is promised for a text: it has to be an object with distinct names. -/
def promisedProp (json key : CStr) : Option CStr :=
  match Json.read json with
  | some (.obj members) =>
      if (members.map fun m => m.1.2).Nodup then promisedOf key (.obj members) else none
  | _ => none

/-- The look-up gives what is promised. -/
def PropAgrees (json key : CStr) : Prop :=
  ∀ v ∈ promisedProp json key, jsonExtractProp (some json) key = v

/-- What is promised stands behind the first occurrence of the key. -/
def FoundFirst (json key : CStr) : Prop :=
  ∀ v ∈ promisedProp json key, StandsFirst json key v

/-- A nested object has the key as well. -/
def nestedProp : CStr :=
  bytesOf "\x7b\"a\":\x7b\"k\":1\x7d,\"k\":2\x7d"

end Cypher
end CodebaseMemory
