import CodebaseMemory.CrossRepo.Tables
import CodebaseMemory.Lib.JsonText

/-!
# The JSON functions on compact objects

A model of SQLite's JSON functions on texts of RFC 8259, where a patch names all members of the
object.  It is lawful (`strictColumns_lawful`): an object of strings without escapes reads
back as the object (`read_objectText`).
-/

namespace CodebaseMemory
namespace CrossRepo

open Lib
open Sqlite (CStr bytesOf)
open GraphBuffer

def stringMember (text name : CStr) : Option CStr :=
  match (Json.read text).bind (Json.objGet name) with
  | some (.str _ value) => some value
  | _ => none

/-- SQLite on texts of RFC 8259; a patch replaces the object. -/
def strictColumns : JsonColumns where
  accepts s := (Json.read s).isSome
  patch _ new := some new
  member := stringMember

/-- The object that a compact text spells. -/
def plainObject (ms : List (CStr × CStr)) : Json :=
  .obj (ms.map fun m => ((m.1, m.1), .str m.2 m.2))

theorem escape_plain {s : CStr} (h : Plain s) : Json.escape s = s := by
  induction s with
  | nil => rfl
  | cons b s ih =>
      obtain ⟨hle, h34, h92⟩ := h b List.mem_cons_self
      have hctl : ∀ c : UInt8, c < 32 → b ≠ c := by
        rintro c hc rfl
        exact absurd hc (UInt8.not_lt.mpr hle)
      have hone : Json.escapeByte b = [b] := by
        rw [Json.escapeByte, if_neg h34, if_neg h92, if_neg (hctl 8 (by decide)),
          if_neg (hctl 9 (by decide)), if_neg (hctl 10 (by decide)),
          if_neg (hctl 12 (by decide)), if_neg (hctl 13 (by decide)),
          if_neg (UInt8.not_lt.mpr hle)]
      rw [Json.escape, List.flatMap_cons, hone]
      exact congrArg (b :: ·) (ih fun c hc => h c (List.mem_cons_of_mem b hc))

theorem isSpelling_plain {s : CStr} (h : Plain s) : Json.IsSpelling (s, s) := by
  have hs := Json.isSpelling_escape s
  rwa [escape_plain h] at hs

theorem text_plainObject (ms : List (CStr × CStr)) : (plainObject ms).text = objectText ms := by
  have hmembers : ∀ ms : List (CStr × CStr),
      Json.membersText (ms.map fun m => ((m.1, m.1), .str m.2 m.2)) =
        [44].intercalate (ms.map memberText) := by
    intro ms
    induction ms with
    | nil => rfl
    | cons m ms ih =>
        rw [List.map_cons, Json.membersText_cons, ih, List.map_cons]
        cases ms <;> simp [memberText, Json.quoted, Json.text, List.intercalate]
  rw [plainObject, Json.text, hmembers, objectText]

theorem read_objectText {ms : List (CStr × CStr)} (h : PlainMembers ms) :
    Json.read (objectText ms) = some (plainObject ms) := by
  rw [← text_plainObject]
  refine Json.read_text (.obj ?_ ?_)
  · intro m hm
    obtain ⟨x, hx, rfl⟩ := List.mem_map.mp hm
    exact isSpelling_plain (h.names x hx)
  · intro m hm
    obtain ⟨x, hx, rfl⟩ := List.mem_map.mp hm
    exact .str (isSpelling_plain (h.values x hx))

theorem stringMember_objectText {ms : List (CStr × CStr)} (h : PlainMembers ms) {m : CStr × CStr}
    (hm : m ∈ ms) : stringMember (objectText ms) m.1 = some m.2 := by
  have hfind : ms.find? (fun x => x.1 = m.1) = some m := by
    have hsome : (ms.find? fun x => x.1 = m.1).isSome := by
      rw [List.find?_isSome]
      exact ⟨m, hm, decide_eq_true rfl⟩
    obtain ⟨x, hx⟩ := Option.isSome_iff_exists.mp hsome
    have hname := List.find?_some hx
    rw [decide_eq_true_iff] at hname
    rw [hx, List.inj_on_of_nodup_map h.nodup (List.mem_of_find?_eq_some hx) hm hname]
  rw [stringMember, read_objectText h, Option.bind_some, plainObject, Json.objGet,
    List.find?_map]
  have hcomp : ((fun x : (CStr × CStr) × Json => decide (x.1.2 = m.1)) ∘
      fun x : CStr × CStr => ((x.1, x.1), Json.str x.2 x.2)) = fun x => decide (x.1 = m.1) := rfl
  rw [hcomp, hfind]
  rfl

theorem strictColumns_lawful : strictColumns.Lawful where
  accepts := fun ms h => by
    change (Json.read (objectText ms)).isSome = true
    rw [read_objectText h]
    rfl
  member := fun ms h m hm => stringMember_objectText h hm
  patch := fun old ms _ h => by
    refine ⟨objectText ms, rfl, ?_, fun m hm => stringMember_objectText h hm⟩
    change (Json.read (objectText ms)).isSome = true
    rw [read_objectText h]
    rfl

end CrossRepo
end CodebaseMemory
