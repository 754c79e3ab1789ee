import CodebaseMemory.Pipeline.Fqn
import Mathlib.Data.List.Chain
import Mathlib.Data.List.Infix

/-!
# Project names (`src/pipeline/fqn.c`, `src/foundation/str_util.c`)

`cbm_project_name_from_path` derives the name of a project from its path, and
`cbm_validate_project_name` decides whether a name may be used.  A failed allocation is
left out.
-/

namespace CodebaseMemory
namespace Pipeline

open Sqlite (CStr bytesOf)

section ProjectName

/-- `'-'` -/
def dash : UInt8 := 45

/-- `'_'` -/
def underscore : UInt8 := 95

/-- A letter or a digit. -/
def isAlnum (c : UInt8) : Bool :=
  (97 ≤ c && c ≤ 122) || (65 ≤ c && c ≤ 90) || (48 ≤ c && c ≤ 57)

/-- The characters of a name. -/
def isSafe (c : UInt8) : Bool :=
  isAlnum c || c == dot || c == underscore || c == dash

def cbmValidateProjectName (name : CStr) : Bool :=
  if name = [] then false
  else if name = [dot, dot] ∨ [dot, dot] <:+: name then false
  else if slash ∈ name ∨ backslash ∈ name then false
  else if name.head? = some dot then false
  else name.all fun c => isAlnum c || c == dash || c == underscore || c == dot

/-- The loop that collapses dashes and dots; `prev` is the character before. -/
def collapse : UInt8 → CStr → CStr
  | _, [] => []
  | prev, c :: rest =>
      if (c = dash ∧ prev = dash) ∨ (c = dot ∧ prev = dot) then collapse prev rest
      else c :: collapse c rest

def cbmProjectNameFromPath (absPath : Option CStr) : CStr :=
  match absPath with
  | none => bytesOf "root"
  | some [] => bytesOf "root"
  | some absPath =>
      let path := cbmNormalizePathSep absPath
      let path := path.map fun c => if isSafe c then c else dash
      let path := collapse 0 path
      let start := path.dropWhile fun c => c == dash || c == dot
      let start := start.rdropWhile (· == dash)
      if start = [] then bytesOf "root" else start

/-- No dash stands behind a dash, and no dot behind a dot. -/
def Apart (a b : UInt8) : Prop :=
  ¬ ((b = dash ∧ a = dash) ∨ (b = dot ∧ a = dot))

instance : DecidableRel Apart := fun a b =>
  inferInstanceAs (Decidable (¬ ((b = dash ∧ a = dash) ∨ (b = dot ∧ a = dot))))

theorem isChain_collapse (prev : UInt8) (path : CStr) :
    (prev :: collapse prev path).IsChain Apart := by
  induction path generalizing prev with
  | nil => exact List.isChain_singleton prev
  | cons c rest ih =>
      rw [collapse]
      split
      · exact ih prev
      · next h => exact List.isChain_cons_cons.mpr ⟨h, ih c⟩

theorem collapse_of_isChain {prev : UInt8} {path : CStr}
    (h : (prev :: path).IsChain Apart) : collapse prev path = path := by
  induction path generalizing prev with
  | nil => rfl
  | cons c rest ih =>
      obtain ⟨happart, hrest⟩ := List.isChain_cons_cons.mp h
      rw [collapse, if_neg happart, ih hrest]

theorem collapse_sublist (prev : UInt8) (path : CStr) : (collapse prev path).Sublist path := by
  induction path generalizing prev with
  | nil => exact List.Sublist.refl _
  | cons c rest ih =>
      rw [collapse]
      split
      · exact (ih prev).cons c
      · exact (ih c).cons_cons c

/-- What a derived name looks like. -/
structure IsName (name : CStr) : Prop where
  nonempty : name ≠ []
  safe : ∀ c ∈ name, isSafe c = true
  apart : name.IsChain Apart
  head : ∀ c ∈ name.head?, c ≠ dash ∧ c ≠ dot
  last : ∀ c ∈ name.getLast?, c ≠ dash

theorem isName_root : IsName (bytesOf "root") := by
  refine ⟨by decide, List.all_eq_true.mp (by decide), by decide, fun c hc => ?_, fun c hc => ?_⟩
  · obtain rfl : 114 = c := Option.mem_some.mp hc
    decide
  · obtain rfl : 116 = c := Option.mem_some.mp hc
    decide

theorem IsName.valid {name : CStr} (h : IsName name) : cbmValidateProjectName name = true := by
  have hunsafe : ∀ c, isSafe c = false → c ∉ name := fun c hc hmem => by
    rw [h.safe c hmem] at hc
    exact absurd hc (by simp)
  have hdots : ¬ [dot, dot] <:+: name := fun hinfix => by
    obtain ⟨front, back, hsplit⟩ := hinfix
    have hchain := (hsplit ▸ h.apart).left_of_append.right_of_append
    rw [List.isChain_pair] at hchain
    exact hchain (Or.inr ⟨rfl, rfl⟩)
  have hhead : name.head? ≠ some dot := fun hdot => (h.head dot hdot).2 rfl
  rw [cbmValidateProjectName, if_neg h.nonempty, if_neg, if_neg, if_neg hhead, List.all_eq_true]
  · intro c hc
    have hsafe := h.safe c hc
    simp only [isSafe, Bool.or_eq_true] at hsafe ⊢
    tauto
  · rintro (hslash | hslash)
    · exact hunsafe slash (by decide) hslash
    · exact hunsafe backslash (by decide) hslash
  · rintro (rfl | hinfix)
    · exact hdots (List.infix_refl _)
    · exact hdots hinfix

theorem cbmNormalizePathSep_of_safe {path : CStr} (h : ∀ c ∈ path, isSafe c = true) :
    cbmNormalizePathSep path = path := by
  have hmap : (path.map fun c => if c = backslash then slash else c) = path := by
    conv_rhs => rw [← List.map_id path]
    refine List.map_congr_left fun c hc => if_neg ?_
    rintro rfl
    exact absurd (h backslash hc) (by decide)
  rw [cbmNormalizePathSep, hmap]
  match path, h with
  | [], _ => rfl
  | [_], _ => rfl
  | x :: y :: rest, h =>
      rw [cbmCanonicalizeDrive, if_neg]
      rintro ⟨-, -, rfl, -⟩
      exact absurd (h 58 (by simp)) (by decide)

theorem IsName.derives {name : CStr} (h : IsName name) :
    cbmProjectNameFromPath (some name) = name := by
  have hsafe : (name.map fun c => if isSafe c then c else dash) = name := by
    conv_rhs => rw [← List.map_id name]
    exact List.map_congr_left fun c hc => if_pos (h.safe c hc)
  have hcollapse : collapse 0 name = name := by
    refine collapse_of_isChain (List.isChain_cons.mpr ⟨fun c _ => ?_, h.apart⟩)
    rintro (⟨-, hzero⟩ | ⟨-, hzero⟩)
    · exact absurd hzero (by decide)
    · exact absurd hzero (by decide)
  have hdrop : (name.dropWhile fun c => c == dash || c == dot) = name := by
    rw [List.dropWhile_eq_self_iff]
    intro hpos
    have hhead := h.head name[0] (by
      rw [List.head?_eq_getElem?, List.getElem?_eq_getElem hpos]
      exact Option.mem_some_self _)
    simp [hhead.1, hhead.2]
  have hrdrop : name.rdropWhile (· == dash) = name := by
    rw [List.rdropWhile_eq_self_iff]
    intro hne
    have hlast := h.last (name.getLast hne) (List.getLast?_eq_getLast_of_ne_nil hne)
    simpa using hlast
  obtain ⟨c, rest, rfl⟩ := List.exists_cons_of_ne_nil h.nonempty
  rw [cbmProjectNameFromPath, cbmNormalizePathSep_of_safe h.safe, hsafe, hcollapse, hdrop, hrdrop, if_neg h.nonempty]
  exact List.cons_ne_nil c rest

theorem isName_trim {path : CStr} (hsafe : ∀ c ∈ path, isSafe c = true)
    (hne : ((collapse 0 path).dropWhile fun c => c == dash || c == dot).rdropWhile (· == dash) ≠
      []) :
    IsName (((collapse 0 path).dropWhile fun c => c == dash || c == dot).rdropWhile
      (· == dash)) := by
  have hfront := List.rdropWhile_prefix (· == dash)
    ((collapse 0 path).dropWhile fun c => c == dash || c == dot)
  have hsuffix := List.dropWhile_suffix (l := collapse 0 path) fun c => c == dash || c == dot
  refine ⟨hne, fun c hc => ?_, ?_, fun c hc => ?_, fun c hc => ?_⟩
  · exact hsafe c ((collapse_sublist 0 path).mem (hsuffix.mem (hfront.mem hc)))
  · obtain ⟨front, back, hsplit⟩ := hfront.isInfix.trans hsuffix.isInfix
    have hchain := (List.isChain_cons.mp (isChain_collapse 0 path)).2
    exact (hsplit ▸ hchain).left_of_append.right_of_append
  · -- the first character is that of what the beginning is trimmed to
    obtain ⟨back, hback⟩ := hfront
    rw [← List.head?_append_of_ne_nil _ hne, hback] at hc
    have hnot := List.head?_dropWhile_not (fun c => c == dash || c == dot) (collapse 0 path)
    rw [hc] at hnot
    simpa [not_or] using hnot
  · rw [List.getLast?_eq_getLast_of_ne_nil hne] at hc
    have hnot := List.rdropWhile_last_not (· == dash)
      ((collapse 0 path).dropWhile fun c => c == dash || c == dot) hne
    rw [Option.mem_some.mp hc] at hnot
    simpa using hnot

theorem isName_of_path (absPath : Option CStr) : IsName (cbmProjectNameFromPath absPath) := by
  match absPath with
  | none => exact isName_root
  | some [] => exact isName_root
  | some (x :: path) =>
      rw [cbmProjectNameFromPath.eq_3 _ (List.cons_ne_nil x path)]
      split
      · exact isName_root
      · next hne =>
          refine isName_trim (fun c hc => ?_) hne
          obtain ⟨d, -, rfl⟩ := List.mem_map.mp hc
          by_cases hd : isSafe d = true
          · rw [if_pos hd]
            exact hd
          · rw [if_neg hd]
            decide

/-- Derived names are valid, and derive themselves. -/
theorem projectName_valid (absPath : Option CStr) :
    cbmValidateProjectName (cbmProjectNameFromPath absPath) = true ∧
      cbmProjectNameFromPath (some (cbmProjectNameFromPath absPath)) =
        cbmProjectNameFromPath absPath :=
  ⟨(isName_of_path absPath).valid, (isName_of_path absPath).derives⟩

end ProjectName

end Pipeline
end CodebaseMemory
