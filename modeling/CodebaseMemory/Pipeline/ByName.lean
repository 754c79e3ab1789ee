import CodebaseMemory.Lib.Distinct
import CodebaseMemory.Pipeline.Registry

/-!
# The index by name

`cbm_registry_add` keeps, for each simple name, the qualified names with it in
the order of their registration.  A qualified name that ends with a dot and a
text has the simple name of that text: the search for the last `.` and the
search for the last `::` both begin anew behind the dot.
-/

namespace CodebaseMemory
namespace Pipeline

open Lib
open Sqlite (CStr bytesOf)

/-- The qualified names of a sequence of registrations, in the order in which they come first. -/
def registeredNames (defs : List (CStr × CStr)) : List CStr :=
  firsts id (defs.map Prod.fst)

variable {defs : List (CStr × CStr)}
variable {qn resolved suffix : CStr}

theorem mem_registeredNames : qn ∈ registeredNames defs ↔ qn ∈ defs.map Prod.fst :=
  mem_firsts_id

theorem registryOf_concat (defs : List (CStr × CStr)) (d : CStr × CStr) :
    registryOf (defs ++ [d]) = registryAdd (registryOf defs) d.1 d.2 := by
  rw [registryOf, List.foldl_append]
  rfl

theorem isSome_lookup_exact (defs : List (CStr × CStr)) (qn : CStr) :
    ((registryOf defs).exact.lookup qn).isSome ↔ qn ∈ defs.map Prod.fst := by
  induction defs using List.reverseRecOn with
  | nil => simp [registryOf, registryNew]
  | append_singleton defs d ih =>
      rw [registryOf_concat, registryAdd, List.map_append, List.mem_append, List.map_singleton,
        List.mem_singleton, ← ih]
      split
      · next hold =>
          constructor
          · exact Or.inl
          · rintro (h | rfl)
            · exact h
            · exact hold
      · by_cases heq : qn = d.1
        · subst heq
          simp
        · rw [AList.lookup_insert_ne heq]
          simp [heq]

theorem storedKey_registryOf (defs : List (CStr × CStr)) (candidate : CStr) :
    storedKey (registryOf defs) candidate =
      if candidate ∈ defs.map Prod.fst then some candidate else none := by
  rw [storedKey]
  exact if_congr (isSome_lookup_exact defs candidate) rfl rfl

theorem lookup_byName (defs : List (CStr × CStr)) (simple : CStr) :
    ((registryOf defs).byName.lookup simple).getD [] =
      (registeredNames defs).filter fun qn => simpleName qn = simple := by
  induction defs using List.reverseRecOn with
  | nil => simp [registryOf, registryNew, registeredNames, firsts]
  | append_singleton defs d ih =>
      have hexact := isSome_lookup_exact defs d.1
      rw [registryOf_concat, registryAdd, registeredNames, List.map_append, List.map_singleton,
        firsts_id_concat, ← registeredNames]
      by_cases hold : d.1 ∈ defs.map Prod.fst
      · rw [if_pos (hexact.mpr hold), if_pos hold]
        exact ih
      · rw [if_neg (fun h => hold (hexact.mp h)), if_neg hold, List.filter_append]
        by_cases heq : simple = simpleName d.1
        · subst heq
          simp [ih]
        · rw [AList.lookup_insert_ne heq, ih]
          simp [Ne.symm heq]

theorem afterColons_append_dot (front text : CStr) :
    afterColons (front ++ dot :: text) =
      (afterColons text).or ((afterColons front).map fun after => after ++ dot :: text) := by
  have hdot : afterColons (dot :: text) = afterColons text := by
    cases text with
    | nil => rfl
    | cons d rest =>
        have hne : ¬ (dot = colon ∧ d = colon) := fun h => absurd h.1 (by decide)
        rw [afterColons, if_neg hne]
  induction front using afterColons.induct with
  | case1 => simpa [afterColons] using hdot
  | case2 c =>
      have hne : ¬ (c = colon ∧ dot = colon) := fun h => absurd h.2 (by decide)
      have hstep : afterColons (c :: dot :: text) = afterColons (dot :: text) := by
        rw [afterColons, if_neg hne]
      rw [List.singleton_append, hstep, hdot, afterColons, Option.map_none, Option.or_none]
  | case3 c d rest hcolons ih =>
      simp only [List.cons_append, afterColons, if_pos hcolons] at ih ⊢
      rw [ih]
      cases afterColons text with
      | some after => rfl
      | none => cases afterColons rest <;> rfl
  | case4 c d rest hcolons ih =>
      simp only [List.cons_append, afterColons, if_neg hcolons] at ih ⊢
      exact ih

/-- What follows the last dot, or the whole text. -/
def lastSegment (qn : CStr) : CStr :=
  match splitLast dot qn with
  | some (_, after) => after
  | none => qn

theorem simpleName_eq (qn : CStr) :
    simpleName qn =
      match afterColons qn with
      | some after => if after.length < (lastSegment qn).length then after else lastSegment qn
      | none => lastSegment qn :=
  rfl

theorem lastSegment_length_le (qn : CStr) : (lastSegment qn).length ≤ qn.length := by
  rw [lastSegment]
  split
  · next before after hcut =>
      rw [(splitLast_eq_some.mp hcut).1, List.length_append, List.length_cons]
      omega
  · exact Nat.le_refl _

theorem lastSegment_append_dot (front text : CStr) :
    lastSegment (front ++ dot :: text) = lastSegment text := by
  cases hcut : splitLast dot text with
  | none =>
      rw [lastSegment, splitLast_append (splitLast_eq_none.mp hcut), lastSegment, hcut]
  | some cut =>
      obtain ⟨before, after⟩ := cut
      obtain ⟨rfl, hafter⟩ := splitLast_eq_some.mp hcut
      have hfull : front ++ dot :: (before ++ dot :: after) =
          (front ++ dot :: before) ++ dot :: after := by simp
      rw [lastSegment, hfull, splitLast_append hafter, lastSegment, splitLast_append hafter]

theorem simpleName_append_dot (front text : CStr) :
    simpleName (front ++ dot :: text) = simpleName text := by
  rw [simpleName_eq, simpleName_eq, afterColons_append_dot, lastSegment_append_dot]
  cases afterColons text with
  | some after => rfl
  | none =>
      cases afterColons front with
      | none => rfl
      | some after =>
          -- a `::` in front of the dot stands before the last segment
          have hle := lastSegment_length_le text
          have hnot : ¬ (after ++ dot :: text).length < (lastSegment text).length := by
            rw [List.length_append, List.length_cons]
            omega
          simp only [Option.none_or, Option.map_some, if_neg hnot]

/-- A name that begins with `resolved.` and ends with `.suffix`, without the two overlapping. -/
def Between (resolved suffix qn : CStr) : Prop :=
  ∃ middle, qn = (resolved ++ [dot]) ++ middle ++ dot :: suffix

theorem between_iff :
    Between resolved suffix qn ↔
      (resolved ++ [dot]).length + (dot :: suffix).length ≤ qn.length ∧
        resolved ++ [dot] <+: qn ∧ dot :: suffix <:+ qn := by
  constructor
  · rintro ⟨middle, rfl⟩
    refine ⟨?_, ?_, List.suffix_append _ _⟩
    · simp only [List.length_append]
      omega
    · rw [List.append_assoc]
      exact List.prefix_append _ _
  · rintro ⟨hlength, ⟨rest, rfl⟩, hsuffix⟩
    rw [@List.length_append _ (resolved ++ [dot]) rest] at hlength
    have hrest : dot :: suffix <:+ rest :=
      List.suffix_of_suffix_length_le hsuffix (List.suffix_append _ _)
        (Nat.le_of_add_le_add_left hlength)
    obtain ⟨middle, rfl⟩ := hrest
    exact ⟨middle, (List.append_assoc _ _ _).symm⟩

theorem resolvedDot_of_lt (h : resolved.length < 511) :
    resolvedDot resolved = resolved ++ [dot] := by
  rw [resolvedDot, List.take_of_length_le]
  rw [List.length_append, List.length_singleton]
  omega

theorem dotSuffix_of_lt (h : suffix.length < 255) : dotSuffix suffix = dot :: suffix := by
  rw [dotSuffix, List.take_of_length_le]
  rw [List.length_cons]
  omega

theorem between_of_suffixCandidate (hresolved : resolved.length < 511)
    (hsuffix : suffix.length < 255)
    (h : suffixCandidate (registryOf defs) resolved suffix = some qn) :
    qn ∈ defs.map Prod.fst ∧ Between resolved suffix qn := by
  rw [suffixCandidate, resolvedDot_of_lt hresolved, dotSuffix_of_lt hsuffix, lookup_byName] at h
  have hmem := List.mem_of_find?_eq_some h
  have htest := List.find?_some h
  exact ⟨mem_registeredNames.mp (List.mem_filter.mp hmem).1,
    between_iff.mpr (of_decide_eq_true htest)⟩

theorem isSome_suffixCandidate (hresolved : resolved.length < 511) (hsuffix : suffix.length < 255)
    (hqn : qn ∈ defs.map Prod.fst) (hbetween : Between resolved suffix qn) :
    (suffixCandidate (registryOf defs) resolved suffix).isSome := by
  have hsimple : simpleName qn = simpleName suffix := by
    obtain ⟨middle, rfl⟩ := hbetween
    exact simpleName_append_dot _ _
  rw [suffixCandidate, resolvedDot_of_lt hresolved, dotSuffix_of_lt hsuffix, lookup_byName,
    List.find?_isSome]
  refine ⟨qn, List.mem_filter.mpr ⟨mem_registeredNames.mpr hqn, decide_eq_true hsimple⟩, ?_⟩
  exact decide_eq_true (between_iff.mp hbetween)

/-- The scan under the simple name of the suffix finds a name exactly if there is one among all
that are registered, and finds such a name. -/
theorem suffixCandidate_exact (defs : List (CStr × CStr)) {resolved suffix : CStr}
    (hresolved : resolved.length < 511) (hsuffix : suffix.length < 255) :
    ((suffixCandidate (registryOf defs) resolved suffix).isSome ↔
        ∃ qn ∈ defs.map Prod.fst, Between resolved suffix qn) ∧
      ∀ qn, suffixCandidate (registryOf defs) resolved suffix = some qn →
        qn ∈ defs.map Prod.fst ∧ Between resolved suffix qn := by
  refine ⟨⟨fun hsome => ?_, fun ⟨qn, hqn, hbetween⟩ => ?_⟩,
    fun qn hscan => between_of_suffixCandidate hresolved hsuffix hscan⟩
  · obtain ⟨qn, hscan⟩ := Option.isSome_iff_exists.mp hsome
    exact ⟨qn, between_of_suffixCandidate hresolved hsuffix hscan⟩
  · exact isSome_suffixCandidate hresolved hsuffix hqn hbetween

/-- `a.lib.M::f` for the module `a` and the callee suffix `M::f`. -/
theorem suffixCandidate_exact_scoped :
    ((suffixCandidate (registryOf [(bytesOf "a.lib.M::f", bytesOf "Function")]) (bytesOf "a")
        (bytesOf "M::f")).isSome ↔
      ∃ qn ∈ [(bytesOf "a.lib.M::f", bytesOf "Function")].map Prod.fst,
        Between (bytesOf "a") (bytesOf "M::f") qn) ∧
      ∀ qn, suffixCandidate (registryOf [(bytesOf "a.lib.M::f", bytesOf "Function")])
          (bytesOf "a") (bytesOf "M::f") = some qn →
        qn ∈ [(bytesOf "a.lib.M::f", bytesOf "Function")].map Prod.fst ∧
          Between (bytesOf "a") (bytesOf "M::f") qn :=
  suffixCandidate_exact [(bytesOf "a.lib.M::f", bytesOf "Function")] (by decide +kernel)
    (by decide +kernel)

end Pipeline
end CodebaseMemory
