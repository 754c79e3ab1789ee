import CodebaseMemory.Sqlite.Record
import Mathlib.Data.List.Sort

/-!
# Path aliases (`src/pipeline/path_alias.c`)

`load_tsconfig_file` from the values it reads out of the JSON text, and
`cbm_path_alias_resolve`.  The order of the entries encodes which is the more
specific one: they are sorted by the length of the prefix, and the first that
matches is used.

Reading aids:
* A member of `paths` is its key and the first element of its array, which is
  `none` where the value is no array, an empty one, or does not begin with a
  text.
* `qsort` sorts, but need not keep the order of equal entries: a loaded map has
  some order that the comparator allows.
* The reading of the file, failed allocations and the warning about the limit of
  256 entries are left out.
-/

namespace CodebaseMemory
namespace Pipeline

open Sqlite (CStr bytesOf)

/-- `cbm_path_alias_t`. -/
structure PathAlias where
  aliasPrefix : CStr
  aliasSuffix : CStr
  targetPrefix : CStr
  targetSuffix : CStr
  hasWildcard : Bool
deriving DecidableEq

/-- `cbm_path_alias_map_t`. -/
structure PathAliasMap where
  entries : List PathAlias
  baseUrl : Option CStr

/-- `'*'` -/
def star : UInt8 := 42

/-- What stands before the first `*` of a pattern. -/
def beforeStar (pattern : CStr) : CStr :=
  pattern.takeWhile (· ≠ star)

/-- What stands behind the first `*` of a pattern, or nothing. -/
def afterStar (pattern : CStr) : CStr :=
  (pattern.dropWhile (· ≠ star)).tail

def resolveTargetRelative (dirPrefix target : CStr) : CStr :=
  let t := if bytesOf "./" <+: target then target.drop 2 else target
  if dirPrefix = [] then t else dirPrefix ++ bytesOf "/" ++ t

/-- The entry of a key of `paths` and its first target. -/
def pathEntry (dirPrefix aliasPattern targetPattern : CStr) : PathAlias :=
  { aliasPrefix := beforeStar aliasPattern
    aliasSuffix := afterStar aliasPattern
    targetPrefix := resolveTargetRelative dirPrefix (beforeStar targetPattern)
    targetSuffix := afterStar targetPattern
    hasWildcard := decide (star ∈ aliasPattern) }

/-- `CBM_PATH_ALIAS_MAX_ENTRIES`. -/
def pathAliasMaxEntries : Nat := 256

/-- The loop over the members of `paths`. -/
def pathEntries (dirPrefix : CStr) (paths : List (CStr × Option CStr)) : List PathAlias :=
  (paths.filterMap fun member => member.2.map (pathEntry dirPrefix member.1)).take
    pathAliasMaxEntries

/-- `base_url` of the map. -/
def mapBaseUrl (dirPrefix : CStr) (baseUrl : Option CStr) : Option CStr :=
  match baseUrl with
  | some url =>
      if url ≠ [] ∧ url ≠ bytesOf "." then some (resolveTargetRelative dirPrefix url)
      else if url = bytesOf "." ∧ dirPrefix ≠ [] then some dirPrefix
      else none
  | none => none

/-- An order of the entries that `cmp_alias_entry_by_specificity` allows. -/
structure SortedEntries (entries sorted : List PathAlias) : Prop where
  perm : sorted.Perm entries
  sorted : sorted.Pairwise fun a b => b.aliasPrefix.length ≤ a.aliasPrefix.length

/-- A map that `load_tsconfig_file` can make. -/
structure LoadedMap (dirPrefix : CStr) (baseUrl : Option CStr) (paths : List (CStr × Option CStr))
    (map : PathAliasMap) : Prop where
  entries : SortedEntries (pathEntries dirPrefix paths) map.entries
  baseUrl_eq : map.baseUrl = mapBaseUrl dirPrefix baseUrl

def stripResolvedExt (path : CStr) : CStr :=
  let last3 := path.drop (path.length - 3)
  let last4 := path.drop (path.length - 4)
  if 3 < path.length ∧ (last3 = bytesOf ".ts" ∨ last3 = bytesOf ".js") then
    path.take (path.length - 3)
  else if 4 < path.length ∧ (last4 = bytesOf ".tsx" ∨ last4 = bytesOf ".jsx") then
    path.take (path.length - 4)
  else path

/-- The text that an entry gives for a module path, if it matches; one round of the loop. -/
def PathAlias.apply (e : PathAlias) (modulePath : CStr) : Option CStr :=
  if e.hasWildcard then
    if modulePath.length < e.aliasPrefix.length + e.aliasSuffix.length then none
    else if ¬ e.aliasPrefix <+: modulePath then none
    else if ¬ e.aliasSuffix <:+ modulePath then none
    else
      let wild := (modulePath.drop e.aliasPrefix.length).take
        (modulePath.length - e.aliasPrefix.length - e.aliasSuffix.length)
      some (e.targetPrefix ++ wild ++ e.targetSuffix)
  else if modulePath = e.aliasPrefix then some e.targetPrefix
  else none

/-- The end of `cbm_path_alias_resolve`, where no entry matches. -/
def baseUrlFallback (baseUrl : Option CStr) (modulePath : CStr) : Option CStr :=
  match baseUrl with
  | some url =>
      if modulePath.head? ≠ some 46 ∧ modulePath.head? ≠ some 64 ∧ 47 ∈ modulePath then
        some (stripResolvedExt (url ++ bytesOf "/" ++ modulePath))
      else none
  | none => none

def cbmPathAliasResolve (map : PathAliasMap) (modulePath : CStr) : Option CStr :=
  match map.entries.findSome? fun e => e.apply modulePath with
  | some text => some (stripResolvedExt text)
  | none => baseUrlFallback map.baseUrl modulePath

/-- The entry at which the loop ends. -/
def usedEntry (entries : List PathAlias) (modulePath : CStr) : Option PathAlias :=
  entries.find? fun e => (e.apply modulePath).isSome

def IsExactFor (modulePath : CStr) (e : PathAlias) : Prop :=
  e.hasWildcard = false ∧ e.aliasPrefix = modulePath

/-- An alias with a wildcard that stands for some part of the module path. -/
def IsWildFor (modulePath : CStr) (e : PathAlias) : Prop :=
  e.hasWildcard = true ∧ ∃ wild, modulePath = e.aliasPrefix ++ wild ++ e.aliasSuffix

/-- An alias for the module path, or else a wildcard with the longest prefix. -/
def MostSpecific (entries : List PathAlias) (modulePath : CStr) (e : PathAlias) : Prop :=
  e ∈ entries ∧
    (IsExactFor modulePath e ∨
      (∀ x ∈ entries, ¬ IsExactFor modulePath x) ∧ IsWildFor modulePath e ∧
        ∀ w ∈ entries, IsWildFor modulePath w → w.aliasPrefix.length ≤ e.aliasPrefix.length)

/-- The target with the text that `*` stands for, which is empty without a wildcard. -/
def targetText (modulePath : CStr) (e : PathAlias) : CStr :=
  e.targetPrefix ++
    (if e.hasWildcard then
      (modulePath.drop e.aliasPrefix.length).take
        (modulePath.length - e.aliasPrefix.length - e.aliasSuffix.length)
    else []) ++ e.targetSuffix

def scriptExtensions : List CStr :=
  [bytesOf ".ts", bytesOf ".js", bytesOf ".tsx", bytesOf ".jsx"]

def withoutExtension (text : CStr) : CStr :=
  match scriptExtensions.find? fun ext => ext <:+ text with
  | some ext => text.take (text.length - ext.length)
  | none => text

section Entry

variable {modulePath : CStr} {e : PathAlias}

theorem apply_of_exact (h : e.hasWildcard = false) :
    e.apply modulePath = if modulePath = e.aliasPrefix then some e.targetPrefix else none := by
  rw [PathAlias.apply, h, if_neg Bool.false_ne_true]

theorem apply_of_wildcard (h : e.hasWildcard = true) :
    e.apply modulePath =
      if e.aliasPrefix.length + e.aliasSuffix.length ≤ modulePath.length ∧
          e.aliasPrefix <+: modulePath ∧ e.aliasSuffix <:+ modulePath then
        some (targetText modulePath e)
      else none := by
  rw [PathAlias.apply, targetText, h, if_pos rfl, if_pos rfl]
  by_cases hlength : modulePath.length < e.aliasPrefix.length + e.aliasSuffix.length
  · rw [if_pos hlength, if_neg fun hfits => absurd hfits.1 (Nat.not_le.mpr hlength)]
  · rw [if_neg hlength]
    by_cases hfront : e.aliasPrefix <+: modulePath
    · rw [if_neg (not_not.mpr hfront)]
      by_cases hback : e.aliasSuffix <:+ modulePath
      · rw [if_neg (not_not.mpr hback), if_pos ⟨Nat.not_lt.mp hlength, hfront, hback⟩]
      · rw [if_pos hback, if_neg fun hfits => hback hfits.2.2]
    · rw [if_pos hfront, if_neg fun hfits => hfront hfits.2.1]

theorem fits_iff : (e.aliasPrefix.length + e.aliasSuffix.length ≤ modulePath.length ∧
      e.aliasPrefix <+: modulePath ∧ e.aliasSuffix <:+ modulePath) ↔
    ∃ wild, modulePath = e.aliasPrefix ++ wild ++ e.aliasSuffix := by
  constructor
  · rintro ⟨hlength, ⟨rest, rfl⟩, hback⟩
    rw [List.length_append] at hlength
    obtain ⟨wild, rfl⟩ := List.suffix_of_suffix_length_le hback
      (List.suffix_append _ _) (by omega)
    exact ⟨wild, (List.append_assoc _ _ _).symm⟩
  · rintro ⟨wild, rfl⟩
    refine ⟨?_, ?_, List.suffix_append _ _⟩
    · simp only [List.length_append]
      omega
    · rw [List.append_assoc]
      exact List.prefix_append _ _

theorem isSome_apply : (e.apply modulePath).isSome ↔
    IsExactFor modulePath e ∨ IsWildFor modulePath e := by
  rw [IsExactFor, IsWildFor]
  cases hwild : e.hasWildcard with
  | false =>
      rw [apply_of_exact hwild]
      by_cases heq : modulePath = e.aliasPrefix
      · simp [heq]
      · simp [heq, Ne.symm heq]
  | true =>
      rw [apply_of_wildcard hwild, ← fits_iff]
      simp

theorem apply_eq_some (h : (e.apply modulePath).isSome) :
    e.apply modulePath =
      some (if e.hasWildcard then targetText modulePath e else e.targetPrefix) := by
  obtain ⟨text, htext⟩ := Option.isSome_iff_exists.mp h
  cases hwild : e.hasWildcard with
  | false =>
      rw [apply_of_exact hwild, if_neg Bool.false_ne_true] at *
      split at htext
      · next heq => rw [if_pos heq]
      · exact absurd htext (by simp)
  | true =>
      rw [apply_of_wildcard hwild, if_pos rfl] at *
      split at htext
      · next hfits => rw [if_pos hfits]
      · exact absurd htext (by simp)

theorem length_aliasPrefix_le (h : IsExactFor modulePath e ∨ IsWildFor modulePath e) :
    e.aliasPrefix.length ≤ modulePath.length := by
  rcases h with ⟨_, heq⟩ | ⟨_, wild, rfl⟩
  · rw [heq]
  · simp only [List.length_append]
    omega

end Entry

section Sorted

variable {entries sorted : List PathAlias} {modulePath : CStr} {e : PathAlias}

theorem exists_sortedEntries (he : e ∈ entries) :
    ∃ front rest, SortedEntries entries (front ++ e :: rest) ∧
      ∀ x ∈ front, e.aliasPrefix.length < x.aliasPrefix.length := by
  let le : PathAlias → PathAlias → Bool :=
    fun a b => decide (b.aliasPrefix.length ≤ a.aliasPrefix.length)
  let others := (entries.erase e).mergeSort le
  let long : PathAlias → Bool := fun x => decide (e.aliasPrefix.length < x.aliasPrefix.length)
  have hothers : others.Pairwise fun a b => b.aliasPrefix.length ≤ a.aliasPrefix.length := by
    have htrans : ∀ a b c, le a b = true → le b c = true → le a c = true :=
      fun a b c hab hbc =>
        decide_eq_true (Nat.le_trans (of_decide_eq_true hbc) (of_decide_eq_true hab))
    have htotal : ∀ a b, (le a b || le b a) = true := fun a b => by
      simpa [le] using Nat.le_total b.aliasPrefix.length a.aliasPrefix.length
    have hsort : others.Pairwise fun a b => le a b = true :=
      List.pairwise_mergeSort htrans htotal (entries.erase e)
    exact hsort.imp fun h => of_decide_eq_true h
  refine ⟨others.filter long, others.filter fun x => !long x, ⟨?_, ?_⟩, ?_⟩
  · have hfilter : (others.filter long ++ others.filter fun x => !long x).Perm others :=
      List.filter_append_perm long others
    exact List.perm_middle.trans
      (((hfilter.trans (List.mergeSort_perm _ _)).cons e).trans (List.perm_cons_erase he).symm)
  · rw [List.pairwise_append, List.pairwise_cons]
    refine ⟨hothers.filter _, ⟨fun x hx => ?_, hothers.filter _⟩, fun a ha b hb => ?_⟩
    · simpa [long] using (List.mem_filter.mp hx).2
    · have hlong : e.aliasPrefix.length < a.aliasPrefix.length :=
        of_decide_eq_true (List.mem_filter.mp ha).2
      rcases List.mem_cons.mp hb with rfl | hrest
      · exact Nat.le_of_lt hlong
      · have hshort : b.aliasPrefix.length ≤ e.aliasPrefix.length := by
          simpa [long] using (List.mem_filter.mp hrest).2
        omega
  · exact fun x hx => of_decide_eq_true (List.mem_filter.mp hx).2

theorem usedEntry_first (hsorted : SortedEntries entries sorted)
    (hused : usedEntry sorted modulePath = some e) :
    e ∈ entries ∧ (e.apply modulePath).isSome ∧
      ∀ x ∈ entries, (x.apply modulePath).isSome →
        x.aliasPrefix.length ≤ e.aliasPrefix.length := by
  obtain ⟨happly, front, rest, rfl, hfront⟩ := List.find?_eq_some_iff_append.mp hused
  refine ⟨hsorted.perm.mem_iff.mp (by simp), happly, fun x hx hmatch => ?_⟩
  rcases List.mem_append.mp (hsorted.perm.mem_iff.mpr hx) with hbefore | hafter
  · have hnot := hfront x hbefore
    rw [hmatch] at hnot
    exact absurd hnot (by simp)
  · rcases List.mem_cons.mp hafter with rfl | hrest
    · exact Nat.le_refl _
    · have hpair := (List.pairwise_append.mp hsorted.sorted).2.1
      exact (List.pairwise_cons.mp hpair).1 x hrest

theorem usedEntry_middle {front rest : List PathAlias} (happly : (e.apply modulePath).isSome)
    (hfront : ∀ x ∈ front, ¬ (x.apply modulePath).isSome) :
    usedEntry (front ++ e :: rest) modulePath = some e := by
  refine List.find?_eq_some_iff_append.mpr ⟨happly, front, rest, rfl, fun x hx => ?_⟩
  simpa using hfront x hx

theorem findSome?_apply (entries : List PathAlias) (modulePath : CStr) :
    (entries.findSome? fun e => e.apply modulePath) =
      (usedEntry entries modulePath).map fun e =>
        if e.hasWildcard then targetText modulePath e else e.targetPrefix := by
  induction entries with
  | nil => rfl
  | cons x rest ih =>
      rw [List.findSome?_cons, usedEntry, List.find?_cons]
      cases hx : x.apply modulePath with
      | none => exact ih
      | some text =>
          have hsome : (x.apply modulePath).isSome := by rw [hx]; rfl
          rw [apply_eq_some hsome] at hx
          exact hx.symm ▸ rfl

theorem mostSpecific_of_exact {x : PathAlias} (hexact : IsExactFor modulePath x)
    (he : e ∈ entries) (happly : IsExactFor modulePath e ∨ IsWildFor modulePath e)
    (hlength : x.aliasPrefix.length ≤ e.aliasPrefix.length)
    (htie : ∀ w ∈ entries, IsWildFor modulePath w → w.aliasPrefix ≠ modulePath) :
    MostSpecific entries modulePath e := by
  refine ⟨he, Or.inl (happly.resolve_right fun hwild => ?_)⟩
  obtain ⟨_, wild, hpath⟩ := hwild
  refine htie e he ⟨‹_›, wild, hpath⟩ ?_
  have hfront : e.aliasPrefix <+: modulePath := by
    rw [hpath, List.append_assoc]
    exact List.prefix_append _ _
  exact hfront.eq_of_length_le (hexact.2 ▸ hlength)

end Sorted

theorem length_scriptExtensions :
    (bytesOf ".ts").length = 3 ∧ (bytesOf ".js").length = 3 ∧ (bytesOf ".tsx").length = 4 ∧
      (bytesOf ".jsx").length = 4 := by
  decide +kernel

theorem withoutExtension_eq (text : CStr) :
    withoutExtension text =
      if bytesOf ".ts" <:+ text ∨ bytesOf ".js" <:+ text then text.take (text.length - 3)
      else if bytesOf ".tsx" <:+ text ∨ bytesOf ".jsx" <:+ text then text.take (text.length - 4)
      else text := by
  obtain ⟨hts, hjs, htsx, hjsx⟩ := length_scriptExtensions
  rw [withoutExtension, scriptExtensions]
  by_cases h1 : bytesOf ".ts" <:+ text
  · simp [h1, hts]
  · by_cases h2 : bytesOf ".js" <:+ text
    · simp [h1, h2, hjs]
    · by_cases h3 : bytesOf ".tsx" <:+ text
      · simp [h1, h2, h3, htsx]
      · by_cases h4 : bytesOf ".jsx" <:+ text
        · simp [h1, h2, h3, h4, hjsx]
        · simp [h1, h2, h3, h4]

theorem stripResolvedExt_eq_iff (text : CStr) :
    stripResolvedExt text = withoutExtension text ↔ text ∉ scriptExtensions := by
  obtain ⟨hts, hjs, htsx, hjsx⟩ := length_scriptExtensions
  constructor
  · intro heq hmem
    rw [scriptExtensions] at hmem
    simp only [List.mem_cons, List.not_mem_nil, or_false] at hmem
    rcases hmem with rfl | rfl | rfl | rfl
    · exact absurd heq (by decide +kernel)
    · exact absurd heq (by decide +kernel)
    · exact absurd heq (by decide +kernel)
    · exact absurd heq (by decide +kernel)
  · intro hnot
    have hne : ∀ ext ∈ scriptExtensions, ext <:+ text → ext.length < text.length := by
      intro ext hext hsuffix
      refine Nat.lt_of_le_of_ne hsuffix.length_le fun hlength => hnot ?_
      rwa [← hsuffix.eq_of_length hlength]
    have hdrop : ∀ ext : CStr, text.drop (text.length - ext.length) = ext ↔ ext <:+ text :=
      fun ext => eq_comm.trans List.suffix_iff_eq_drop.symm
    have hthree : (3 < text.length ∧ (text.drop (text.length - 3) = bytesOf ".ts" ∨
          text.drop (text.length - 3) = bytesOf ".js")) ↔
        bytesOf ".ts" <:+ text ∨ bytesOf ".js" <:+ text := by
      have h1 := hdrop (bytesOf ".ts")
      have h2 := hdrop (bytesOf ".js")
      rw [hts] at h1
      rw [hjs] at h2
      rw [h1, h2, and_iff_right_iff_imp]
      rintro (h | h)
      · exact hts ▸ hne _ (by simp [scriptExtensions]) h
      · exact hjs ▸ hne _ (by simp [scriptExtensions]) h
    have hfour : (4 < text.length ∧ (text.drop (text.length - 4) = bytesOf ".tsx" ∨
          text.drop (text.length - 4) = bytesOf ".jsx")) ↔
        bytesOf ".tsx" <:+ text ∨ bytesOf ".jsx" <:+ text := by
      have h1 := hdrop (bytesOf ".tsx")
      have h2 := hdrop (bytesOf ".jsx")
      rw [htsx] at h1
      rw [hjsx] at h2
      rw [h1, h2, and_iff_right_iff_imp]
      rintro (h | h)
      · exact htsx ▸ hne _ (by simp [scriptExtensions]) h
      · exact hjsx ▸ hne _ (by simp [scriptExtensions]) h
    rw [withoutExtension_eq, stripResolvedExt]
    simp only [hthree, hfour]

section Resolve

variable {dirPrefix : CStr} {baseUrl : Option CStr} {paths : List (CStr × Option CStr)}
variable {modulePath : CStr}

/-- The most specific entry is used, and its target without the extension is the result. -/
def UsesMostSpecific (entries : List PathAlias) (map : PathAliasMap) (modulePath : CStr) : Prop :=
  (∃ e ∈ entries, IsExactFor modulePath e ∨ IsWildFor modulePath e) →
    ∃ e, MostSpecific entries modulePath e ∧ usedEntry map.entries modulePath = some e ∧
      cbmPathAliasResolve map modulePath = some (withoutExtension (targetText modulePath e))

/-- Whether the text that the code takes from an entry is its target, apart from the extension. -/
def KeepsTarget (modulePath : CStr) (e : PathAlias) : Prop :=
  if e.hasWildcard then targetText modulePath e ∉ scriptExtensions
  else stripResolvedExt e.targetPrefix = withoutExtension (e.targetPrefix ++ e.targetSuffix)

theorem keepsTarget_iff (e : PathAlias) :
    KeepsTarget modulePath e ↔
      stripResolvedExt (if e.hasWildcard then targetText modulePath e else e.targetPrefix) =
        withoutExtension (targetText modulePath e) := by
  rw [KeepsTarget]
  cases hwild : e.hasWildcard with
  | true =>
      rw [if_pos rfl, if_pos rfl]
      exact (stripResolvedExt_eq_iff _).symm
  | false =>
      rw [if_neg Bool.false_ne_true, if_neg Bool.false_ne_true, targetText, hwild,
        if_neg Bool.false_ne_true, List.append_nil]

theorem cbmPathAliasResolve_of_used {map : PathAliasMap} {e : PathAlias}
    (h : usedEntry map.entries modulePath = some e) :
    cbmPathAliasResolve map modulePath =
      some (stripResolvedExt
        (if e.hasWildcard then targetText modulePath e else e.targetPrefix)) := by
  rw [cbmPathAliasResolve, findSome?_apply, h]
  rfl

theorem usesMostSpecific_of_noTie {map : PathAliasMap} {entries : List PathAlias}
    (hsorted : SortedEntries entries map.entries)
    (htie : (∃ x ∈ entries, IsExactFor modulePath x) →
      ∀ w ∈ entries, IsWildFor modulePath w → w.aliasPrefix ≠ modulePath)
    (hkeeps : ∀ e, MostSpecific entries modulePath e → KeepsTarget modulePath e) :
    UsesMostSpecific entries map modulePath := by
  rintro ⟨y, hy, hmatch⟩
  have hsome : (usedEntry map.entries modulePath).isSome := by
    rw [usedEntry, List.find?_isSome]
    exact ⟨y, hsorted.perm.mem_iff.mpr hy, isSome_apply.mpr hmatch⟩
  obtain ⟨e, hused⟩ := Option.isSome_iff_exists.mp hsome
  obtain ⟨he, happly, hlongest⟩ := usedEntry_first hsorted hused
  have hmost : MostSpecific entries modulePath e := by
    by_cases hexact : ∃ x ∈ entries, IsExactFor modulePath x
    · obtain ⟨x, hx, hxexact⟩ := hexact
      exact mostSpecific_of_exact hxexact he (isSome_apply.mp happly)
        (hlongest x hx (isSome_apply.mpr (Or.inl hxexact))) (htie ⟨x, hx, hxexact⟩)
    · have hnone : ∀ x ∈ entries, ¬ IsExactFor modulePath x :=
        fun x hx hxexact => hexact ⟨x, hx, hxexact⟩
      refine ⟨he, Or.inr ⟨hnone, (isSome_apply.mp happly).resolve_left (hnone e he),
        fun w hw hwild => hlongest w hw (isSome_apply.mpr (Or.inr hwild))⟩⟩
  refine ⟨e, hmost, hused, ?_⟩
  rw [cbmPathAliasResolve_of_used hused, (keepsTarget_iff e).mp (hkeeps e hmost)]

theorem exists_loadedMap_used (dirPrefix : CStr) (baseUrl : Option CStr)
    (paths : List (CStr × Option CStr)) {e : PathAlias} (he : e ∈ pathEntries dirPrefix paths)
    (happly : (e.apply modulePath).isSome)
    (hlongest : ∀ x ∈ pathEntries dirPrefix paths, (x.apply modulePath).isSome →
      x.aliasPrefix.length ≤ e.aliasPrefix.length) :
    ∃ map, LoadedMap dirPrefix baseUrl paths map ∧ usedEntry map.entries modulePath = some e := by
  obtain ⟨front, rest, hsorted, hlong⟩ := exists_sortedEntries he
  refine ⟨⟨front ++ e :: rest, mapBaseUrl dirPrefix baseUrl⟩, ⟨hsorted, rfl⟩,
    usedEntry_middle happly fun x hx hmatch => ?_⟩
  have hmem := hsorted.perm.mem_iff.mp (List.mem_append_left _ hx)
  exact absurd (hlong x hx) (Nat.not_lt.mpr (hlongest x hmem hmatch))

/-- Whatever order `qsort` gives, the most specific entry is used and its target returned, exactly
if no wildcard alias has the module path itself as its prefix where there is an alias for it, and
the entries that can be used keep their targets. -/
theorem most_specific_iff (dirPrefix : CStr) (baseUrl : Option CStr)
    (paths : List (CStr × Option CStr)) (modulePath : CStr) :
    (∀ map, LoadedMap dirPrefix baseUrl paths map →
        UsesMostSpecific (pathEntries dirPrefix paths) map modulePath) ↔
      ((∃ x ∈ pathEntries dirPrefix paths, IsExactFor modulePath x) →
          ∀ w ∈ pathEntries dirPrefix paths, IsWildFor modulePath w →
            w.aliasPrefix ≠ modulePath) ∧
        ∀ e, MostSpecific (pathEntries dirPrefix paths) modulePath e →
          KeepsTarget modulePath e := by
  refine ⟨fun hall => ⟨?_, fun e hmost => ?_⟩, fun ⟨htie, hkeeps⟩ map hmap =>
    usesMostSpecific_of_noTie hmap.entries htie hkeeps⟩
  · -- the wildcard can stand in front of the alias for the module path
    rintro ⟨x, hx, hexact⟩ w hw hwild hfront
    obtain ⟨map, hmap, hused⟩ := exists_loadedMap_used dirPrefix baseUrl paths hw
      (isSome_apply.mpr (Or.inr hwild)) fun y _ hy => by
        rw [hfront]
        exact length_aliasPrefix_le (isSome_apply.mp hy)
    obtain ⟨e, ⟨_, hmost⟩, he, _⟩ := hall map hmap ⟨x, hx, Or.inl hexact⟩
    obtain rfl : w = e := Option.some.inj (hused.symm.trans he)
    rcases hmost with ⟨hfalse, _⟩ | ⟨hnone, _⟩
    · exact absurd (hfalse.symm.trans hwild.1) Bool.false_ne_true
    · exact hnone x hx hexact
  · obtain ⟨he, hkind⟩ := hmost
    have hmatch : IsExactFor modulePath e ∨ IsWildFor modulePath e :=
      hkind.imp_right fun hwild => hwild.2.1
    obtain ⟨map, hmap, hused⟩ := exists_loadedMap_used dirPrefix baseUrl paths he
      (isSome_apply.mpr hmatch) fun y hy hmatchy => by
        rcases hkind with hexact | ⟨hnone, _, hlongest⟩
        · rw [hexact.2]
          exact length_aliasPrefix_le (isSome_apply.mp hmatchy)
        · exact hlongest y hy ((isSome_apply.mp hmatchy).resolve_left (hnone y hy))
    obtain ⟨e', _, he', hres⟩ := hall map hmap ⟨e, he, hmatch⟩
    obtain rfl : e = e' := Option.some.inj (hused.symm.trans he')
    rw [cbmPathAliasResolve_of_used hused] at hres
    exact (keepsTarget_iff e).mpr (Option.some.inj hres)

end Resolve

/-- The aliases `@app` and `@app*`. -/
def appPaths : List (CStr × Option CStr) :=
  [(bytesOf "@app*", some (bytesOf "lib/*")), (bytesOf "@app", some (bytesOf "src/app"))]

/-- In the order of the file, which is sorted, `@app` goes to the wildcard. -/
theorem not_most_specific :
    ¬ ∀ map, LoadedMap [] none appPaths map →
        UsesMostSpecific (pathEntries [] appPaths) map (bytesOf "@app") := by
  intro hall
  have hmap : LoadedMap [] none appPaths ⟨pathEntries [] appPaths, none⟩ :=
    ⟨⟨List.Perm.refl _, by decide +kernel⟩, rfl⟩
  have hexact : IsExactFor (bytesOf "@app") (pathEntry [] (bytesOf "@app") (bytesOf "src/app")) := by
    unfold IsExactFor
    decide +kernel
  have hmem : pathEntry [] (bytesOf "@app") (bytesOf "src/app") ∈ pathEntries [] appPaths := by
    decide +kernel
  obtain ⟨e, ⟨_, hmost⟩, hused, _⟩ := hall _ hmap ⟨_, hmem, Or.inl hexact⟩
  have hfirst : usedEntry (pathEntries [] appPaths) (bytesOf "@app") =
      some (pathEntry [] (bytesOf "@app*") (bytesOf "lib/*")) := by
    decide +kernel
  have hwild : (pathEntry [] (bytesOf "@app*") (bytesOf "lib/*")).hasWildcard = true := by
    decide +kernel
  obtain rfl : pathEntry [] (bytesOf "@app*") (bytesOf "lib/*") = e :=
    Option.some.inj (hfirst.symm.trans hused)
  rcases hmost with ⟨hfalse, _⟩ | ⟨hnone, _⟩
  · exact absurd (hfalse.symm.trans hwild) Bool.false_ne_true
  · exact hnone _ hmem hexact

end Pipeline
end CodebaseMemory
