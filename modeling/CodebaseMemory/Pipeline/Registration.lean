import CodebaseMemory.Pipeline.ByName
import CodebaseMemory.Pipeline.Caches

/-!
# The order of registration

Two registries that were filled with the same definitions in different orders
have the same names in their exact table, and under each simple name the same
candidates in another order.  The limit of 256 candidates is checked before the
filter with its array of 256, so the filter never cuts.
-/

namespace CodebaseMemory
namespace Pipeline

open Lib
open Sqlite (CStr bytesOf)

section Best

variable (moduleQn : CStr)

/-- A candidate with the highest score. -/
def IsBest (candidates : List CStr) (qn : CStr) : Prop :=
  qn ∈ candidates ∧
    ∀ other ∈ candidates, candidateScore other moduleQn ≤ candidateScore qn moduleQn

theorem candidateScore_nonneg (candidate : CStr) : 0 ≤ candidateScore candidate moduleQn := by
  rw [candidateScore]
  split <;> omega

theorem bestByImportDistance_spec (candidates : List CStr) (hne : candidates ≠ []) :
    ∃ qn, bestByImportDistance candidates moduleQn = some qn ∧ IsBest moduleQn candidates qn := by
  have hfold : ∀ l : List CStr, l ≠ [] →
      ∃ qn, l.foldl (fun best candidate =>
          let score := candidateScore candidate moduleQn
          if best.2 < score then (some candidate, score) else best)
          ((none, -1) : Option CStr × Int) = (some qn, candidateScore qn moduleQn) ∧
        IsBest moduleQn l qn := by
    intro l
    induction l using List.reverseRecOn with
    | nil => exact fun h => absurd rfl h
    | append_singleton l candidate ih =>
        intro _
        rw [List.foldl_append, List.foldl_cons, List.foldl_nil]
        rcases List.eq_nil_or_concat l with rfl | hcons
        · have hpos : (-1 : Int) < candidateScore candidate moduleQn := by
            have hnonneg := candidateScore_nonneg moduleQn candidate
            omega
          refine ⟨candidate, if_pos hpos, List.mem_singleton_self _, fun other hother => ?_⟩
          rw [List.mem_singleton.mp hother]
        · have hl : l ≠ [] := by
            obtain ⟨front, last, rfl⟩ := hcons
            simp
          obtain ⟨qn, hqn, hmem, hmax⟩ := ih hl
          rw [hqn]
          by_cases hlt : candidateScore qn moduleQn < candidateScore candidate moduleQn
          · refine ⟨candidate, if_pos hlt, by simp, fun other hother => ?_⟩
            rcases List.mem_append.mp hother with hold | hnew
            · exact (hmax other hold).trans (le_of_lt hlt)
            · rw [List.mem_singleton.mp hnew]
          · refine ⟨qn, if_neg hlt, List.mem_append_left _ hmem, fun other hother => ?_⟩
            rcases List.mem_append.mp hother with hold | hnew
            · exact hmax other hold
            · rw [List.mem_singleton.mp hnew]
              exact not_lt.mp hlt
  obtain ⟨qn, hqn, hbest⟩ := hfold candidates hne
  exact ⟨qn, by rw [bestByImportDistance, hqn], hbest⟩

variable {moduleQn} in
theorem isBest_congr {l l' : List CStr} (h : ∀ qn, qn ∈ l ↔ qn ∈ l') (qn : CStr) :
    IsBest moduleQn l qn ↔ IsBest moduleQn l' qn := by
  simp only [IsBest, h]

end Best

/-- Two results that differ at most in the name. -/
structure SameQuality (a b : Resolution) : Prop where
  strategy_eq : a.strategy = b.strategy
  confidence_eq : a.confidence = b.confidence
  candidateCount_eq : a.candidateCount = b.candidateCount

theorem SameQuality.rfl' (a : Resolution) : SameQuality a a :=
  ⟨rfl, rfl, rfl⟩

section Candidates

variable (moduleQn : CStr) (vals : List CStr)

/-- The candidates among which `cbm_registry_resolve` takes the best: those that are reachable, or
all if none is. -/
def considered (arr : List CStr) : List CStr :=
  if arr.filter (reachable vals) = [] then arr else arr.filter (reachable vals)

/-- The confidence of a suffix match among `n` candidates, of which `f` are reachable. -/
def matchConfidence (n f : Nat) : Float :=
  if vals = [] then candidateCountPenalty 0.55 n
  else if f = 1 then candidateCountPenalty 0.55 n
  else if 1 < f then candidateCountPenalty 0.55 f
  else candidateCountPenalty (0.55 * 0.5) n

/-- The number of candidates that a suffix match reports. -/
def matchCount (n f : Nat) : Nat :=
  if vals = [] then n else if 1 < f then f else n

variable {vals}

theorem filterImportReachable_eq_filter (candidates : List CStr) :
    ∀ max, candidates.length ≤ max →
      (filterImportReachable vals max none candidates).1 = candidates.filter (reachable vals) := by
  induction candidates with
  | nil =>
      intro max _
      cases max <;> rfl
  | cons candidate rest ih =>
      intro max hmax
      obtain ⟨max, rfl⟩ : ∃ k, max = k + 1 := Nat.exists_eq_succ_of_ne_zero (by
        rintro rfl
        exact absurd hmax (Nat.not_succ_le_zero _))
      have hrest : rest.length ≤ max := Nat.le_of_succ_le_succ hmax
      have hplain := isImportReachable_fst (memoizes_none (reachable vals)) candidate
      have hnone : (isImportReachable vals none candidate).2 = none := rfl
      rw [filterImportReachable, hplain, hnone, List.filter_cons]
      cases reachable vals candidate with
      | true => exact congrArg (List.cons candidate) (ih max hrest)
      | false => exact ih (max + 1) (Nat.le_succ_of_le hrest)

theorem pickMulti_spec {arr : List CStr} (hne : arr ≠ []) (hvals : vals ≠ []) :
    ∃ qn, IsBest moduleQn (considered vals arr) qn ∧
      pickMulti moduleQn arr (arr.filter (reachable vals)) =
        ⟨some qn, some .suffixMatch,
          matchConfidence vals arr.length (arr.filter (reachable vals)).length,
          matchCount vals arr.length (arr.filter (reachable vals)).length⟩ := by
  rw [considered, matchConfidence, matchCount, if_neg hvals, if_neg hvals]
  rcases hfilter : arr.filter (reachable vals) with _ | ⟨a, _ | ⟨b, rest⟩⟩
  · obtain ⟨qn, hbest, hspec⟩ := bestByImportDistance_spec moduleQn arr hne
    refine ⟨qn, by rwa [if_pos rfl], ?_⟩
    simp [pickMulti, hbest]
  · refine ⟨a, ?_, rfl⟩
    rw [if_neg (List.cons_ne_nil _ _)]
    refine ⟨List.mem_singleton_self _, fun other hother => ?_⟩
    rw [List.mem_singleton.mp hother]
  · obtain ⟨qn, hbest, hspec⟩ :=
      bestByImportDistance_spec moduleQn (a :: b :: rest) (List.cons_ne_nil _ _)
    refine ⟨qn, by rwa [if_neg (List.cons_ne_nil _ _)], ?_⟩
    simp [pickMulti, hbest]

variable (vals)

theorem resolveAmong_spec {arr : List CStr} (hlow : 1 < arr.length) (hhigh : arr.length ≤ 256) :
    ∃ qn, IsBest moduleQn (considered vals arr) qn ∧
      (resolveAmong moduleQn vals none arr).1 =
        ⟨some qn, some .suffixMatch,
          matchConfidence vals arr.length (arr.filter (reachable vals)).length,
          matchCount vals arr.length (arr.filter (reachable vals)).length⟩ := by
  rcases arr with _ | ⟨a, _ | ⟨b, rest⟩⟩
  · exact absurd hlow (by simp)
  · exact absurd hlow (by simp)
  · have hcap : ¬ regMaxCandidates < (a :: b :: rest).length := Nat.not_lt.mpr hhigh
    rw [resolveAmong, if_neg hcap]
    by_cases hvals : vals = []
    · subst hvals
      obtain ⟨qn, hbest, hspec⟩ :=
        bestByImportDistance_spec moduleQn (a :: b :: rest) (List.cons_ne_nil _ _)
      have hfilter : (a :: b :: rest).filter (reachable []) = [] :=
        List.filter_eq_nil_iff.mpr fun _ _ => Bool.false_ne_true
      refine ⟨qn, by rwa [considered, if_pos hfilter], ?_⟩
      rw [if_pos rfl, pickBest, hbest, matchConfidence, matchCount, if_pos rfl, if_pos rfl]
    · rw [if_neg hvals, resolveMultiWithImports, filterImportReachable_eq_filter _ 256 hhigh]
      exact pickMulti_spec moduleQn (List.cons_ne_nil _ _) hvals

theorem resolveAmong_perm {arr arr' : List CStr} (h : arr.Perm arr') :
    SameQuality (resolveAmong moduleQn vals none arr).1 (resolveAmong moduleQn vals none arr').1 ∧
      (((resolveAmong moduleQn vals none arr).1.strategy = some .suffixMatch →
          ∀ qn qn', IsBest moduleQn (considered vals arr) qn →
            IsBest moduleQn (considered vals arr) qn' → qn = qn') →
        (resolveAmong moduleQn vals none arr).1.qualifiedName =
          (resolveAmong moduleQn vals none arr').1.qualifiedName) := by
  have hfilter : (arr.filter (reachable vals)).Perm (arr'.filter (reachable vals)) := h.filter _
  have hconsidered : ∀ qn, qn ∈ considered vals arr' ↔ qn ∈ considered vals arr := by
    have hnil : arr'.filter (reachable vals) = [] ↔ arr.filter (reachable vals) = [] := by
      rw [← List.length_eq_zero_iff, ← hfilter.length_eq, List.length_eq_zero_iff]
    intro qn
    by_cases hempty : arr.filter (reachable vals) = []
    · rw [considered, considered, if_pos (hnil.mpr hempty), if_pos hempty]
      exact h.mem_iff.symm
    · rw [considered, considered, if_neg (fun hn => hempty (hnil.mp hn)), if_neg hempty]
      exact hfilter.mem_iff.symm
  by_cases hlow : 1 < arr.length
  · by_cases hhigh : arr.length ≤ 256
    · obtain ⟨qn, hbest, hres⟩ := resolveAmong_spec moduleQn vals hlow hhigh
      obtain ⟨qn', hbest', hres'⟩ := resolveAmong_spec moduleQn vals
        (h.length_eq ▸ hlow) (h.length_eq ▸ hhigh)
      rw [hres, hres', h.length_eq, hfilter.length_eq]
      refine ⟨⟨rfl, rfl, rfl⟩, fun hunique => ?_⟩
      exact congrArg some (hunique rfl qn qn' hbest ((isBest_congr hconsidered qn').mp hbest'))
    · -- too many candidates, in both orders
      have hempty : ∀ l : List CStr, ¬ l.length ≤ 256 →
          (resolveAmong moduleQn vals none l).1 = emptyResult := by
        intro l hl
        rcases l with _ | ⟨a, _ | ⟨b, rest⟩⟩
        · exact absurd (Nat.zero_le _) hl
        · exact absurd (by simp) hl
        · have hcap : regMaxCandidates < (a :: b :: rest).length := Nat.lt_of_not_le hl
          rw [resolveAmong, if_pos hcap]
      rw [hempty arr hhigh, hempty arr' (h.length_eq ▸ hhigh)]
      exact ⟨SameQuality.rfl' _, fun _ => rfl⟩
  · have heq : arr = arr' := by
      rcases arr with _ | ⟨a, _ | ⟨b, rest⟩⟩
      · exact h.nil_eq
      · exact h.singleton_eq
      · exact absurd (by simp) hlow
    subst heq
    exact ⟨SameQuality.rfl' _, fun _ => rfl⟩

end Candidates

section Registries

variable {defs defs' : List (CStr × CStr)}

def candidatesOf (defs : List (CStr × CStr)) (simple : CStr) : List CStr :=
  (registeredNames defs).filter fun qn => simpleName qn = simple

theorem perm_candidatesOf (h : ∀ d, d ∈ defs ↔ d ∈ defs') (simple : CStr) :
    (candidatesOf defs simple).Perm (candidatesOf defs' simple) := by
  refine List.Perm.filter _ ((List.perm_ext_iff_of_nodup ?_ ?_).mpr fun qn => ?_)
  · exact nodup_firsts_id _
  · exact nodup_firsts_id _
  · rw [mem_registeredNames, mem_registeredNames]
    simp only [List.mem_map, h]

theorem storedKey_congr (h : ∀ d, d ∈ defs ↔ d ∈ defs') (candidate : CStr) :
    storedKey (registryOf defs) candidate = storedKey (registryOf defs') candidate := by
  rw [storedKey_registryOf, storedKey_registryOf]
  simp only [List.mem_map, h]

/-- The test of the scan of `resolve_import_map`, on the texts as they stand in the buffers. -/
def MatchesSuffix (resolved suffix qn : CStr) : Prop :=
  (resolvedDot resolved).length + (dotSuffix suffix).length ≤ qn.length ∧
    resolvedDot resolved <+: qn ∧ dotSuffix suffix <:+ qn

theorem suffixCandidate_some {resolved suffix qn : CStr}
    (h : suffixCandidate (registryOf defs) resolved suffix = some qn) :
    qn ∈ candidatesOf defs (simpleName suffix) ∧ MatchesSuffix resolved suffix qn := by
  rw [suffixCandidate, lookup_byName] at h
  have htest := List.find?_some h
  rw [decide_eq_true_iff] at htest
  exact ⟨List.mem_of_find?_eq_some h, htest⟩

theorem suffixCandidate_none {resolved suffix : CStr}
    (h : suffixCandidate (registryOf defs) resolved suffix = none) {qn : CStr}
    (hqn : qn ∈ candidatesOf defs (simpleName suffix)) : ¬ MatchesSuffix resolved suffix qn := by
  rw [suffixCandidate, lookup_byName, List.find?_eq_none] at h
  exact fun hmatch => h qn hqn (decide_eq_true hmatch)

theorem resolveImported_sameQuality (h : ∀ d, d ∈ defs ↔ d ∈ defs') (pre resolved : CStr)
    (suffix : Option CStr) :
    SameQuality (resolveImported (registryOf defs) pre suffix resolved)
        (resolveImported (registryOf defs') pre suffix resolved) ∧
      (((resolveImported (registryOf defs) pre suffix resolved).strategy =
            some .importMapSuffix → ∀ text, suffix = some text → ∀ qn qn',
          qn ∈ candidatesOf defs (simpleName text) → MatchesSuffix resolved text qn →
          qn' ∈ candidatesOf defs (simpleName text) → MatchesSuffix resolved text qn' →
            qn = qn') →
        (resolveImported (registryOf defs) pre suffix resolved).qualifiedName =
          (resolveImported (registryOf defs') pre suffix resolved).qualifiedName) := by
  rcases suffix with _ | _ | ⟨c, text⟩
  · have heq : resolveImported (registryOf defs) pre none resolved =
        resolveImported (registryOf defs') pre none resolved := by
      simp only [resolveImported, storedKey_congr h]
    rw [heq]
    exact ⟨SameQuality.rfl' _, fun _ => rfl⟩
  · have heq : resolveImported (registryOf defs) pre (some []) resolved =
        resolveImported (registryOf defs') pre (some []) resolved := by
      simp only [resolveImported, storedKey_congr h]
    rw [heq]
    exact ⟨SameQuality.rfl' _, fun _ => rfl⟩
  · rw [resolveImported, resolveImported, storedKey_congr h]
    cases storedKey (registryOf defs') (dotted resolved (c :: text)) with
    | some qn => exact ⟨SameQuality.rfl' _, fun _ => rfl⟩
    | none =>
        have hmem : ∀ qn, qn ∈ candidatesOf defs (simpleName (c :: text)) ↔
            qn ∈ candidatesOf defs' (simpleName (c :: text)) :=
          fun qn => (perm_candidatesOf h (simpleName (c :: text))).mem_iff
        cases hscan : suffixCandidate (registryOf defs) resolved (c :: text) with
        | none =>
            cases hscan' : suffixCandidate (registryOf defs') resolved (c :: text) with
            | none => exact ⟨SameQuality.rfl' _, fun _ => rfl⟩
            | some qn' =>
                obtain ⟨hqn', hmatch'⟩ := suffixCandidate_some hscan'
                exact absurd hmatch' (suffixCandidate_none hscan ((hmem qn').mpr hqn'))
        | some qn =>
            obtain ⟨hqn, hmatch⟩ := suffixCandidate_some hscan
            cases hscan' : suffixCandidate (registryOf defs') resolved (c :: text) with
            | none => exact absurd hmatch (suffixCandidate_none hscan' ((hmem qn).mp hqn))
            | some qn' =>
                obtain ⟨hqn', hmatch'⟩ := suffixCandidate_some hscan'
                refine ⟨⟨rfl, rfl, rfl⟩, fun hunique => ?_⟩
                exact congrArg some (hunique rfl (c :: text) rfl qn qn' hqn hmatch
                  ((hmem qn').mpr hqn') hmatch')

theorem resolveSameModule_congr (h : ∀ d, d ∈ defs ↔ d ∈ defs') (moduleQn callee : CStr)
    (suffix : Option CStr) :
    resolveSameModule (registryOf defs) moduleQn callee suffix =
      resolveSameModule (registryOf defs') moduleQn callee suffix := by
  simp only [resolveSameModule, storedKey_congr h]

/-- The names that a strategy may return, where there can be several: the names that match the
suffix of an import, and the best among the candidates that are considered. -/
def Winner (defs : List (CStr × CStr)) (moduleQn : CStr) (imports : Imports)
    (importMap : ImportMapCache) (callee : CStr) : Strategy → CStr → Prop
  | .importMapSuffix, qn =>
      ∃ resolved text, resolvedPrefix importMap imports ((splitCallee callee).1.take 255) =
          some resolved ∧ (splitCallee callee).2 = some text ∧
        qn ∈ candidatesOf defs (simpleName text) ∧ MatchesSuffix resolved text qn
  | .suffixMatch, qn =>
      IsBest moduleQn
        (considered (imports.map Prod.snd) (candidatesOf defs (simpleName callee))) qn
  | _, _ => False

/-- No two names can win. -/
def UniqueWinner (defs : List (CStr × CStr)) (moduleQn : CStr) (imports : Imports)
    (importMap : ImportMapCache) (callee : CStr) (strategy : Option Strategy) : Prop :=
  ∀ s, strategy = some s → ∀ qn qn', Winner defs moduleQn imports importMap callee s qn →
    Winner defs moduleQn imports importMap callee s qn' → qn = qn'

theorem resolveImportMap_sameQuality (h : ∀ d, d ∈ defs ↔ d ∈ defs') (moduleQn : CStr)
    (imports : Imports) (importMap : ImportMapCache) (callee : CStr) :
    SameQuality
        (resolveImportMap (registryOf defs) importMap imports ((splitCallee callee).1.take 255)
          (splitCallee callee).2)
        (resolveImportMap (registryOf defs') importMap imports ((splitCallee callee).1.take 255)
          (splitCallee callee).2) ∧
      (UniqueWinner defs moduleQn imports importMap callee
          (resolveImportMap (registryOf defs) importMap imports
            ((splitCallee callee).1.take 255) (splitCallee callee).2).strategy →
        (resolveImportMap (registryOf defs) importMap imports ((splitCallee callee).1.take 255)
            (splitCallee callee).2).qualifiedName =
          (resolveImportMap (registryOf defs') importMap imports
            ((splitCallee callee).1.take 255) (splitCallee callee).2).qualifiedName) := by
  rw [resolveImportMap, resolveImportMap]
  split
  · exact ⟨SameQuality.rfl' _, fun _ => rfl⟩
  · cases hfront : resolvedPrefix importMap imports ((splitCallee callee).1.take 255) with
    | none => exact ⟨SameQuality.rfl' _, fun _ => rfl⟩
    | some resolved =>
        obtain ⟨hsame, hname⟩ := resolveImported_sameQuality h ((splitCallee callee).1.take 255)
          resolved (splitCallee callee).2
        refine ⟨hsame, fun hunique => hname fun hstrategy text htext qn qn' hqn hmatch hqn' hmatch' =>
          ?_⟩
        exact hunique .importMapSuffix hstrategy qn qn'
          ⟨resolved, text, hfront, htext, hqn, hmatch⟩
          ⟨resolved, text, hfront, htext, hqn', hmatch'⟩

theorem dotted_ne_nil (a b : CStr) : dotted a b ≠ [] := by
  intro hnil
  have hlength := congrArg List.length hnil
  rw [dotted, List.length_take, List.length_append, List.length_cons, List.length_nil] at hlength
  omega

theorem found_of_ne_nil {qn : CStr} (hqn : qn ≠ []) (strategy : Option Strategy) (conf : Float)
    (count : Nat) : (Resolution.mk (some qn) strategy conf count).found = true :=
  decide_eq_true hqn

theorem found_resolveImported (r : Registry) (pre resolved : CStr) (suffix : Option CStr) :
    (resolveImported r pre suffix resolved).found =
      (resolveImported r pre suffix resolved).strategy.isSome := by
  have hstored : ∀ candidate qn, storedKey r candidate = some qn → qn = candidate := by
    intro candidate qn h
    rw [storedKey] at h
    split at h
    · exact (Option.some.inj h).symm
    · exact absurd h (by simp)
  rcases suffix with _ | _ | ⟨c, text⟩
  · simp only [resolveImported]
    cases hqn : storedKey r (dotted resolved pre) with
    | none => rfl
    | some qn =>
        rw [hstored _ _ hqn]
        exact found_of_ne_nil (dotted_ne_nil _ _) _ _ _
  · simp only [resolveImported]
    cases hqn : storedKey r (dotted resolved pre) with
    | none => rfl
    | some qn =>
        rw [hstored _ _ hqn]
        exact found_of_ne_nil (dotted_ne_nil _ _) _ _ _
  · simp only [resolveImported]
    cases hqn : storedKey r (dotted resolved (c :: text)) with
    | some qn =>
        rw [hstored _ _ hqn]
        exact found_of_ne_nil (dotted_ne_nil _ _) _ _ _
    | none =>
        cases hscan : suffixCandidate r resolved (c :: text) with
        | none => rfl
        | some qn =>
            have htest := List.find?_some hscan
            rw [decide_eq_true_iff] at htest
            refine found_of_ne_nil (fun hnil => ?_) _ _ _
            have hlength := htest.1
            rw [hnil, resolvedDot, List.length_take, List.length_append, List.length_singleton,
              List.length_nil] at hlength
            omega

theorem found_resolveImportMap (r : Registry) (importMap : ImportMapCache) (imports : Imports)
    (pre : CStr) (suffix : Option CStr) :
    (resolveImportMap r importMap imports pre suffix).found =
      (resolveImportMap r importMap imports pre suffix).strategy.isSome := by
  rw [resolveImportMap]
  split
  · rfl
  · split
    · exact found_resolveImported r pre _ suffix
    · rfl

theorem resolveChain_sameQuality (h : ∀ d, d ∈ defs ↔ d ∈ defs') (moduleQn : CStr)
    (imports : Imports) (importMap : ImportMapCache) (callee : CStr) :
    SameQuality (resolveChain (registryOf defs) moduleQn imports importMap callee none).1
        (resolveChain (registryOf defs') moduleQn imports importMap callee none).1 ∧
      (UniqueWinner defs moduleQn imports importMap callee
          (resolveChain (registryOf defs) moduleQn imports importMap callee none).1.strategy →
        (resolveChain (registryOf defs) moduleQn imports importMap callee none).1.qualifiedName =
          (resolveChain (registryOf defs') moduleQn imports importMap callee
            none).1.qualifiedName) := by
  have himport := resolveImportMap_sameQuality h moduleQn imports importMap callee
  have hfound : (resolveImportMap (registryOf defs) importMap imports
        ((splitCallee callee).1.take 255) (splitCallee callee).2).found =
      (resolveImportMap (registryOf defs') importMap imports
        ((splitCallee callee).1.take 255) (splitCallee callee).2).found := by
    rw [found_resolveImportMap, found_resolveImportMap, himport.1.strategy_eq]
  simp only [resolveChain, hfound, resolveSameModule_congr h]
  split
  · exact himport
  · split
    · exact ⟨SameQuality.rfl' _, fun _ => rfl⟩
    · rw [resolveNameLookup, resolveNameLookup, lookup_byName, lookup_byName]
      have hperm := perm_candidatesOf h (simpleName callee)
      obtain ⟨hsame, hname⟩ := resolveAmong_perm moduleQn (imports.map Prod.snd) hperm
      exact ⟨hsame, fun hunique => hname fun hstrategy qn qn' hqn hqn' =>
        hunique .suffixMatch hstrategy qn qn' hqn hqn'⟩

/-- What `cbm_registry_resolve` returns, with the caches of the file or without, has the strategy,
the confidence and the number of candidates that the set of definitions gives, whatever their
order; and the name as well, if no two names can win. -/
theorem resolve_order_independent (h : ∀ d, d ∈ defs ↔ d ∈ defs') (moduleQn : CStr)
    (imports : Imports) {caches : Caches}
    (hcaches : caches = noCaches ∨ caches = cachesBegin imports) (callee : CStr) :
    SameQuality (registryResolve (registryOf defs) moduleQn imports caches callee).1
        (registryResolve (registryOf defs') moduleQn imports caches callee).1 ∧
      (UniqueWinner defs moduleQn imports caches.importMap callee
          (registryResolve (registryOf defs) moduleQn imports caches callee).1.strategy →
        (registryResolve (registryOf defs) moduleQn imports caches callee).1.qualifiedName =
          (registryResolve (registryOf defs') moduleQn imports caches callee).1.qualifiedName) := by
  have hfresh : ∀ r, (registryResolve r moduleQn imports caches callee).1 =
      (resolveChain r moduleQn imports caches.importMap callee none).1 := by
    intro r
    have hvalid : CachesValid r moduleQn imports caches.importMap caches := by
      rcases hcaches with rfl | rfl
      · exact cachesValid_none r moduleQn imports
      · exact cachesValid_begin r moduleQn imports
    have hanswer := (hvalid.answer (.resolve callee)).1
    exact Answer.resolution.inj hanswer
  rw [hfresh, hfresh]
  exact resolveChain_sameQuality h moduleQn imports caches.importMap callee

/-- Two definitions of `f` registered in both orders, for a call from the module `a`. -/
theorem resolve_order_independent_two :
    SameQuality
        (registryResolve (registryOf [(bytesOf "a.f", bytesOf "Function"),
          (bytesOf "b.f", bytesOf "Function")]) (bytesOf "a.m") [] noCaches (bytesOf "f")).1
        (registryResolve (registryOf [(bytesOf "b.f", bytesOf "Function"),
          (bytesOf "a.f", bytesOf "Function")]) (bytesOf "a.m") [] noCaches (bytesOf "f")).1 ∧
      (UniqueWinner [(bytesOf "a.f", bytesOf "Function"), (bytesOf "b.f", bytesOf "Function")]
          (bytesOf "a.m") [] noCaches.importMap (bytesOf "f")
          (registryResolve (registryOf [(bytesOf "a.f", bytesOf "Function"),
            (bytesOf "b.f", bytesOf "Function")]) (bytesOf "a.m") [] noCaches
            (bytesOf "f")).1.strategy →
        (registryResolve (registryOf [(bytesOf "a.f", bytesOf "Function"),
            (bytesOf "b.f", bytesOf "Function")]) (bytesOf "a.m") [] noCaches
            (bytesOf "f")).1.qualifiedName =
          (registryResolve (registryOf [(bytesOf "b.f", bytesOf "Function"),
            (bytesOf "a.f", bytesOf "Function")]) (bytesOf "a.m") [] noCaches
            (bytesOf "f")).1.qualifiedName) :=
  resolve_order_independent (fun d => by simp [or_comm]) (bytesOf "a.m") [] (Or.inl rfl)
    (bytesOf "f")

end Registries

end Pipeline
end CodebaseMemory
