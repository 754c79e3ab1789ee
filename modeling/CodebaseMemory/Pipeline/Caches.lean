import CodebaseMemory.Pipeline.Registry

/-!
# The caches of the resolver

Two of the caches are tables of results: of `is_import_reachable` by candidate,
and of the chain of strategies by callee.  As long as the module and the import
map stay the same, such a table changes no answer.  The third one replaces the
scan of the import map, and gives the last value of a key where the scan gives
the first.
-/

namespace CodebaseMemory
namespace Pipeline

open Lib
open Sqlite (CStr bytesOf)

section Tables

variable {vals : List CStr} {cache : ReachCache}

theorem isImportReachable_fst (hcache : Memoizes (reachable vals) cache) (candidate : CStr) :
    (isImportReachable vals cache candidate).1 = reachable vals candidate :=
  memo_fst hcache rfl

theorem memoizes_isImportReachable (hcache : Memoizes (reachable vals) cache) (candidate : CStr) :
    Memoizes (reachable vals) (isImportReachable vals cache candidate).2 :=
  hcache.memo rfl

theorem filterImportReachable_fst (candidates : List CStr) :
    ∀ (max : Nat) (cache : ReachCache), Memoizes (reachable vals) cache →
      (filterImportReachable vals max cache candidates).1 =
        (filterImportReachable vals max none candidates).1 ∧
      Memoizes (reachable vals) (filterImportReachable vals max cache candidates).2 := by
  induction candidates with
  | nil =>
      intro max cache hcache
      cases max with
      | zero => exact ⟨rfl, hcache⟩
      | succ max => exact ⟨rfl, hcache⟩
  | cons candidate rest ih =>
      intro max cache hcache
      cases max with
      | zero => exact ⟨rfl, hcache⟩
      | succ max =>
          have hfst := isImportReachable_fst hcache candidate
          have hmemo := memoizes_isImportReachable hcache candidate
          have hplain := isImportReachable_fst (memoizes_none (reachable vals)) candidate
          have hnone : (isImportReachable vals none candidate).2 = none := rfl
          rw [filterImportReachable, filterImportReachable, hfst, hplain, hnone]
          cases reachable vals candidate with
          | true =>
              obtain ⟨heq, hrest⟩ := ih max _ hmemo
              exact ⟨congrArg (List.cons candidate) heq, hrest⟩
          | false => exact ih (max + 1) _ hmemo

variable (moduleQn : CStr)

theorem resolveAmong_fst (hcache : Memoizes (reachable vals) cache) (arr : List CStr) :
    (resolveAmong moduleQn vals cache arr).1 = (resolveAmong moduleQn vals none arr).1 ∧
      Memoizes (reachable vals) (resolveAmong moduleQn vals cache arr).2 := by
  rcases arr with _ | ⟨a, _ | ⟨b, rest⟩⟩
  · exact ⟨rfl, hcache⟩
  · rw [resolveAmong, resolveAmong]
    split
    · exact ⟨rfl, hcache⟩
    · rw [isImportReachable_fst hcache, isImportReachable_fst (memoizes_none _)]
      exact ⟨rfl, memoizes_isImportReachable hcache a⟩
  · rw [resolveAmong, resolveAmong]
    split
    · exact ⟨rfl, hcache⟩
    · split
      · exact ⟨rfl, hcache⟩
      · obtain ⟨heq, hrest⟩ := filterImportReachable_fst (a :: b :: rest) 256 cache hcache
        rw [resolveMultiWithImports, resolveMultiWithImports, heq]
        exact ⟨rfl, hrest⟩

theorem fuzzyAmong_fst (hcache : Memoizes (reachable vals) cache) (arr : List CStr) :
    (fuzzyAmong moduleQn vals cache arr).1 = (fuzzyAmong moduleQn vals none arr).1 ∧
      Memoizes (reachable vals) (fuzzyAmong moduleQn vals cache arr).2 := by
  rcases arr with _ | ⟨a, _ | ⟨b, rest⟩⟩
  · exact ⟨rfl, hcache⟩
  · rw [fuzzyAmong, fuzzyAmong]
    split
    · exact ⟨rfl, hcache⟩
    · rw [isImportReachable_fst hcache, isImportReachable_fst (memoizes_none _)]
      exact ⟨rfl, memoizes_isImportReachable hcache a⟩
  · rw [fuzzyAmong, fuzzyAmong]
    split
    · exact ⟨rfl, hcache⟩
    · split
      · exact ⟨rfl, hcache⟩
      · obtain ⟨heq, hrest⟩ := filterImportReachable_fst (a :: b :: rest) 256 cache hcache
        rw [heq]
        exact ⟨rfl, hrest⟩

variable (r : Registry)

theorem resolveChain_fst (imports : Imports) (importMap : ImportMapCache) (callee : CStr)
    (hcache : Memoizes (reachable (imports.map Prod.snd)) cache) :
    (resolveChain r moduleQn imports importMap callee cache).1 =
        (resolveChain r moduleQn imports importMap callee none).1 ∧
      Memoizes (reachable (imports.map Prod.snd))
        (resolveChain r moduleQn imports importMap callee cache).2 := by
  simp only [resolveChain]
  split
  · exact ⟨rfl, hcache⟩
  · split
    · exact ⟨rfl, hcache⟩
    · exact resolveAmong_fst moduleQn hcache _

end Tables

section Calls

variable (r : Registry) (moduleQn : CStr) (imports : Imports)

/-- The caches hold results for this file only. -/
structure CachesValid (importMap : ImportMapCache) (caches : Caches) : Prop where
  reach : Memoizes (reachable (imports.map Prod.snd)) caches.reach
  importMap_eq : caches.importMap = importMap
  resolve : Memoizes (fun callee => (resolveChain r moduleQn imports importMap callee none).1)
    caches.resolve

/-- What a call returns where nothing is stored but the import map. -/
def freshAnswer (importMap : ImportMapCache) : Call → Answer
  | .resolve callee => .resolution (resolveChain r moduleQn imports importMap callee none).1
  | .fuzzy callee => .fuzzyResult (fuzzyResolve r moduleQn (imports.map Prod.snd) none callee).1

variable {r moduleQn imports} {importMap : ImportMapCache} {caches : Caches}

theorem CachesValid.answer (h : CachesValid r moduleQn imports importMap caches) (call : Call) :
    (answer r moduleQn imports caches call).1 = freshAnswer r moduleQn imports importMap call ∧
      CachesValid r moduleQn imports importMap (answer r moduleQn imports caches call).2 := by
  cases call with
  | resolve callee =>
      have hchain := resolveChain_fst moduleQn r imports importMap callee h.reach
      rw [← h.importMap_eq] at hchain
      have hres : (resolveChain r moduleQn imports caches.importMap callee caches.reach).1 =
          (fun callee => (resolveChain r moduleQn imports importMap callee none).1) callee := by
        rw [hchain.1, h.importMap_eq]
      refine ⟨congrArg Answer.resolution (memo_fst h.resolve hres), ?_, h.importMap_eq,
        h.resolve.memo hres⟩
      exact memo_state h.reach hchain.2
  | fuzzy callee =>
      have hfuzzy := fuzzyAmong_fst moduleQn h.reach
        ((r.byName.lookup (simpleName callee)).getD [])
      exact ⟨congrArg Answer.fuzzyResult hfuzzy.1, hfuzzy.2, h.importMap_eq, h.resolve⟩

theorem answers_eq_map (calls : List Call) :
    ∀ caches, CachesValid r moduleQn imports importMap caches →
      answers r moduleQn imports caches calls =
        calls.map (freshAnswer r moduleQn imports importMap) := by
  induction calls with
  | nil => exact fun _ _ => rfl
  | cons call calls ih =>
      intro caches hcaches
      obtain ⟨heq, hnext⟩ := hcaches.answer call
      rw [answers, List.map_cons, heq, ih _ hnext]

variable (r moduleQn imports)

theorem cachesValid_none : CachesValid r moduleQn imports none noCaches :=
  ⟨memoizes_none _, rfl, memoizes_none _⟩

theorem cachesValid_begin :
    CachesValid r moduleQn imports (importMapCacheBegin imports) (cachesBegin imports) :=
  ⟨memoizes_empty _, rfl, memoizes_empty _⟩

theorem answers_agree_iff :
    (∀ calls, answers r moduleQn imports (cachesBegin imports) calls =
      answers r moduleQn imports noCaches calls) ↔
      ∀ callee, (resolveChain r moduleQn imports (importMapCacheBegin imports) callee none).1 =
        (resolveChain r moduleQn imports none callee none).1 := by
  constructor
  · intro h callee
    have hone := h [.resolve callee]
    rw [answers_eq_map _ _ (cachesValid_begin r moduleQn imports),
      answers_eq_map _ _ (cachesValid_none r moduleQn imports)] at hone
    simpa [freshAnswer] using hone
  · intro h calls
    rw [answers_eq_map _ _ (cachesValid_begin r moduleQn imports),
      answers_eq_map _ _ (cachesValid_none r moduleQn imports)]
    refine List.map_congr_left fun call _ => ?_
    cases call with
    | resolve callee => exact congrArg Answer.resolution (h callee)
    | fuzzy callee => rfl

end Calls

section ImportMap

/-- The value that the scan from the end would find. -/
def lastValue (imports : Imports) (key : CStr) : Option CStr :=
  firstValue imports.reverse key

/-- A prefix that some callee has: neither `.` nor `::` in it, and not cut. -/
def Askable (key : CStr) : Prop :=
  (dot ∉ key ∧ ¬ [colon, colon] <:+: key) ∧ key.length ≤ 255

theorem lookup_foldl_insert (imports : Imports) (key : CStr) :
    ∀ table : AList fun _ : CStr => CStr,
      (imports.foldl (fun table entry => table.insert entry.1 entry.2) table).lookup key =
        (lastValue imports key).or (table.lookup key) := by
  induction imports using List.reverseRecOn with
  | nil => exact fun _ => rfl
  | append_singleton imports entry ih =>
      intro table
      rw [List.foldl_append, List.foldl_cons, List.foldl_nil, lastValue, List.reverse_append,
        firstValue]
      by_cases hkey : entry.1 = key
      · subst hkey
        simp
      · rw [AList.lookup_insert_ne (Ne.symm hkey), ih table]
        simp [hkey, lastValue, firstValue]

theorem resolvedPrefix_begin (imports : Imports) (key : CStr) :
    resolvedPrefix (importMapCacheBegin imports) imports key = lastValue imports key := by
  rw [importMapCacheBegin]
  split
  · next h =>
      subst h
      rfl
  · rw [resolvedPrefix, lookup_foldl_insert]
    simp

theorem isSome_lastValue (imports : Imports) (key : CStr) :
    (lastValue imports key).isSome = (firstValue imports key).isSome := by
  rw [lastValue, firstValue, firstValue, Option.isSome_map, Option.isSome_map, Bool.eq_iff_iff,
    List.find?_isSome, List.find?_isSome]
  simp

theorem take_append_take {α : Type} (n : Nat) (a b : List α) :
    (a.take n ++ b).take n = (a ++ b).take n := by
  rw [List.take_append, List.take_append, List.take_take, Nat.min_self, List.length_take]
  congr 2
  omega

theorem dotted_eq (a b : CStr) : dotted a b = (resolvedDot a ++ b).take 511 := by
  rw [dotted, resolvedDot, take_append_take, List.append_assoc]
  rfl

variable {imports : Imports}
variable {v v' : CStr}

theorem resolveImported_congr (r : Registry) (pre : CStr) (suffix : Option CStr)
    (h : resolvedDot v = resolvedDot v') :
    resolveImported r pre suffix v = resolveImported r pre suffix v' := by
  have hdotted : ∀ b, dotted v b = dotted v' b := fun b => by rw [dotted_eq, dotted_eq, h]
  have hscan : ∀ b, suffixCandidate r v b = suffixCandidate r v' b := fun b => by
    rw [suffixCandidate, suffixCandidate, h]
  rcases suffix with _ | _ | ⟨c, suffix⟩
  · rw [resolveImported, resolveImported, hdotted]
    all_goals simp
  · rw [resolveImported, resolveImported, hdotted]
    all_goals simp
  · rw [resolveImported, resolveImported, hdotted, hscan]

theorem length_resolvedDot_le (v : CStr) : (resolvedDot v).length ≤ 511 :=
  List.length_take_le _ _

theorem dotted_singleton (v : CStr) (c : UInt8) :
    dotted v [c] = resolvedDot v ++ [c].take (511 - (resolvedDot v).length) := by
  rw [dotted_eq, List.take_append, List.take_of_length_le (length_resolvedDot_le v)]

theorem exists_dotted_ne_of_lt (hlt : (resolvedDot v).length < (resolvedDot v').length) :
    ∃ c : UInt8, dotted v [c] ≠ dotted v' [c] := by
  have hlt511 : (resolvedDot v).length < 511 :=
    Nat.lt_of_lt_of_le hlt (length_resolvedDot_le v')
  have hbyte : ∀ c : UInt8, dotted v [c] = dotted v' [c] →
      (resolvedDot v')[(resolvedDot v).length]? = some c := by
    intro c h
    rw [dotted_singleton, dotted_singleton, List.take_of_length_le (by simp; omega)] at h
    have hget := congrArg (fun l => l[(resolvedDot v).length]?) h
    simp only [List.getElem?_append_left hlt] at hget
    rw [← hget]
    simp
  by_cases hx : dotted v [120] = dotted v' [120]
  · refine ⟨121, fun hy => ?_⟩
    have h := (hbyte 120 hx).symm.trans (hbyte 121 hy)
    exact absurd h (by decide)
  · exact ⟨120, hx⟩

theorem exists_dotted_ne (h : resolvedDot v ≠ resolvedDot v') :
    ∃ c : UInt8, dotted v [c] ≠ dotted v' [c] := by
  rcases Nat.lt_trichotomy (resolvedDot v).length (resolvedDot v').length with hlt | heq | hgt
  · exact exists_dotted_ne_of_lt hlt
  · refine ⟨120, fun hx => h ?_⟩
    rw [dotted_singleton, dotted_singleton] at hx
    exact List.append_inj_left hx heq
  · obtain ⟨c, hc⟩ := exists_dotted_ne_of_lt hgt
    exact ⟨c, hc.symm⟩

theorem splitCallee_append_dot {key : CStr} (hdot : dot ∉ key) (hcolons : ¬ [colon, colon] <:+: key)
    (suffix : CStr) : splitCallee (key ++ dot :: suffix) = (key, some suffix) := by
  induction key with
  | nil => simp [splitCallee]
  | cons c key ih =>
      have hc : c ≠ dot := fun h => hdot (h ▸ List.mem_cons_self)
      have htail := ih (fun h => hdot (List.mem_cons_of_mem _ h))
        (fun h => hcolons (h.trans (List.suffix_cons c key).isInfix))
      have hpair : ¬ (c = colon ∧ (key ++ dot :: suffix).head? = some colon) := by
        rintro ⟨rfl, hhead⟩
        cases key with
        | nil => simp [dot, colon] at hhead
        | cons d key =>
            obtain rfl : d = colon := by simpa using hhead
            exact hcolons ⟨[], key, rfl⟩
      rw [List.cons_append, splitCallee, if_neg hc, if_neg hpair, htail]

theorem plain_splitCallee (callee : CStr) :
    dot ∉ (splitCallee callee).1 ∧ ¬ [colon, colon] <:+: (splitCallee callee).1 := by
  induction callee with
  | nil => simp [splitCallee]
  | cons c rest ih =>
      rw [splitCallee]
      split
      · simp
      · next hdot =>
          split
          · simp
          · next hpair =>
              refine ⟨?_, fun hinfix => ?_⟩
              · rw [List.mem_cons, not_or]
                exact ⟨Ne.symm hdot, ih.1⟩
              · rcases List.infix_cons_iff.mp hinfix with hpre | htail
                · -- a pair at the front would be the separator
                  obtain ⟨tail, htail⟩ := hpre
                  obtain ⟨rfl, hrest⟩ := List.cons.inj htail
                  refine hpair ⟨rfl, ?_⟩
                  cases rest with
                  | nil => exact absurd hrest (by simp [splitCallee])
                  | cons d rest =>
                      rw [splitCallee] at hrest
                      split at hrest
                      · exact absurd hrest (by simp)
                      · split at hrest
                        · exact absurd hrest (by simp)
                        · exact congrArg some (List.cons.inj hrest).1.symm
                · exact ih.2 htail

theorem askable_take_splitCallee (callee : CStr) : Askable ((splitCallee callee).1.take 255) := by
  obtain ⟨hdot, hcolons⟩ := plain_splitCallee callee
  refine ⟨⟨fun h => hdot (List.mem_of_mem_take h), fun h => ?_⟩, List.length_take_le _ _⟩
  exact hcolons (h.trans (List.take_prefix _ _).isInfix)

theorem resolveSameModule_strategy (r : Registry) (moduleQn callee : CStr) (suffix : Option CStr) :
    (resolveSameModule r moduleQn callee suffix).strategy ≠ some .importMap := by
  unfold resolveSameModule
  split
  · simp
  · split
    · split <;> simp [emptyResult]
    · simp [emptyResult]

theorem resolveAmong_strategy (moduleQn : CStr) (vals : List CStr) (cache : ReachCache)
    (arr : List CStr) :
    (resolveAmong moduleQn vals cache arr).1.strategy ≠ some .importMap := by
  rcases arr with _ | ⟨a, _ | ⟨b, rest⟩⟩
  · simp [resolveAmong, emptyResult]
  · rw [resolveAmong]
    split <;> simp
  · rw [resolveAmong]
    split
    · simp [emptyResult]
    · split
      · rw [pickBest]
        split <;> simp [emptyResult]
      · unfold resolveMultiWithImports pickMulti
        split
        · simp
        · split
          · simp
          · split <;> simp [emptyResult]

theorem strategy_resolveChain {r : Registry} {moduleQn : CStr} {importMap : ImportMapCache}
    {callee : CStr} {cache : ReachCache}
    (h : (resolveChain r moduleQn imports importMap callee cache).1.strategy = some .importMap) :
    (resolveImportMap r importMap imports ((splitCallee callee).1.take 255)
      (splitCallee callee).2).strategy = some .importMap := by
  simp only [resolveChain] at h
  split at h
  · exact h
  · split at h
    · exact absurd h (resolveSameModule_strategy _ _ _ _)
    · exact absurd h (resolveAmong_strategy _ _ _ _)

theorem resolveImportMap_eq {r : Registry} {cache : ImportMapCache} {pre : CStr}
    {suffix : Option CStr} (hv : resolvedPrefix cache imports pre = some v) (hne : imports ≠ []) :
    resolveImportMap r cache imports pre suffix = resolveImported r pre suffix v := by
  rw [resolveImportMap, if_neg hne, hv]

theorem resolveImportMap_begin (r : Registry) {pre : CStr}
    (h : (firstValue imports pre).map resolvedDot = (lastValue imports pre).map resolvedDot)
    (suffix : Option CStr) :
    resolveImportMap r (importMapCacheBegin imports) imports pre suffix =
      resolveImportMap r none imports pre suffix := by
  rw [resolveImportMap, resolveImportMap, resolvedPrefix_begin, resolvedPrefix]
  cases hfirst : firstValue imports pre with
  | none =>
      have hlast : lastValue imports pre = none := by
        have hsome := isSome_lastValue imports pre
        rw [hfirst] at hsome
        exact Option.isNone_iff_eq_none.mp (by simpa using hsome)
      rw [hlast]
  | some v =>
      rw [hfirst] at h
      obtain ⟨v', hlast, hdot⟩ := Option.map_eq_some_iff.mp h.symm
      rw [hlast]
      simp only [resolveImported_congr r pre suffix hdot]

theorem storedKey_singleton (qn label candidate : CStr) :
    storedKey (registryOf [(qn, label)]) candidate =
      if candidate = qn then some candidate else none := by
  have hexact : (registryOf [(qn, label)]).exact = (∅ : AList fun _ : CStr => CStr).insert qn label :=
    rfl
  rw [storedKey, hexact]
  by_cases h : candidate = qn
  · subst h
    rw [AList.lookup_insert, if_pos rfl]
    rfl
  · rw [AList.lookup_insert_ne h, if_neg h]
    rfl

theorem exists_registry_ne {key : CStr} (hkey : Askable key)
    (hfirst : firstValue imports key = some v) (hlast : lastValue imports key = some v')
    (hne : resolvedDot v ≠ resolvedDot v') (moduleQn : CStr) :
    ∃ defs callee,
      (resolveChain (registryOf defs) moduleQn imports (importMapCacheBegin imports) callee none).1 ≠
        (resolveChain (registryOf defs) moduleQn imports none callee none).1 := by
  obtain ⟨c, hc⟩ := exists_dotted_ne hne
  have hnil : imports ≠ [] := by
    rintro rfl
    exact absurd hfirst (by simp [firstValue])
  have hsplit : splitCallee (key ++ dot :: [c]) = (key, some [c]) :=
    splitCallee_append_dot hkey.1.1 hkey.1.2 [c]
  have hkey255 : key.take 255 = key := List.take_of_length_le hkey.2
  have hstored : storedKey (registryOf [(dotted v [c], [])]) (dotted v [c]) =
      some (dotted v [c]) := by
    rw [storedKey_singleton, if_pos rfl]
  have hmissing : storedKey (registryOf [(dotted v [c], [])]) (dotted v' [c]) = none := by
    rw [storedKey_singleton, if_neg hc.symm]
  refine ⟨[(dotted v [c], [])], key ++ dot :: [c], fun heq => ?_⟩
  -- without the cache the name is found by the import map
  have hplain : (resolveChain (registryOf [(dotted v [c], [])]) moduleQn imports none
      (key ++ dot :: [c]) none).1.strategy = some .importMap := by
    have himport : resolveImportMap (registryOf [(dotted v [c], [])]) none imports key (some [c]) =
        ⟨some (dotted v [c]), some .importMap, 0.95, 1⟩ := by
      rw [resolveImportMap_eq (by exact hfirst) hnil, resolveImported, hstored]
    have hfound : dotted v [c] ≠ [] := by simp [dotted]
    simp only [resolveChain, hsplit, hkey255, himport]
    simp [Resolution.found, hfound]
  -- with it, the import map does not have it, and no other strategy says so
  rw [← heq] at hplain
  have hcached := strategy_resolveChain hplain
  rw [hsplit, hkey255, resolveImportMap_eq (by rw [resolvedPrefix_begin]; exact hlast) hnil,
    resolveImported, hmissing] at hcached
  cases hscan : suffixCandidate (registryOf [(dotted v [c], [])]) v' [c] with
  | none => simp [hscan, emptyResult] at hcached
  | some qn => simp [hscan] at hcached

/-- The caches change nothing, whatever is registered, exactly if for each key that a callee can
have as its prefix the first value and the last lead to the same names. -/
theorem caches_transparent_iff (moduleQn : CStr) (imports : Imports) :
    (∀ defs calls, answers (registryOf defs) moduleQn imports (cachesBegin imports) calls =
      answers (registryOf defs) moduleQn imports noCaches calls) ↔
      ∀ key, Askable key →
        (firstValue imports key).map resolvedDot = (lastValue imports key).map resolvedDot := by
  have hagree : (∀ defs calls, answers (registryOf defs) moduleQn imports (cachesBegin imports)
      calls = answers (registryOf defs) moduleQn imports noCaches calls) ↔
      ∀ defs callee, (resolveChain (registryOf defs) moduleQn imports
        (importMapCacheBegin imports) callee none).1 =
          (resolveChain (registryOf defs) moduleQn imports none callee none).1 :=
    forall_congr' fun defs => answers_agree_iff (registryOf defs) moduleQn imports
  rw [hagree]
  constructor
  · intro h key hkey
    have hsome := isSome_lastValue imports key
    cases hfirst : firstValue imports key with
    | none =>
        rw [hfirst] at hsome
        have hlast : lastValue imports key = none :=
          Option.isNone_iff_eq_none.mp (by simpa using hsome)
        rw [hlast]
    | some v =>
        rw [hfirst] at hsome
        obtain ⟨v', hlast⟩ := Option.isSome_iff_exists.mp hsome
        rw [hlast]
        by_contra hne
        obtain ⟨defs, callee, hdiff⟩ := exists_registry_ne hkey hfirst hlast
          (fun heq => hne (congrArg some heq)) moduleQn
        exact hdiff (h defs callee)
  · intro h defs callee
    simp only [resolveChain,
      resolveImportMap_begin (registryOf defs) (h _ (askable_take_splitCallee callee))]

end ImportMap

/-- Two imports under one name, as `import a.x` and `import b.x` give in one file. -/
def twoImports : Imports :=
  [(bytesOf "x", bytesOf "a.x"), (bytesOf "x", bytesOf "b.x")]

/-- The call `x.f` goes to `a.x.f` without the caches and to `b.x.f` with them. -/
theorem not_caches_transparent :
    ¬ ∀ calls,
      answers (registryOf [(bytesOf "a.x.f", bytesOf "Function"),
          (bytesOf "b.x.f", bytesOf "Function")]) (bytesOf "m") twoImports
        (cachesBegin twoImports) calls =
      answers (registryOf [(bytesOf "a.x.f", bytesOf "Function"),
          (bytesOf "b.x.f", bytesOf "Function")]) (bytesOf "m") twoImports noCaches calls := by
  intro h
  have hfirst := (answers_agree_iff _ _ _).mp h (bytesOf "x.f")
  have hqn := congrArg Resolution.qualifiedName hfirst
  exact absurd hqn (by decide +kernel)

end Pipeline
end CodebaseMemory
