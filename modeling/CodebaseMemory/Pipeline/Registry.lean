import CodebaseMemory.Lib.Memo
import CodebaseMemory.Pipeline.Fqn
import Mathlib.Data.List.Infix

/-!
# Call resolution (`src/pipeline/registry.c`)

The registry of qualified names, the chain of strategies that
`cbm_registry_resolve` tries, `cbm_registry_fuzzy_resolve`, and the three
caches of a thread, which are installed for one file.

Reading aids:
* A cache that is not installed is `none`.  Every function that may fill one
  takes it and returns it.
* Buffers cut: a prefix to 255 bytes, a candidate and a module to 511.
* A confidence is a `double`, in Lean a `Float`; nothing is proved of its value.
* The texts that `strategy` points to are the constructors of `Strategy`.
-/

namespace CodebaseMemory
namespace Pipeline

open Lib
open Sqlite (CStr bytesOf)

/-- `':'` -/
def colon : UInt8 := 58

/-- What follows the last `::` of the loop in `simple_name`, which goes on behind each one. -/
def afterColons : CStr → Option CStr
  | [] => none
  | [_] => none
  | c :: d :: rest =>
      if c = colon ∧ d = colon then some ((afterColons rest).getD rest)
      else afterColons (d :: rest)

def simpleName (qn : CStr) : CStr :=
  let seg :=
    match splitLast dot qn with
    | some (_, after) => after
    | none => qn
  match afterColons qn with
  | some after => if after.length < seg.length then after else seg
  | none => seg

/-- The loop of `common_prefix_len`; each round with two dots takes at least one byte. -/
def commonPrefixFrom : Nat → CStr → CStr → Nat
  | 0, _, _ => 0
  | fuel + 1, a, b =>
      if a = [] ∨ b = [] then 0
      else if a.takeWhile (· ≠ dot) ≠ b.takeWhile (· ≠ dot) then 0
      else if a.dropWhile (· ≠ dot) = [] ∨ b.dropWhile (· ≠ dot) = [] then 1
      else
        1 + commonPrefixFrom fuel (a.dropWhile (· ≠ dot)).tail (b.dropWhile (· ≠ dot)).tail

def commonPrefixLen (a b : CStr) : Nat :=
  commonPrefixFrom (a.length + 1) a b

/-- The texts of `is_test_qn`. -/
def testWords : List CStr :=
  ["Test", "test", "Mock", "mock", "Stub", "stub", "Fake", "fake", "Fixture", "spec"].map bytesOf

def isTestQn (qn : CStr) : Bool :=
  testWords.any fun word => word <:+: qn

def candidateScore (candidate moduleQn : CStr) : Int :=
  (if isTestQn candidate then 0 else 1000) + commonPrefixLen candidate moduleQn

/-- `best_by_import_distance`: the first candidate with the highest score. -/
def bestByImportDistance (candidates : List CStr) (moduleQn : CStr) : Option CStr :=
  (candidates.foldl (fun best candidate =>
    let score := candidateScore candidate moduleQn
    if best.2 < score then (some candidate, score) else best)
    ((none, -1) : Option CStr × Int)).1

/-- Where `cbm_registry_resolve` splits a callee: at the first `.` or `::`. -/
def splitCallee : CStr → CStr × Option CStr
  | [] => ([], none)
  | c :: rest =>
      if c = dot then ([], some rest)
      else if c = colon ∧ rest.head? = some colon then ([], some rest.tail)
      else (c :: (splitCallee rest).1, (splitCallee rest).2)

/-- `cbm_registry_t`. -/
structure Registry where
  exact : AList fun _ : CStr => CStr
  byName : AList fun _ : CStr => List CStr

/-- `cbm_registry_new`. -/
def registryNew : Registry :=
  { exact := ∅, byName := ∅ }

/-- `cbm_registry_add`. -/
def registryAdd (r : Registry) (qn label : CStr) : Registry :=
  if (r.exact.lookup qn).isSome then r
  else
    { exact := r.exact.insert qn label
      byName := r.byName.insert (simpleName qn)
        (((r.byName.lookup (simpleName qn)).getD []) ++ [qn]) }

/-- A registry that was filled by a sequence of calls. -/
def registryOf (defs : List (CStr × CStr)) : Registry :=
  defs.foldl (fun r d => registryAdd r d.1 d.2) registryNew

/-- What `strategy` points to. -/
inductive Strategy where
  | importMap
  | importMapSuffix
  | sameModule
  | uniqueName
  | suffixMatch
  | fuzzy
deriving DecidableEq

/-- `cbm_resolution_t`. -/
structure Resolution where
  qualifiedName : Option CStr
  strategy : Option Strategy
  confidence : Float
  candidateCount : Nat

def emptyResult : Resolution :=
  { qualifiedName := none, strategy := none, confidence := 0, candidateCount := 0 }

/-- Whether a strategy has found a name that is not empty. -/
def Resolution.found (res : Resolution) : Bool :=
  match res.qualifiedName with
  | some qn => qn ≠ []
  | none => false

def candidateCountPenalty (base : Float) (count : Nat) : Float :=
  if count ≤ 3 then base else base * min 1.0 (3.0 / Float.ofNat count)

/-- The import map of a file. -/
abbrev Imports := List (CStr × CStr)

/-- The module of a candidate, as it stands in `cand_mod`. -/
def candMod (candidate : CStr) : CStr :=
  match splitLast dot candidate with
  | some (before, _) => before.take 511
  | none => candidate.take 511

/-- `is_import_reachable`, without its cache. -/
def reachable (vals : List CStr) (candidate : CStr) : Bool :=
  vals.any fun val => val <:+: candMod candidate ∨ candMod candidate <:+: val

abbrev ReachCache := MemoTable CStr Bool

def isImportReachable (vals : List CStr) (cache : ReachCache) (candidate : CStr) :
    Bool × ReachCache :=
  let r := memo cache candidate () fun s => (reachable vals candidate, s)
  (r.1, r.2.1)

/-- The candidates that are reachable, at most `max` of them; the loop of
`filter_import_reachable` and of `resolve_multi_with_imports`. -/
def filterImportReachable (vals : List CStr) : Nat → ReachCache → List CStr → List CStr × ReachCache
  | 0, cache, _ => ([], cache)
  | _ + 1, cache, [] => ([], cache)
  | max + 1, cache, candidate :: rest =>
      let r := isImportReachable vals cache candidate
      if r.1 then
        let more := filterImportReachable vals max r.2 rest
        (candidate :: more.1, more.2)
      else filterImportReachable vals (max + 1) r.2 rest

section Strategies

variable (r : Registry) (moduleQn : CStr)

/-- `cbm_ht_get_key` of the exact table. -/
def storedKey (candidate : CStr) : Option CStr :=
  if (r.exact.lookup candidate).isSome then some candidate else none

/-- What is written into a buffer of 512 bytes for two texts with a dot. -/
def dotted (a b : CStr) : CStr :=
  (a ++ dot :: b).take 511

def resolvedDot (resolved : CStr) : CStr :=
  (resolved ++ [dot]).take 511

def dotSuffix (suffix : CStr) : CStr :=
  (dot :: suffix).take 255

/-- The scan of `resolve_import_map` for a name from `resolved.` to `.suffix`. -/
def suffixCandidate (resolved suffix : CStr) : Option CStr :=
  ((r.byName.lookup (simpleName suffix)).getD []).find? fun qn =>
    (resolvedDot resolved).length + (dotSuffix suffix).length ≤ qn.length ∧
      resolvedDot resolved <+: qn ∧ dotSuffix suffix <:+ qn

/-- `resolve_import_map`, from the module that the prefix stands for. -/
def resolveImported (pre : CStr) (suffix : Option CStr) (resolved : CStr) : Resolution :=
  match suffix with
  | some (c :: suffix) =>
      match storedKey r (dotted resolved (c :: suffix)) with
      | some qn => ⟨some qn, some .importMap, 0.95, 1⟩
      | none =>
          match suffixCandidate r resolved (c :: suffix) with
          | some qn => ⟨some qn, some .importMapSuffix, 0.85, 1⟩
          | none => emptyResult
  | _ =>
      match storedKey r (dotted resolved pre) with
      | some qn => ⟨some qn, some .importMap, 0.95, 1⟩
      | none => emptyResult

/-- The linear scan for a key of the import map. -/
def firstValue (imports : Imports) (key : CStr) : Option CStr :=
  (imports.find? fun entry => entry.1 = key).map Prod.snd

abbrev ImportMapCache := Option (AList fun _ : CStr => CStr)

/-- The module that a prefix stands for: from the cache, if there is one. -/
def resolvedPrefix (cache : ImportMapCache) (imports : Imports) (pre : CStr) : Option CStr :=
  match cache with
  | some table => table.lookup pre
  | none => firstValue imports pre

def resolveImportMap (cache : ImportMapCache) (imports : Imports) (pre : CStr)
    (suffix : Option CStr) : Resolution :=
  if imports = [] then emptyResult
  else
    match resolvedPrefix cache imports pre with
    | some resolved => resolveImported r pre suffix resolved
    | none => emptyResult

def resolveSameModule (callee : CStr) (suffix : Option CStr) : Resolution :=
  match storedKey r (dotted moduleQn callee) with
  | some qn => ⟨some qn, some .sameModule, 0.90, 1⟩
  | none =>
      match suffix with
      | some (c :: suffix) =>
          match storedKey r (dotted moduleQn (c :: suffix)) with
          | some qn => ⟨some qn, some .sameModule, 0.90, 1⟩
          | none => emptyResult
      | _ => emptyResult

/-- The end of `resolve_multi_with_imports`, for the candidates that are reachable. -/
def pickMulti (arr filtered : List CStr) : Resolution :=
  match filtered with
  | [qn] => ⟨some qn, some .suffixMatch, candidateCountPenalty 0.55 arr.length, arr.length⟩
  | _ =>
      match if 1 < filtered.length then bestByImportDistance filtered moduleQn else none with
      | some qn =>
          ⟨some qn, some .suffixMatch, candidateCountPenalty 0.55 filtered.length, filtered.length⟩
      | none =>
          match bestByImportDistance arr moduleQn with
          | some qn =>
              ⟨some qn, some .suffixMatch, candidateCountPenalty (0.55 * 0.5) arr.length,
                arr.length⟩
          | none => emptyResult

def resolveMultiWithImports (vals : List CStr) (cache : ReachCache) (arr : List CStr) :
    Resolution × ReachCache :=
  (pickMulti moduleQn arr (filterImportReachable vals 256 cache arr).1,
    (filterImportReachable vals 256 cache arr).2)

def regMaxCandidates : Nat := 256

/-- The best of all candidates, where there are no imports. -/
def pickBest (arr : List CStr) : Resolution :=
  match bestByImportDistance arr moduleQn with
  | some qn => ⟨some qn, some .suffixMatch, candidateCountPenalty 0.55 arr.length, arr.length⟩
  | none => emptyResult

/-- `resolve_name_lookup`, for the candidates with the name. -/
def resolveAmong (vals : List CStr) (cache : ReachCache) : List CStr → Resolution × ReachCache
  | [] => (emptyResult, cache)
  | [qn] =>
      if vals = [] then (⟨some qn, some .uniqueName, 0.75, 1⟩, cache)
      else
        (⟨some qn, some .uniqueName,
          if (isImportReachable vals cache qn).1 then 0.75 else 0.75 * 0.5, 1⟩,
          (isImportReachable vals cache qn).2)
  | a :: b :: rest =>
      if regMaxCandidates < (a :: b :: rest).length then (emptyResult, cache)
      else if vals = [] then (pickBest moduleQn (a :: b :: rest), cache)
      else resolveMultiWithImports moduleQn vals cache (a :: b :: rest)

def resolveNameLookup (vals : List CStr) (cache : ReachCache) (callee : CStr) :
    Resolution × ReachCache :=
  resolveAmong moduleQn vals cache ((r.byName.lookup (simpleName callee)).getD [])

/-- The chain of `cbm_registry_resolve`, where its result is not in the cache. -/
def resolveChain (imports : Imports) (importMap : ImportMapCache) (callee : CStr)
    (cache : ReachCache) : Resolution × ReachCache :=
  let pre := (splitCallee callee).1.take 255
  let suffix := (splitCallee callee).2
  let imported := resolveImportMap r importMap imports pre suffix
  if imported.found then (imported, cache)
  else
    let same := resolveSameModule r moduleQn callee suffix
    if same.found then (same, cache)
    else resolveNameLookup r moduleQn (imports.map Prod.snd) cache callee

end Strategies

structure Caches where
  reach : ReachCache
  importMap : ImportMapCache
  resolve : MemoTable CStr Resolution

def noCaches : Caches :=
  { reach := none, importMap := none, resolve := none }

/-- `cbm_registry_import_map_cache_begin`. -/
def importMapCacheBegin (imports : Imports) : ImportMapCache :=
  if imports = [] then none
  else some (imports.foldl (fun table entry => table.insert entry.1 entry.2) ∅)

/-- The caches after the three `_begin` calls. -/
def cachesBegin (imports : Imports) : Caches :=
  { reach := some ∅, importMap := importMapCacheBegin imports, resolve := some ∅ }

/-- `cbm_registry_resolve`. -/
def registryResolve (r : Registry) (moduleQn : CStr) (imports : Imports) (caches : Caches)
    (callee : CStr) : Resolution × Caches :=
  let res := memo caches.resolve callee caches.reach
    (resolveChain r moduleQn imports caches.importMap callee)
  (res.1, { caches with resolve := res.2.1, reach := res.2.2 })

/-- `cbm_fuzzy_result_t`. -/
structure FuzzyResult where
  result : Resolution
  ok : Bool

def noMatch : FuzzyResult :=
  { result := emptyResult, ok := false }

/-- The end of `cbm_registry_fuzzy_resolve`, for the candidates that are left. -/
def pickFuzzy (moduleQn : CStr) (arr left : List CStr) : FuzzyResult :=
  match left with
  | [] =>
      match bestByImportDistance arr moduleQn with
      | some qn =>
          ⟨⟨some qn, some .fuzzy, candidateCountPenalty (0.30 * 0.5) arr.length, arr.length⟩, true⟩
      | none => noMatch
  | [qn] => ⟨⟨some qn, some .fuzzy, candidateCountPenalty 0.40 arr.length, arr.length⟩, true⟩
  | left =>
      match bestByImportDistance left moduleQn with
      | some qn => ⟨⟨some qn, some .fuzzy, candidateCountPenalty 0.30 left.length, left.length⟩, true⟩
      | none => noMatch

/-- `cbm_registry_fuzzy_resolve`, for the candidates with the name. -/
def fuzzyAmong (moduleQn : CStr) (vals : List CStr) (cache : ReachCache) :
    List CStr → FuzzyResult × ReachCache
  | [] => (noMatch, cache)
  | [qn] =>
      if vals = [] then (⟨⟨some qn, some .fuzzy, 0.40, 1⟩, true⟩, cache)
      else
        (⟨⟨some qn, some .fuzzy,
          if (isImportReachable vals cache qn).1 then 0.40 else 0.40 * 0.5, 1⟩, true⟩,
          (isImportReachable vals cache qn).2)
  | a :: b :: rest =>
      if regMaxCandidates < (a :: b :: rest).length then (noMatch, cache)
      else if vals = [] then (pickFuzzy moduleQn (a :: b :: rest) (a :: b :: rest), cache)
      else
        (pickFuzzy moduleQn (a :: b :: rest)
          (filterImportReachable vals 256 cache (a :: b :: rest)).1,
          (filterImportReachable vals 256 cache (a :: b :: rest)).2)

/-- `cbm_registry_fuzzy_resolve`, with the cache it may fill. -/
def fuzzyResolve (r : Registry) (moduleQn : CStr) (vals : List CStr) (cache : ReachCache)
    (callee : CStr) : FuzzyResult × ReachCache :=
  fuzzyAmong moduleQn vals cache ((r.byName.lookup (simpleName callee)).getD [])

/-- `cbm_registry_fuzzy_resolve`. -/
def registryFuzzyResolve (r : Registry) (moduleQn : CStr) (imports : Imports) (caches : Caches)
    (callee : CStr) : FuzzyResult × Caches :=
  let res := fuzzyResolve r moduleQn (imports.map Prod.snd) caches.reach callee
  (res.1, { caches with reach := res.2 })

inductive Call where
  | resolve (callee : CStr)
  | fuzzy (callee : CStr)

/-- What a call returns. -/
inductive Answer where
  | resolution (res : Resolution)
  | fuzzyResult (res : FuzzyResult)

def answer (r : Registry) (moduleQn : CStr) (imports : Imports) (caches : Caches) :
    Call → Answer × Caches
  | .resolve callee =>
      let res := registryResolve r moduleQn imports caches callee
      (.resolution res.1, res.2)
  | .fuzzy callee =>
      let res := registryFuzzyResolve r moduleQn imports caches callee
      (.fuzzyResult res.1, res.2)

/-- What the calls of a sequence return. -/
def answers (r : Registry) (moduleQn : CStr) (imports : Imports) :
    Caches → List Call → List Answer
  | _, [] => []
  | caches, call :: calls =>
      let res := answer r moduleQn imports caches call
      res.1 :: answers r moduleQn imports res.2 calls

end Pipeline
end CodebaseMemory
