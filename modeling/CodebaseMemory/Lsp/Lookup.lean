import CodebaseMemory.Lsp.TypeRegistry
import Mathlib.Data.List.DropRight

/-!
# What the look-ups of a type registry find

A registry that is built by a sequence of additions, with `finalize` anywhere
in between, has an index over what was there at the last `finalize`.
-/

namespace CodebaseMemory
namespace Lsp

open Lib
open Sqlite (CStr bytesOf)

/-- A call that changes a registry. -/
inductive Op where
  | addFunc (f : RegisteredFunc)
  | addType (t : RegisteredType)
  | finalize

/-- The registry after one call. -/
def applyOp (reg : TypeRegistry) : Op → TypeRegistry
  | .addFunc f => Lsp.addFunc reg f
  | .addType t => Lsp.addType reg t
  | .finalize => Lsp.finalize reg

/-- The registry after a sequence of calls. -/
def build (ops : List Op) : TypeRegistry :=
  ops.foldl applyOp registryInit

def Op.func? : Op → Option RegisteredFunc
  | .addFunc f => some f
  | _ => none

def Op.type? : Op → Option RegisteredType
  | .addType t => some t
  | _ => none

def Op.isFinalize : Op → Bool
  | .finalize => true
  | _ => false

/-- The sequence without its calls of `finalize`. -/
def unfinalized (ops : List Op) : List Op :=
  ops.filter fun op => !op.isFinalize

/-- The calls up to the last `finalize`. -/
def upToFinalize (ops : List Op) : List Op :=
  ops.rdropWhile fun op => !op.isFinalize

def funcsOf (ops : List Op) : List RegisteredFunc :=
  ops.filterMap Op.func?

def typesOf (ops : List Op) : List RegisteredType :=
  ops.filterMap Op.type?

/-- The functions that were registered at the last `finalize`. -/
def indexedFuncs (ops : List Op) : List RegisteredFunc :=
  funcsOf (upToFinalize ops)

/-- The types that were registered at the last `finalize`. -/
def indexedTypes (ops : List Op) : List RegisteredType :=
  typesOf (upToFinalize ops)

theorem build_append_singleton (ops : List Op) (op : Op) :
    build (ops ++ [op]) = applyOp (build ops) op := by
  rw [build, List.foldl_append]
  rfl

theorem upToFinalize_append_finalize (ops : List Op) :
    upToFinalize (ops ++ [.finalize]) = ops ++ [.finalize] :=
  List.rdropWhile_concat_neg _ _ _ (by simp [Op.isFinalize])

theorem upToFinalize_append_add (ops : List Op) {op : Op} (h : op.isFinalize = false) :
    upToFinalize (ops ++ [op]) = upToFinalize ops :=
  List.rdropWhile_concat_pos _ _ _ (by simp [h])

theorem upToFinalize_unfinalized (ops : List Op) : upToFinalize (unfinalized ops) = [] := by
  rw [upToFinalize, List.rdropWhile_eq_nil_iff]
  intro op hop
  exact (List.mem_filter.mp hop).2

theorem indexedFuncs_isPrefix (ops : List Op) : indexedFuncs ops <+: funcsOf ops :=
  (List.rdropWhile_prefix _ _).filterMap _

theorem indexedTypes_isPrefix (ops : List Op) : indexedTypes ops <+: typesOf ops :=
  (List.rdropWhile_prefix _ _).filterMap _

theorem funcsOf_unfinalized (ops : List Op) : funcsOf (unfinalized ops) = funcsOf ops := by
  rw [funcsOf, unfinalized, List.filterMap_filter, funcsOf]
  congr 1
  funext op
  cases op <;> rfl

theorem typesOf_unfinalized (ops : List Op) : typesOf (unfinalized ops) = typesOf ops := by
  rw [typesOf, unfinalized, List.filterMap_filter, typesOf]
  congr 1
  funext op
  cases op <;> rfl

/-- A registry, read off the calls that built it. -/
structure BuiltBy (ops : List Op) (reg : TypeRegistry) : Prop where
  funcs_eq : reg.funcs = funcsOf ops
  types_eq : reg.types = typesOf ops
  funcQn_eq : reg.funcQn = buildQnIndex none RegisteredFunc.qualifiedName (indexedFuncs ops)
  typeQn_eq : reg.typeQn = buildQnIndex none RegisteredType.qualifiedName (indexedTypes ops)
  method_eq : reg.method = buildMethodIndex none (indexedFuncs ops)

theorem buildQnIndex_again {α : Type} {qn : α → CStr} {before after : List α}
    (h : before <+: after) :
    buildQnIndex (buildQnIndex none qn before) qn after = buildQnIndex none qn after := by
  by_cases hafter : after.length = 0
  · have hbefore : before.length = 0 := Nat.eq_zero_of_le_zero (hafter ▸ h.length_le)
    simp [buildQnIndex, hafter, hbefore]
  · simp [buildQnIndex, hafter]

theorem buildMethodIndex_again {before after : List RegisteredFunc} (h : before <+: after) :
    buildMethodIndex (buildMethodIndex none before) after = buildMethodIndex none after := by
  by_cases hafter : after.length = 0
  · have hbefore : before.length = 0 := Nat.eq_zero_of_le_zero (hafter ▸ h.length_le)
    simp [buildMethodIndex, hafter, hbefore]
  · simp [buildMethodIndex, hafter]

theorem BuiltBy.add {ops : List Op} {reg : TypeRegistry} (h : BuiltBy ops reg) {op : Op}
    (hop : op.isFinalize = false) : BuiltBy (ops ++ [op]) (applyOp reg op) := by
  have hindexed : indexedFuncs (ops ++ [op]) = indexedFuncs ops := by
    rw [indexedFuncs, upToFinalize_append_add ops hop, indexedFuncs]
  have hindexed' : indexedTypes (ops ++ [op]) = indexedTypes ops := by
    rw [indexedTypes, upToFinalize_append_add ops hop, indexedTypes]
  have hfuncs : funcsOf (ops ++ [op]) = funcsOf ops ++ funcsOf [op] := List.filterMap_append
  have htypes : typesOf (ops ++ [op]) = typesOf ops ++ typesOf [op] := List.filterMap_append
  cases op with
  | addFunc f =>
      exact
        { funcs_eq := by rw [hfuncs, ← h.funcs_eq]; rfl
          types_eq := by rw [htypes, ← h.types_eq]; exact (List.append_nil _).symm
          funcQn_eq := by rw [hindexed]; exact h.funcQn_eq
          typeQn_eq := by rw [hindexed']; exact h.typeQn_eq
          method_eq := by rw [hindexed]; exact h.method_eq }
  | addType t =>
      exact
        { funcs_eq := by rw [hfuncs, ← h.funcs_eq]; exact (List.append_nil _).symm
          types_eq := by rw [htypes, ← h.types_eq]; rfl
          funcQn_eq := by rw [hindexed]; exact h.funcQn_eq
          typeQn_eq := by rw [hindexed']; exact h.typeQn_eq
          method_eq := by rw [hindexed]; exact h.method_eq }
  | finalize => exact absurd hop (by simp [Op.isFinalize])

theorem BuiltBy.finalize {ops : List Op} {reg : TypeRegistry} (h : BuiltBy ops reg) :
    BuiltBy (ops ++ [.finalize]) (finalize reg) := by
  have hfuncs : funcsOf (ops ++ [.finalize]) = funcsOf ops :=
    List.filterMap_append.trans (List.append_nil _)
  have htypes : typesOf (ops ++ [.finalize]) = typesOf ops :=
    List.filterMap_append.trans (List.append_nil _)
  have hindexed : indexedFuncs (ops ++ [.finalize]) = funcsOf ops := by
    rw [indexedFuncs, upToFinalize_append_finalize, hfuncs]
  have hindexed' : indexedTypes (ops ++ [.finalize]) = typesOf ops := by
    rw [indexedTypes, upToFinalize_append_finalize, htypes]
  exact
    { funcs_eq := h.funcs_eq.trans hfuncs.symm
      types_eq := h.types_eq.trans htypes.symm
      funcQn_eq := by
        rw [hindexed, Lsp.finalize, h.funcQn_eq, h.funcs_eq]
        exact buildQnIndex_again (indexedFuncs_isPrefix ops)
      typeQn_eq := by
        rw [hindexed', Lsp.finalize, h.typeQn_eq, h.types_eq]
        exact buildQnIndex_again (indexedTypes_isPrefix ops)
      method_eq := by
        rw [hindexed, Lsp.finalize, h.method_eq, h.funcs_eq]
        exact buildMethodIndex_again (indexedFuncs_isPrefix ops) }

theorem builtBy_build (ops : List Op) : BuiltBy ops (build ops) := by
  induction ops using List.reverseRecOn with
  | nil => exact ⟨rfl, rfl, rfl, rfl, rfl⟩
  | append_singleton ops op ih =>
      rw [build_append_singleton]
      cases hop : op.isFinalize with
      | false => exact ih.add hop
      | true =>
          cases op with
          | finalize => exact ih.finalize
          | addFunc f => exact absurd hop (by simp [Op.isFinalize])
          | addType t => exact absurd hop (by simp [Op.isFinalize])

section Search

variable {α κ : Type} (key : α → Option κ) (hash : κ → UInt64)

theorem slotOf_lt (count : Nat) (h : UInt64) :
    slotOf (bucketCountFor count) h < bucketCountFor count := by
  have hpos : 0 < bucketCountFor count := by
    rw [bucketCountFor]
    split <;> omega
  have hle : slotOf (bucketCountFor count) h ≤ bucketCountFor count - 1 := Nat.and_le_right
  omega

theorem mem_indexItems {l : List α} {item : UInt64 × Nat} :
    item ∈ indexItems key hash l ↔
      ∃ a k, l[item.2]? = some a ∧ key a = some k ∧ item.1 = hash k := by
  rw [indexItems, List.mem_filterMap]
  constructor
  · rintro ⟨⟨a, i⟩, ha, hitem⟩
    obtain ⟨k, hk, rfl⟩ := Option.map_eq_some_iff.mp hitem
    exact ⟨a, k, List.mem_zipIdx_iff_getElem?.mp ha, hk, rfl⟩
  · rintro ⟨a, k, ha, hk, hhash⟩
    refine ⟨(a, item.2), List.mem_zipIdx_iff_getElem?.mpr ha, ?_⟩
    rw [hk, Option.map_some, ← hhash]

theorem pairwise_indexItems (l : List α) :
    ((indexItems key hash l).map Prod.snd).Pairwise (· < ·) := by
  have hzip : l.zipIdx.Pairwise fun a b => a.2 < b.2 := by
    rw [← List.pairwise_map, List.zipIdx_map_snd]
    exact List.pairwise_lt_range'
  rw [List.pairwise_map, indexItems, List.pairwise_filterMap]
  refine hzip.imp fun {a b} hab x hx y hy => ?_
  obtain ⟨_, _, rfl⟩ := Option.map_eq_some_iff.mp hx
  obtain ⟨_, _, rfl⟩ := Option.map_eq_some_iff.mp hy
  exact hab

variable [DecidableEq κ]

/-- The test that the hashed paths make on an entry of a chain. -/
def hasKey (l : List α) (k : κ) (i : Nat) : Bool :=
  (l[i]?).any fun a => key a = some k

theorem hasKey_append {pre : List α} (post : List α) {k : κ} {i : Nat} {a : α}
    (ha : pre[i]? = some a) : hasKey key (pre ++ post) k i = true ↔ key a = some k := by
  rw [hasKey, List.getElem?_append_left (List.getElem?_eq_some_iff.mp ha).1, ha]
  simp

theorem hash_of_hasKey {pre : List α} (post : List α) {k : κ} :
    ∀ item ∈ indexItems key hash pre, hasKey key (pre ++ post) k item.2 = true →
      item.1 = hash k := by
  intro item hitem htest
  obtain ⟨a, k', ha, hk', hhash⟩ := (mem_indexItems key hash).mp hitem
  have hk : key a = some k := (hasKey_append key post ha).mp htest
  obtain rfl : k' = k := Option.some.inj (hk'.symm.trans hk)
  exact hhash

/-- The search in the index over `pre`. -/
def indexSearch (pre post : List α) (k : κ) : Option Nat :=
  (buildTable key hash pre).findIn (slotOf (bucketCountFor pre.length)) (hash k)
    (hasKey key (pre ++ post) k)

theorem indexSearch_eq_some {pre post : List α} {k : κ} {i : Nat}
    (h : indexSearch key hash pre post k = some i) :
    (∃ a, pre[i]? = some a ∧ key a = some k) ∧
      ∀ j a, pre[j]? = some a → key a = some k → j ≤ i := by
  obtain ⟨⟨hi, htest⟩, hmax⟩ := findIn_build_eq_some (pairwise_indexItems key hash pre)
    (slotOf_lt _ _) (hash_of_hasKey key hash post) h
  constructor
  · obtain ⟨item, hitem, rfl⟩ := List.mem_map.mp hi
    obtain ⟨a, _, ha, _, _⟩ := (mem_indexItems key hash).mp hitem
    exact ⟨a, ha, (hasKey_append key post ha).mp htest⟩
  · intro j a ha hk
    have hj : (hash k, j) ∈ indexItems key hash pre :=
      (mem_indexItems key hash).mpr ⟨a, k, ha, hk, rfl⟩
    exact hmax j (List.mem_map.mpr ⟨_, hj, rfl⟩) ((hasKey_append key post ha).mpr hk)

theorem indexSearch_eq_none {pre post : List α} {k : κ} :
    indexSearch key hash pre post k = none ↔ ∀ a ∈ pre, key a ≠ some k := by
  rw [indexSearch, buildTable,
    findIn_build (slotOf_lt _ _) (hash_of_hasKey key hash post), List.find?_eq_none]
  constructor
  · intro h a ha hk
    obtain ⟨i, hi⟩ := List.mem_iff_getElem?.mp ha
    have hitem : (hash k, i) ∈ indexItems key hash pre :=
      (mem_indexItems key hash).mpr ⟨a, k, hi, hk, rfl⟩
    exact h i (List.mem_reverse.mpr (List.mem_map.mpr ⟨_, hitem, rfl⟩))
      ((hasKey_append key post hi).mpr hk)
  · intro h i hi htest
    obtain ⟨item, hitem, rfl⟩ := List.mem_map.mp (List.mem_reverse.mp hi)
    obtain ⟨a, _, ha, _, _⟩ := (mem_indexItems key hash).mp hitem
    exact h a (List.mem_of_getElem? ha) ((hasKey_append key post ha).mp htest)

/-- The index over the entries `pre`; there is none over no entries. -/
def IndexOver (pre : List α) : Option RegistryIndex → Prop
  | none => pre = []
  | some ix =>
      pre ≠ [] ∧ ix.bucketCount = bucketCountFor pre.length ∧ ix.table = buildTable key hash pre

theorem scanFrom_zero (p : α → Bool) (l : List α) : scanFrom p l 0 = l.findIdx? p := by
  simp [scanFrom]

theorem scanFrom_length (p : α → Bool) (pre post : List α) :
    scanFrom p (pre ++ post) pre.length = (post.findIdx? p).map (· + pre.length) := by
  rw [scanFrom, List.drop_left]

theorem lookupSelf_some (pre post : List α) {ix : RegistryIndex}
    (hix : IndexOver key hash pre (some ix)) (k : κ) :
    lookupSelf (some ix) pre.length (hash k) (fun a => key a = some k) (pre ++ post) =
      (indexSearch key hash pre post k).or
        ((post.findIdx? fun a => key a = some k).map (· + pre.length)) := by
  have hsearch : (ix.table.findIn (slotOf ix.bucketCount) (hash k) fun i =>
      ((pre ++ post)[i]?).any fun a => key a = some k) = indexSearch key hash pre post k := by
    rw [hix.2.1, hix.2.2]
    rfl
  rw [lookupSelf, hsearch, scanFrom_length]
  cases indexSearch key hash pre post k <;> rfl

theorem indexSearch_eq_findIdx_iff (pre post : List α) :
    (∀ k, indexSearch key hash pre post k = pre.findIdx? fun a => key a = some k) ↔
      (pre.filterMap key).Nodup := by
  rw [List.Nodup, List.pairwise_filterMap, List.pairwise_iff_getElem]
  constructor
  · intro h i j hi hj hij k hk k' hk' heq
    subst heq
    cases hfind : pre.findIdx? (fun a => key a = some k) with
    | none =>
        have hno := List.findIdx?_eq_none_iff.mp hfind pre[i] (List.getElem_mem hi)
        simp [hk] at hno
    | some m =>
        obtain ⟨hm, hkm, hfirst⟩ := List.findIdx?_eq_some_iff_getElem.mp hfind
        have hlast := (indexSearch_eq_some key hash ((h k).trans hfind)).2 j pre[j]
          (List.getElem?_eq_getElem hj) hk'
        exact hfirst i (by omega) (by simp [hk])
  · intro h k
    cases hsearch : indexSearch key hash pre post k with
    | none =>
        symm
        rw [List.findIdx?_eq_none_iff]
        intro a ha
        simpa using (indexSearch_eq_none key hash).mp hsearch a ha
    | some i =>
        obtain ⟨⟨a, ha, hk⟩, _⟩ := indexSearch_eq_some key hash hsearch
        obtain ⟨hi, rfl⟩ := List.getElem?_eq_some_iff.mp ha
        symm
        rw [List.findIdx?_eq_some_iff_getElem]
        refine ⟨hi, by simpa using hk, fun j hj hkj => ?_⟩
        exact h j i (by omega) hi hj k (by simpa using hkj) k hk rfl

theorem lookupSelf_agrees_iff (pre post : List α) {index : Option RegistryIndex}
    (hix : IndexOver key hash pre index) :
    (∀ k, lookupSelf index pre.length (hash k) (fun a => key a = some k) (pre ++ post) =
      scanFrom (fun a => key a = some k) (pre ++ post) 0) ↔ (pre.filterMap key).Nodup := by
  cases index with
  | none =>
      obtain rfl : pre = [] := hix
      exact ⟨fun _ => List.nodup_nil, fun _ _ => rfl⟩
  | some ix =>
      rw [← indexSearch_eq_findIdx_iff key hash pre post]
      refine forall_congr' fun k => ?_
      rw [lookupSelf_some key hash pre post hix, scanFrom_zero, List.findIdx?_append]
      have hsame : indexSearch key hash pre post k = none ↔
          pre.findIdx? (fun a => key a = some k) = none := by
        rw [indexSearch_eq_none, List.findIdx?_eq_none_iff]
        simp
      cases hsearch : indexSearch key hash pre post k with
      | none =>
          rw [hsame.mp hsearch]
          simp
      | some i =>
          cases hfind : pre.findIdx? (fun a => key a = some k) with
          | none => exact absurd (hsame.mpr hfind) (by simp [hsearch])
          | some j => simp

end Search

section Overloads

variable {κ : Type} [DecidableEq κ] (key : RegisteredFunc → Option κ) (hash : κ → UInt64)

/-- The entries that the look-ups of overloads see: where there is an index, those in it. -/
def visible {α : Type} (pre post : List α) : List α :=
  if pre = [] then post else pre

theorem overloads_ne_nil_iff (pre post : List RegisteredFunc) {ix : RegistryIndex}
    (hix : IndexOver key hash pre (some ix)) (k : κ) :
    overloads ix (hash k) (fun f => key f = some k) (pre ++ post) ≠ [] ↔
      ∃ f ∈ pre, key f = some k := by
  have hmem : (∃ entry, entry ∈ overloads ix (hash k) (fun f => key f = some k) (pre ++ post)) ↔
      ∃ e ∈ ix.table.chain (slotOf ix.bucketCount (hash k)),
        e.hash = hash k ∧ hasKey key (pre ++ post) k e.payloadIndex = true := by
    simp only [overloads, List.mem_filterMap]
    constructor
    · rintro ⟨entry, e, he, hentry⟩
      refine ⟨e, he, ?_⟩
      split at hentry
      · next hhash =>
          refine ⟨hhash, ?_⟩
          cases hf : (pre ++ post)[e.payloadIndex]? with
          | none => simp [hf] at hentry
          | some f =>
              by_cases hk : key f = some k
              · simp [hasKey, hf, hk]
              · simp [hf, hk] at hentry
      · simp at hentry
    · rintro ⟨e, he, hhash, htest⟩
      cases hf : (pre ++ post)[e.payloadIndex]? with
      | none => simp [hasKey, hf] at htest
      | some f =>
          have hk : key f = some k := by simpa [hasKey, hf] using htest
          exact ⟨(f, e.payloadIndex), e, he, by simp [hhash, hf, hk]⟩
  have hne : overloads ix (hash k) (fun f => key f = some k) (pre ++ post) ≠ [] ↔
      ∃ entry, entry ∈ overloads ix (hash k) (fun f => key f = some k) (pre ++ post) :=
    ⟨List.exists_mem_of_ne_nil _, fun ⟨_, hentry⟩ => List.ne_nil_of_mem hentry⟩
  rw [hne, hmem, hix.2.1, hix.2.2, buildTable,
    mem_chain_build (slotOf_lt _ _) (hash_of_hasKey key hash post)]
  constructor
  · rintro ⟨item, hitem, htest⟩
    obtain ⟨f, _, hf, _, _⟩ := (mem_indexItems key hash).mp hitem
    exact ⟨f, List.mem_of_getElem? hf, (hasKey_append key post hf).mp htest⟩
  · rintro ⟨f, hf, hk⟩
    obtain ⟨i, hi⟩ := List.mem_iff_getElem?.mp hf
    exact ⟨(hash k, i), (mem_indexItems key hash).mpr ⟨f, k, hi, hk, rfl⟩,
      (hasKey_append key post hi).mpr hk⟩

theorem isSome_lower (old : Option Nat) (i : Nat) : (lower old i).isSome = true := by
  cases old with
  | none => rfl
  | some j =>
      rw [lower]
      split <;> rfl

theorem isSome_firstPi_add (argCount : Nat) (s : ArgsPick) (entry : RegisteredFunc × Nat) :
    (s.add argCount entry).firstPi.isSome = true := by
  have h := isSome_lower s.firstPi entry.2
  simp only [ArgsPick.add]
  split
  · exact h
  · split <;> exact h

theorem isSome_sel_foldl_args (argCount : Nat) (l : List (RegisteredFunc × Nat)) :
    (l.foldl (ArgsPick.add argCount) ⟨none, none, none⟩).sel.isSome = true ↔ l ≠ [] := by
  induction l using List.reverseRecOn with
  | nil => simp [ArgsPick.sel]
  | append_singleton l entry _ =>
      rw [List.foldl_append, List.foldl_cons, List.foldl_nil, ArgsPick.sel]
      simp [isSome_firstPi_add]

theorem isSome_firstPi_addTypes (score : RegisteredFunc → Nat) (s : TypesPick)
    (entry : RegisteredFunc × Nat) : (s.add score entry).firstPi.isSome = true := by
  have h := isSome_lower s.firstPi entry.2
  simp only [TypesPick.add]
  split <;> exact h

theorem isSome_sel_foldl_types (score : RegisteredFunc → Nat) (l : List (RegisteredFunc × Nat)) :
    (l.foldl (TypesPick.add score) ⟨none, 0, none⟩).sel.isSome = true ↔ l ≠ [] := by
  induction l using List.reverseRecOn with
  | nil => simp [TypesPick.sel]
  | append_singleton l entry _ =>
      rw [List.foldl_append, List.foldl_cons, List.foldl_nil, TypesPick.sel]
      split
      · next h => simpa using h.1
      · simp [isSome_firstPi_addTypes]

theorem isSome_scanByArgs (argCount : Nat) (p : RegisteredFunc → Bool)
    (l : List (RegisteredFunc × Nat)) :
    ∀ rangeMatch firstMatch : Option Nat,
      (scanByArgs argCount p rangeMatch firstMatch l).isSome = true ↔
        (rangeMatch.isSome = true ∨ firstMatch.isSome = true) ∨ ∃ entry ∈ l, p entry.1 = true := by
  induction l with
  | nil =>
      intro rangeMatch firstMatch
      simp [scanByArgs]
  | cons entry l ih =>
      intro rangeMatch firstMatch
      obtain ⟨f, i⟩ := entry
      rw [scanByArgs, List.exists_mem_cons_iff]
      by_cases hp : p f = true
      · rw [if_pos hp]
        split
        · simp [hp]
        · rw [ih]
          simp [hp]
      · rw [if_neg hp, ih]
        simp [hp]

theorem isSome_scanByTypes (score : RegisteredFunc → Nat) (p : RegisteredFunc → Bool)
    (l : List (RegisteredFunc × Nat)) :
    ∀ s : TypesPick, (scanByTypes score p s l).isSome = true ↔
      (s.bestPi.isSome = true ∨ s.firstPi.isSome = true) ∨ ∃ entry ∈ l, p entry.1 = true := by
  induction l with
  | nil =>
      intro s
      simp [scanByTypes]
  | cons entry l ih =>
      intro s
      obtain ⟨f, i⟩ := entry
      rw [scanByTypes, List.exists_mem_cons_iff]
      by_cases hp : p f = true
      · rw [if_pos hp, ih]
        split <;> simp [hp]
      · rw [if_neg hp, ih]
        simp [hp]

theorem exists_mem_zipIdx (p : RegisteredFunc → Bool) (funcs : List RegisteredFunc) :
    (∃ entry ∈ funcs.zipIdx, p entry.1 = true) ↔ ∃ f ∈ funcs, p f = true := by
  constructor
  · rintro ⟨⟨f, i⟩, hf, hp⟩
    exact ⟨f, List.mem_of_getElem? (List.mem_zipIdx_iff_getElem?.mp hf), hp⟩
  · rintro ⟨f, hf, hp⟩
    obtain ⟨i, hi⟩ := List.mem_iff_getElem?.mp hf
    exact ⟨(f, i), List.mem_zipIdx_iff_getElem?.mpr hi, hp⟩

theorem isSome_byArgsSelf_iff (pre post : List RegisteredFunc) {index : Option RegistryIndex}
    (hix : IndexOver key hash pre index) (k : κ)
    (argCount : Nat) :
    (byArgsSelf index (hash k) (fun f => key f = some k) argCount (pre ++ post)).isSome = true ↔
      ∃ f ∈ visible pre post, key f = some k := by
  cases index with
  | none =>
      obtain rfl : pre = [] := hix
      have hzip := exists_mem_zipIdx (fun f => key f = some k) post
      simp only [decide_eq_true_eq] at hzip
      rw [byArgsSelf, isSome_scanByArgs, visible, if_pos rfl, ← hzip]
      simp
  | some ix =>
      rw [byArgsSelf, isSome_sel_foldl_args, overloads_ne_nil_iff key hash pre post hix, visible,
        if_neg hix.1]

theorem isSome_byTypesSelf_iff (pre post : List RegisteredFunc) {index : Option RegistryIndex}
    (hix : IndexOver key hash pre index) (k : κ)
    (score : RegisteredFunc → Nat) :
    (byTypesSelf index (hash k) (fun f => key f = some k) score (pre ++ post)).isSome = true ↔
      ∃ f ∈ visible pre post, key f = some k := by
  cases index with
  | none =>
      obtain rfl : pre = [] := hix
      have hzip := exists_mem_zipIdx (fun f => key f = some k) post
      simp only [decide_eq_true_eq] at hzip
      rw [byTypesSelf, isSome_scanByTypes, visible, if_pos rfl, ← hzip]
      simp
  | some ix =>
      rw [byTypesSelf, isSome_sel_foldl_types, overloads_ne_nil_iff key hash pre post hix, visible,
        if_neg hix.1]

end Overloads

end Lsp
end CodebaseMemory
