import CodebaseMemory.Lsp.Finalize

/-!
# Overloads along a chain and overloads in a scan

The look-ups that choose among overloads walk the chain of a hash where there
is an index and the whole array where there is none.  The chain of a finalized
registry has the overloads of the name in descending order, so the hashed loops
keep the lowest index of each category, and the linear ones the first.
-/

namespace CodebaseMemory
namespace Lsp

open Lib
open Sqlite (CStr bytesOf)

/-- The registry without its indexes: each look-up takes its linear path. -/
def TypeRegistry.linear (reg : TypeRegistry) : TypeRegistry :=
  { reg with funcQn := none, typeQn := none, method := none }

/-- The second registry is the first one, or the first one was finalized after its last
registration and the second is the same without its indexes. -/
inductive MayScan : TypeRegistry → TypeRegistry → Prop
  | same (reg : TypeRegistry) : MayScan reg reg
  | scan (ops : List Op) : MayScan (build (ops ++ [.finalize])) (build (ops ++ [.finalize])).linear

/-- Two chains of registries have the same overloads for all names, counts and types. -/
structure SameOverloads (regs scanned : List TypeRegistry) : Prop where
  methodByArgs : ∀ receiver name argCount,
    lookupMethodByArgs regs receiver name argCount =
      lookupMethodByArgs scanned receiver name argCount
  methodByTypes : ∀ receiver name argTypes argCount,
    lookupMethodByTypes regs receiver name argTypes argCount =
      lookupMethodByTypes scanned receiver name argTypes argCount
  symbolByArgs : ∀ package name argCount,
    lookupSymbolByArgs regs package name argCount =
      lookupSymbolByArgs scanned package name argCount
  symbolByTypes : ∀ package name argTypes argCount,
    lookupSymbolByTypes regs package name argTypes argCount =
      lookupSymbolByTypes scanned package name argTypes argCount

section Visit

variable {κ : Type} [DecidableEq κ] (key : RegisteredFunc → Option κ) (hash : κ → UInt64)

/-- What the walk along a chain does with one entry of it. -/
def visit (h : UInt64) (p : RegisteredFunc → Bool) (funcs : List RegisteredFunc)
    (item : UInt64 × Nat) : Option (RegisteredFunc × Nat) :=
  if item.1 = h then
    match funcs[item.2]? with
    | some f => if p f then some (f, item.2) else none
    | none => none
  else none

theorem overloads_eq_visit (ix : RegistryIndex) (h : UInt64) (p : RegisteredFunc → Bool)
    (funcs : List RegisteredFunc) :
    overloads ix h p funcs =
      ((ix.table.chain (slotOf ix.bucketCount h)).map
        fun e => (e.hash, e.payloadIndex)).filterMap (visit h p funcs) := by
  rw [List.filterMap_map]
  rfl

theorem visit_item (funcs : List RegisteredFunc) (k : κ) {f : RegisteredFunc} {i : Nat}
    (hi : funcs[i]? = some f) :
    (((key f).map fun k' => (hash k', i)).bind
      (visit (hash k) (fun g => key g = some k) funcs)) =
      if key f = some k then some (f, i) else none := by
  cases hkey : key f with
  | none => simp
  | some k' =>
      by_cases hk : k' = k
      · subst hk
        simp [visit, hi, hkey]
      · simp [visit, hi, hkey, hk]

theorem overloads_build {ix : RegistryIndex} {funcs : List RegisteredFunc}
    (hix : IndexOver key hash funcs (some ix)) (k : κ) :
    overloads ix (hash k) (fun f => key f = some k) funcs =
      (funcs.zipIdx.filter fun entry => key entry.1 = some k).reverse := by
  have hslots : ((indexItems key hash funcs).filter fun item =>
        slotOf (bucketCountFor funcs.length) item.1 =
          slotOf (bucketCountFor funcs.length) (hash k)).filterMap
          (visit (hash k) (fun f => key f = some k) funcs) =
      (indexItems key hash funcs).filterMap
        (visit (hash k) (fun f => key f = some k) funcs) := by
    rw [List.filterMap_filter]
    refine List.filterMap_congr fun item _ => ?_
    by_cases hhash : item.1 = hash k
    · simp [hhash]
    · simp [visit, hhash]
  have hitems : (indexItems key hash funcs).filterMap
        (visit (hash k) (fun f => key f = some k) funcs) =
      funcs.zipIdx.filter fun entry => key entry.1 = some k := by
    rw [indexItems, List.filterMap_filterMap, ← List.filterMap_eq_filter]
    refine List.filterMap_congr fun entry hentry => ?_
    rw [visit_item key hash funcs k (List.mem_zipIdx_iff_getElem?.mp hentry)]
    simp [Option.guard]
  rw [overloads_eq_visit, hix.2.1, hix.2.2, buildTable, chain_build _ _ (slotOf_lt _ _),
    List.filterMap_reverse, hslots, hitems]

end Visit

theorem scanByArgs_filter (argCount : Nat) (p : RegisteredFunc → Bool)
    (l : List (RegisteredFunc × Nat)) :
    ∀ rangeMatch firstMatch : Option Nat,
      scanByArgs argCount p rangeMatch firstMatch l =
        scanByArgs argCount (fun _ => true) rangeMatch firstMatch (l.filter fun e => p e.1) := by
  induction l with
  | nil =>
      intro rangeMatch firstMatch
      rfl
  | cons entry l ih =>
      intro rangeMatch firstMatch
      obtain ⟨f, i⟩ := entry
      by_cases hp : p f = true
      · rw [List.filter_cons, if_pos hp, scanByArgs, if_pos hp, scanByArgs, if_pos rfl]
        by_cases hexact : countFuncParams f = argCount
        · rw [if_pos hexact, if_pos hexact]
        · rw [if_neg hexact, if_neg hexact]
          exact ih _ _
      · rw [List.filter_cons, if_neg hp, scanByArgs, if_neg hp]
        exact ih _ _

theorem scanByTypes_filter (score : RegisteredFunc → Nat) (p : RegisteredFunc → Bool)
    (l : List (RegisteredFunc × Nat)) :
    ∀ s : TypesPick, scanByTypes score p s l =
      scanByTypes score (fun _ => true) s (l.filter fun e => p e.1) := by
  induction l with
  | nil =>
      intro s
      rfl
  | cons entry l ih =>
      intro s
      obtain ⟨f, i⟩ := entry
      by_cases hp : p f = true
      · rw [List.filter_cons, if_pos hp, scanByTypes, if_pos hp, scanByTypes, if_pos rfl]
        exact ih _
      · rw [List.filter_cons, if_neg hp, scanByTypes, if_neg hp]
        exact ih _

section ByArgs

variable (argCount : Nat)

/-- The number of arguments is right. -/
def isExact (entry : RegisteredFunc × Nat) : Bool :=
  countFuncParams entry.1 = argCount

/-- The number of arguments is not the number of parameters, but the defaults allow it. -/
def inRange (entry : RegisteredFunc × Nat) : Bool :=
  ¬ countFuncParams entry.1 = argCount ∧
    (minArgs entry.1 ≤ argCount ∧ argCount ≤ countFuncParams entry.1)

/-- The first entries of the three categories. -/
def firstOfEach (l : List (RegisteredFunc × Nat)) : ArgsPick :=
  { exactPi := (l.find? (isExact argCount)).map Prod.snd
    rangePi := (l.find? (inRange argCount)).map Prod.snd
    firstPi := l.head?.map Prod.snd }

variable {i : Nat}
variable {l : List (RegisteredFunc × Nat)}

theorem lower_eq {old : Option Nat} (h : ∀ j ∈ old, i < j) : lower old i = some i := by
  cases old with
  | none => rfl
  | some j => rw [lower, if_pos (h j rfl)]

theorem lt_of_find (hl : ∀ e ∈ l, i < e.2) (p : RegisteredFunc × Nat → Bool) :
    ∀ j ∈ (l.find? p).map Prod.snd, i < j := by
  intro j hj
  obtain ⟨e, he, rfl⟩ := Option.map_eq_some_iff.mp hj
  exact hl e (List.mem_of_find?_eq_some he)

theorem lt_of_head (hl : ∀ e ∈ l, i < e.2) : ∀ j ∈ l.head?.map Prod.snd, i < j := by
  intro j hj
  obtain ⟨e, he, rfl⟩ := Option.map_eq_some_iff.mp hj
  exact hl e (List.mem_of_head? he)

theorem firstOfEach_add {entry : RegisteredFunc × Nat} (h : ∀ e ∈ l, entry.2 < e.2) :
    (firstOfEach argCount l).add argCount entry = firstOfEach argCount (entry :: l) := by
  have hexact := lower_eq (lt_of_find h (isExact argCount))
  have hrange := lower_eq (lt_of_find h (inRange argCount))
  have hfirst := lower_eq (lt_of_head h)
  rw [ArgsPick.add, firstOfEach, firstOfEach, List.find?_cons, List.find?_cons]
  by_cases he : countFuncParams entry.1 = argCount
  · simp [isExact, inRange, he, hexact, hfirst]
  · by_cases hr : minArgs entry.1 ≤ argCount ∧ argCount ≤ countFuncParams entry.1
    · simp [isExact, inRange, he, hr, hrange, hfirst]
    · simp [isExact, inRange, he, hr, hfirst]

theorem foldl_reverse_args (hl : l.Pairwise fun a b => a.2 < b.2) :
    l.reverse.foldl (ArgsPick.add argCount) ⟨none, none, none⟩ = firstOfEach argCount l := by
  induction l with
  | nil => rfl
  | cons entry l ih =>
      obtain ⟨hentry, hrest⟩ := List.pairwise_cons.mp hl
      rw [List.reverse_cons, List.foldl_append, ih hrest]
      exact firstOfEach_add argCount hentry

theorem scanByArgs_eq (l : List (RegisteredFunc × Nat)) :
    ∀ rangeMatch firstMatch : Option Nat,
      scanByArgs argCount (fun _ => true) rangeMatch firstMatch l =
        ((firstOfEach argCount l).exactPi.or
          ((rangeMatch.or (firstOfEach argCount l).rangePi).or
            (firstMatch.or (firstOfEach argCount l).firstPi))) := by
  induction l with
  | nil =>
      intro rangeMatch firstMatch
      simp [scanByArgs, firstOfEach]
  | cons entry l ih =>
      intro rangeMatch firstMatch
      obtain ⟨f, i⟩ := entry
      rw [scanByArgs, if_pos rfl]
      by_cases he : countFuncParams f = argCount
      · simp [firstOfEach, isExact, he]
      · rw [if_neg he, ih]
        by_cases hr : minArgs f ≤ argCount ∧ argCount ≤ countFuncParams f
        · cases rangeMatch <;> cases firstMatch <;> simp [firstOfEach, isExact, inRange, he, hr]
        · cases rangeMatch <;> cases firstMatch <;> simp [firstOfEach, isExact, inRange, he, hr]

theorem sel_foldl_args (hl : l.Pairwise fun a b => a.2 < b.2) :
    (l.reverse.foldl (ArgsPick.add argCount) ⟨none, none, none⟩).sel =
      scanByArgs argCount (fun _ => true) none none l := by
  rw [foldl_reverse_args argCount hl, scanByArgs_eq, ArgsPick.sel]
  simp

end ByArgs

section ByTypes

variable (score : RegisteredFunc → Nat)

/-- What the hashed loop keeps for the entries `l`, of which it has seen the last ones first. -/
structure Picked (l : List (RegisteredFunc × Nat)) (s : TypesPick) : Prop where
  firstPi_eq : s.firstPi = l.head?.map Prod.snd
  isSome_bestPi : s.bestPi.isSome = true ↔ 0 < s.bestScore
  bestPi_mem : ∀ j ∈ s.bestPi, ∃ e ∈ l, e.2 = j

variable {l : List (RegisteredFunc × Nat)}

theorem Picked.add_eq {s : TypesPick} (h : Picked l s) {entry : RegisteredFunc × Nat}
    (hl : ∀ e ∈ l, entry.2 < e.2) :
    s.add score entry =
      if 0 < score entry.1 ∧ s.bestScore ≤ score entry.1 then
        { bestPi := some entry.2, bestScore := score entry.1, firstPi := some entry.2 }
      else { s with firstPi := some entry.2 } := by
  have hfirst : lower s.firstPi entry.2 = some entry.2 :=
    lower_eq (h.firstPi_eq ▸ lt_of_head hl)
  have hbest : (∃ best ∈ s.bestPi, entry.2 < best) ↔ 0 < s.bestScore := by
    rw [← h.isSome_bestPi, Option.isSome_iff_exists]
    constructor
    · exact fun ⟨best, hbest, _⟩ => ⟨best, hbest⟩
    · rintro ⟨best, hbest⟩
      obtain ⟨e, he, rfl⟩ := h.bestPi_mem best hbest
      exact ⟨e.2, hbest, hl e he⟩
  have hiff : (s.bestScore < score entry.1 ∨ score entry.1 = s.bestScore ∧ 0 < s.bestScore) ↔
      0 < score entry.1 ∧ s.bestScore ≤ score entry.1 := by omega
  simp only [TypesPick.add, hfirst, hbest, hiff]

theorem Picked.add {s : TypesPick} (h : Picked l s) {entry : RegisteredFunc × Nat}
    (hl : ∀ e ∈ l, entry.2 < e.2) : Picked (entry :: l) (s.add score entry) := by
  rw [h.add_eq score hl]
  split
  · next hbetter =>
      refine ⟨rfl, by simpa using hbetter.1, ?_⟩
      exact fun j hj => ⟨entry, List.mem_cons_self, Option.some.inj hj⟩
  · refine ⟨rfl, h.isSome_bestPi, fun j hj => ?_⟩
    obtain ⟨e, he, hej⟩ := h.bestPi_mem j hj
    exact ⟨e, List.mem_cons_of_mem _ he, hej⟩

/-- The hashed loop over entries with increasing indexes, from the end. -/
def pickTypes (l : List (RegisteredFunc × Nat)) : TypesPick :=
  l.reverse.foldl (TypesPick.add score) ⟨none, 0, none⟩

theorem pickTypes_cons (entry : RegisteredFunc × Nat) (l : List (RegisteredFunc × Nat)) :
    pickTypes score (entry :: l) = (pickTypes score l).add score entry := by
  rw [pickTypes, List.reverse_cons, List.foldl_append]
  rfl

theorem picked_pickTypes (hl : l.Pairwise fun a b => a.2 < b.2) : Picked l (pickTypes score l) := by
  induction l with
  | nil => exact ⟨rfl, by simp [pickTypes], by simp [pickTypes]⟩
  | cons entry l ih =>
      obtain ⟨hentry, hrest⟩ := List.pairwise_cons.mp hl
      rw [pickTypes_cons]
      exact (ih hrest).add score hentry

theorem scanByTypes_eq (hl : l.Pairwise fun a b => a.2 < b.2) :
    ∀ s : TypesPick, scanByTypes score (fun _ => true) s l =
      (if s.bestScore < (pickTypes score l).bestScore then (pickTypes score l).bestPi
        else s.bestPi).or (s.firstPi.or (l.head?.map Prod.snd)) := by
  induction l with
  | nil =>
      intro s
      simp [scanByTypes, pickTypes]
  | cons entry l ih =>
      intro s
      obtain ⟨hentry, hrest⟩ := List.pairwise_cons.mp hl
      obtain ⟨f, i⟩ := entry
      have hpicked := picked_pickTypes score hrest
      rw [scanByTypes, if_pos rfl, ih hrest, pickTypes_cons, hpicked.add_eq score hentry]
      have hfirst : ((s.firstPi <|> some i).or (l.head?.map Prod.snd)) =
          s.firstPi.or (((f, i) :: l).head?.map Prod.snd) := by
        cases s.firstPi <;> simp
      by_cases hnew : s.bestScore < score f
      · by_cases hlater : score f < (pickTypes score l).bestScore
        · have hkeep : ¬(0 < score f ∧ (pickTypes score l).bestScore ≤ score f) := by omega
          have hbeats : s.bestScore < (pickTypes score l).bestScore := by omega
          simp only [if_pos hnew, if_pos hlater, if_neg hkeep, if_pos hbeats, hfirst]
        · have htake : 0 < score f ∧ (pickTypes score l).bestScore ≤ score f := by omega
          simp only [if_pos hnew, if_neg hlater, if_pos htake, hfirst]
      · by_cases hlater : s.bestScore < (pickTypes score l).bestScore
        · have hkeep : ¬(0 < score f ∧ (pickTypes score l).bestScore ≤ score f) := by omega
          simp only [if_neg hnew, if_pos hlater, if_neg hkeep, hfirst]
        · by_cases htake : 0 < score f ∧ (pickTypes score l).bestScore ≤ score f
          · simp only [if_neg hnew, if_neg hlater, if_pos htake, hfirst]
          · simp only [if_neg hnew, if_neg hlater, if_neg htake, hfirst]

theorem sel_foldl_types (hl : l.Pairwise fun a b => a.2 < b.2) :
    (l.reverse.foldl (TypesPick.add score) ⟨none, 0, none⟩).sel =
      scanByTypes score (fun _ => true) ⟨none, 0, none⟩ l := by
  have hpicked := picked_pickTypes score hl
  have hbest := hpicked.isSome_bestPi
  rw [scanByTypes_eq score hl, ← hpicked.firstPi_eq]
  change (pickTypes score l).sel = _
  rw [TypesPick.sel]
  cases hpi : (pickTypes score l).bestPi with
  | none => simp
  | some j =>
      have hpos : 0 < (pickTypes score l).bestScore := hbest.mp (by rw [hpi]; rfl)
      simp [hpos]

end ByTypes

section Paths

variable {κ : Type} [DecidableEq κ] (key : RegisteredFunc → Option κ) (hash : κ → UInt64)

theorem pairwise_keyed (funcs : List RegisteredFunc) (k : κ) :
    (funcs.zipIdx.filter fun entry => key entry.1 = some k).Pairwise fun a b => a.2 < b.2 := by
  have hzip : funcs.zipIdx.Pairwise fun a b => a.2 < b.2 := by
    rw [← List.pairwise_map, List.zipIdx_map_snd]
    exact List.pairwise_lt_range'
  exact hzip.filter _

theorem byArgsSelf_linear {index : Option RegistryIndex} {funcs : List RegisteredFunc}
    (hix : IndexOver key hash funcs index) (k : κ) (argCount : Nat) :
    byArgsSelf index (hash k) (fun f => key f = some k) argCount funcs =
      byArgsSelf none (hash k) (fun f => key f = some k) argCount funcs := by
  cases index with
  | none => rfl
  | some ix =>
      rw [byArgsSelf, byArgsSelf, overloads_build key hash hix,
        sel_foldl_args argCount (pairwise_keyed key funcs k),
        scanByArgs_filter argCount (fun f => key f = some k)]

theorem byTypesSelf_linear {index : Option RegistryIndex} {funcs : List RegisteredFunc}
    (hix : IndexOver key hash funcs index) (k : κ) (score : RegisteredFunc → Nat) :
    byTypesSelf index (hash k) (fun f => key f = some k) score funcs =
      byTypesSelf none (hash k) (fun f => key f = some k) score funcs := by
  cases index with
  | none => rfl
  | some ix =>
      rw [byTypesSelf, byTypesSelf, overloads_build key hash hix,
        sel_foldl_types score (pairwise_keyed key funcs k),
        scanByTypes_filter score (fun f => key f = some k)]

end Paths

section Finalized

variable (ops : List Op)

theorem indexedFuncs_append_finalize :
    indexedFuncs (ops ++ [.finalize]) = funcsOf (ops ++ [.finalize]) := by
  rw [indexedFuncs, upToFinalize_append_finalize]

theorem indexOver_method :
    IndexOver methodKey (fun k => fnv1aPair k.1 k.2) (build (ops ++ [.finalize])).funcs
      (build (ops ++ [.finalize])).method := by
  have hbuilt := builtBy_build (ops ++ [.finalize])
  rw [hbuilt.method_eq, hbuilt.funcs_eq, indexedFuncs_append_finalize]
  exact indexOver_buildMethodIndex _

theorem indexOver_funcQn :
    IndexOver (fun f => some f.qualifiedName) fnv1a (build (ops ++ [.finalize])).funcs
      (build (ops ++ [.finalize])).funcQn := by
  have hbuilt := builtBy_build (ops ++ [.finalize])
  rw [hbuilt.funcQn_eq, hbuilt.funcs_eq, indexedFuncs_append_finalize]
  exact indexOver_buildQnIndex RegisteredFunc.qualifiedName _

end Finalized

theorem inChain_congr {self : TypeRegistry → Option Nat} {regs scanned : List TypeRegistry}
    (hself : ∀ ops, self (build (ops ++ [.finalize])) = self (build (ops ++ [.finalize])).linear)
    (h : List.Forall₂ MayScan regs scanned) : inChain self regs = inChain self scanned := by
  induction h with
  | nil => rfl
  | @cons reg reg' fallbacks scanned hreg _ ih =>
      have hsame : self reg = self reg' := by
        cases hreg with
        | same => rfl
        | scan ops => exact hself ops
      rw [inChain, inChain, hsame, ih]

/-- Whichever registries of a chain are scanned instead of looked up in their index, if each of
these was finalized after its last registration: the overloads found are the same. -/
theorem overloads_eq_scan {regs scanned : List TypeRegistry}
    (h : List.Forall₂ MayScan regs scanned) : SameOverloads regs scanned := by
  have hmethodByArgs : ∀ receiver name argCount,
      lookupMethodByArgs regs receiver name argCount =
        lookupMethodByArgs scanned receiver name argCount := by
    intro receiver name argCount
    exact inChain_congr (fun ops => byArgsSelf_linear methodKey (fun k => fnv1aPair k.1 k.2)
      (indexOver_method ops) (receiver, name) argCount) h
  have hsymbolByArgs : ∀ package name argCount,
      lookupSymbolByArgs regs package name argCount =
        lookupSymbolByArgs scanned package name argCount := by
    intro package name argCount
    rw [lookupSymbolByArgs, lookupSymbolByArgs]
    refine congrArg _ (funext fun qn => inChain_congr (fun ops => ?_) h)
    have hself := byArgsSelf_linear (fun f => some f.qualifiedName) fnv1a (indexOver_funcQn ops) qn
      argCount
    simp only [Option.some.injEq] at hself
    exact hself
  refine ⟨hmethodByArgs, ?_, hsymbolByArgs, ?_⟩
  · intro receiver name argTypes argCount
    cases argTypes with
    | none => exact hmethodByArgs receiver name argCount
    | some argTypes =>
        exact inChain_congr (fun ops => byTypesSelf_linear methodKey (fun k => fnv1aPair k.1 k.2)
          (indexOver_method ops) (receiver, name) _) h
  · intro package name argTypes argCount
    cases argTypes with
    | none => exact hsymbolByArgs package name argCount
    | some argTypes =>
        rw [lookupSymbolByTypes, lookupSymbolByTypes]
        refine congrArg _ (funext fun qn => inChain_congr (fun ops => ?_) h)
        have hself := byTypesSelf_linear (fun f => some f.qualifiedName) fnv1a
          (indexOver_funcQn ops) qn fun f => scoreOverloadMatch f argTypes argCount
        simp only [Option.some.injEq] at hself
        exact hself

def methodOf (receiver name : CStr) (params : List CType) : RegisteredFunc :=
  { qualifiedName := receiver ++ bytesOf "." ++ name, receiverType := some receiver,
    shortName := some name, signature := some (.func (some params)), minParams := -1 }

/-- Two overloads of a registry behind an empty one that is never finalized. -/
theorem overloads_eq_scan_two :
    SameOverloads
      [registryInit, build ([.addFunc (methodOf (bytesOf "C") (bytesOf "f") []),
        .addFunc (methodOf (bytesOf "C") (bytesOf "f") [.unknown])] ++ [.finalize])]
      [registryInit, (build ([.addFunc (methodOf (bytesOf "C") (bytesOf "f") []),
        .addFunc (methodOf (bytesOf "C") (bytesOf "f") [.unknown])] ++ [.finalize])).linear] :=
  overloads_eq_scan (.cons (.same _) (.cons (.scan _) .nil))

end Lsp
end CodebaseMemory
