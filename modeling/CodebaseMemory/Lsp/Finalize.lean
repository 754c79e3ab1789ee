import CodebaseMemory.Lsp.Lookup

/-!
# What `cbm_registry_finalize` hides

A registry with an index against the one that was built by the same calls and
never finalized, both with the same fallbacks.  The look-ups that give one
entry take the last of the indexed entries with a name where the linear loop
takes the first; those that choose among overloads do not look at what was
registered after the index was built.
-/

namespace CodebaseMemory
namespace Lsp

open Lib
open Sqlite (CStr bytesOf)

/-- `finalize` changes nothing for the look-ups that give one entry, and takes no result away from
those that choose among overloads. -/
structure HidesNothing (ops : List Op) (fallbacks : List (List Op)) : Prop where
  func : ∀ qn,
    lookupFunc (build ops :: fallbacks.map build) qn =
      lookupFunc (build (unfinalized ops) :: fallbacks.map build) qn
  type : ∀ qn,
    lookupType (build ops :: fallbacks.map build) qn =
      lookupType (build (unfinalized ops) :: fallbacks.map build) qn
  method : ∀ receiver name,
    lookupMethod (build ops :: fallbacks.map build) receiver name =
      lookupMethod (build (unfinalized ops) :: fallbacks.map build) receiver name
  methodByArgs : ∀ receiver name argCount,
    (lookupMethodByArgs (build (unfinalized ops) :: fallbacks.map build) receiver name
      argCount).isSome = true →
    (lookupMethodByArgs (build ops :: fallbacks.map build) receiver name argCount).isSome = true
  methodByTypes : ∀ receiver name argTypes argCount,
    (lookupMethodByTypes (build (unfinalized ops) :: fallbacks.map build) receiver name argTypes
      argCount).isSome = true →
    (lookupMethodByTypes (build ops :: fallbacks.map build) receiver name argTypes
      argCount).isSome = true
  symbolByArgs : ∀ package name argCount,
    (lookupSymbolByArgs (build (unfinalized ops) :: fallbacks.map build) package name
      argCount).isSome = true →
    (lookupSymbolByArgs (build ops :: fallbacks.map build) package name argCount).isSome = true
  symbolByTypes : ∀ package name argTypes argCount,
    (lookupSymbolByTypes (build (unfinalized ops) :: fallbacks.map build) package name argTypes
      argCount).isSome = true →
    (lookupSymbolByTypes (build ops :: fallbacks.map build) package name argTypes
      argCount).isSome = true

/-- The functions among which the overloads of a registry are looked for. -/
def visibleFuncs (ops : List Op) : List RegisteredFunc :=
  if indexedFuncs ops = [] then funcsOf ops else indexedFuncs ops

/-- No two entries that were registered at the last `finalize` have the same name, and each name
that is registered is seen in the registry or in a fallback. -/
structure NamesClear (ops : List Op) (fallbacks : List (List Op)) : Prop where
  funcs_nodup : ((indexedFuncs ops).map RegisteredFunc.qualifiedName).Nodup
  types_nodup : ((indexedTypes ops).map RegisteredType.qualifiedName).Nodup
  methods_nodup : ((indexedFuncs ops).filterMap methodKey).Nodup
  methods_seen : ∀ f ∈ funcsOf ops, ∀ k, methodKey f = some k →
    ∃ regOps ∈ ops :: fallbacks, ∃ g ∈ visibleFuncs regOps, methodKey g = some k
  symbols_seen : ∀ f ∈ funcsOf ops, ∀ package name, symbolQn package name = some f.qualifiedName →
    ∃ regOps ∈ ops :: fallbacks, ∃ g ∈ visibleFuncs regOps, g.qualifiedName = f.qualifiedName

theorem inChain_cons_eq_iff (self : TypeRegistry → Option Nat) (reg reg' : TypeRegistry)
    (fallback : List TypeRegistry) :
    inChain self (reg :: fallback) = inChain self (reg' :: fallback) ↔ self reg = self reg' := by
  rw [inChain, inChain]
  cases self reg with
  | none =>
      cases self reg' with
      | none => simp
      | some j => simp
  | some i =>
      cases self reg' with
      | none => simp
      | some j => simp

theorem isSome_inChain (self : TypeRegistry → Option Nat) (regs : List TypeRegistry) :
    (inChain self regs).isSome = true ↔ ∃ reg ∈ regs, (self reg).isSome = true := by
  induction regs with
  | nil => simp [inChain]
  | cons reg regs ih =>
      rw [inChain, List.exists_mem_cons_iff]
      cases hself : self reg with
      | none => simp [ih]
      | some i => simp

section Indexes

variable (ops : List Op)

theorem indexOver_buildQnIndex {α : Type} (qn : α → CStr) (pre : List α) :
    IndexOver (fun a => some (qn a)) fnv1a pre (buildQnIndex none qn pre) := by
  rw [buildQnIndex]
  split
  · next h => exact List.length_eq_zero_iff.mp h
  · next h => exact ⟨fun hnil => h (by simp [hnil]), rfl, rfl⟩

theorem indexOver_buildMethodIndex (pre : List RegisteredFunc) :
    IndexOver methodKey (fun k => fnv1aPair k.1 k.2) pre (buildMethodIndex none pre) := by
  rw [buildMethodIndex]
  split
  · next h => exact List.length_eq_zero_iff.mp h
  · next h => exact ⟨fun hnil => h (by simp [hnil]), rfl, rfl⟩

theorem entryCount_buildQnIndex {α : Type} (qn : α → CStr) (pre : List α) :
    ((buildQnIndex none qn pre).map RegistryIndex.entryCount).getD 0 = pre.length := by
  rw [buildQnIndex]
  split
  · next h => exact h.symm
  · rfl

theorem funcQnEntryCount_build : (build ops).funcQnEntryCount = (indexedFuncs ops).length := by
  rw [TypeRegistry.funcQnEntryCount, (builtBy_build ops).funcQn_eq, entryCount_buildQnIndex]

theorem typeQnEntryCount_build : (build ops).typeQnEntryCount = (indexedTypes ops).length := by
  rw [TypeRegistry.typeQnEntryCount, (builtBy_build ops).typeQn_eq, entryCount_buildQnIndex]

theorem visible_eq_visibleFuncs {post : List RegisteredFunc}
    (hpost : funcsOf ops = indexedFuncs ops ++ post) :
    visible (indexedFuncs ops) post = visibleFuncs ops := by
  rw [visible, visibleFuncs, hpost]
  split
  · next h => rw [h, List.nil_append]
  · rfl

theorem indexedFuncs_unfinalized : indexedFuncs (unfinalized ops) = [] := by
  rw [indexedFuncs, upToFinalize_unfinalized]
  rfl

theorem indexedTypes_unfinalized : indexedTypes (unfinalized ops) = [] := by
  rw [indexedTypes, upToFinalize_unfinalized]
  rfl

theorem visibleFuncs_unfinalized : visibleFuncs (unfinalized ops) = funcsOf ops := by
  rw [visibleFuncs, if_pos (indexedFuncs_unfinalized ops), funcsOf_unfinalized]

end Indexes

section One

variable (ops : List Op)

theorem lookupFuncSelf_agrees_iff :
    (∀ qn, lookupFuncSelf qn (build ops) = lookupFuncSelf qn (build (unfinalized ops))) ↔
      ((indexedFuncs ops).map RegisteredFunc.qualifiedName).Nodup := by
  obtain ⟨post, hpost⟩ := indexedFuncs_isPrefix ops
  have hbuilt := builtBy_build ops
  have hplain := builtBy_build (unfinalized ops)
  have hagrees := lookupSelf_agrees_iff (fun f => some f.qualifiedName) fnv1a (indexedFuncs ops)
    post (indexOver_buildQnIndex RegisteredFunc.qualifiedName (indexedFuncs ops))
  rw [List.filterMap_eq_map'] at hagrees
  rw [← hagrees]
  refine forall_congr' fun qn => ?_
  rw [lookupFuncSelf, lookupFuncSelf, funcQnEntryCount_build, hbuilt.funcs_eq, hbuilt.funcQn_eq,
    hplain.funcs_eq, hplain.funcQn_eq, indexedFuncs_unfinalized, funcsOf_unfinalized, ← hpost]
  simp only [Option.some.injEq]
  rfl

theorem lookupTypeSelf_agrees_iff :
    (∀ qn, lookupTypeSelf qn (build ops) = lookupTypeSelf qn (build (unfinalized ops))) ↔
      ((indexedTypes ops).map RegisteredType.qualifiedName).Nodup := by
  obtain ⟨post, hpost⟩ := indexedTypes_isPrefix ops
  have hbuilt := builtBy_build ops
  have hplain := builtBy_build (unfinalized ops)
  have hagrees := lookupSelf_agrees_iff (fun t => some t.qualifiedName) fnv1a (indexedTypes ops)
    post (indexOver_buildQnIndex RegisteredType.qualifiedName (indexedTypes ops))
  rw [List.filterMap_eq_map'] at hagrees
  rw [← hagrees]
  refine forall_congr' fun qn => ?_
  rw [lookupTypeSelf, lookupTypeSelf, typeQnEntryCount_build, hbuilt.types_eq, hbuilt.typeQn_eq,
    hplain.types_eq, hplain.typeQn_eq, indexedTypes_unfinalized, typesOf_unfinalized, ← hpost]
  simp only [Option.some.injEq]
  rfl

theorem lookupMethodSelf_agrees_iff :
    (∀ receiver name, lookupMethodSelf receiver name (build ops) =
      lookupMethodSelf receiver name (build (unfinalized ops))) ↔
      ((indexedFuncs ops).filterMap methodKey).Nodup := by
  obtain ⟨post, hpost⟩ := indexedFuncs_isPrefix ops
  have hbuilt := builtBy_build ops
  have hplain := builtBy_build (unfinalized ops)
  have hagrees := lookupSelf_agrees_iff methodKey (fun k => fnv1aPair k.1 k.2) (indexedFuncs ops)
    post (indexOver_buildMethodIndex (indexedFuncs ops))
  rw [← hagrees, Prod.forall]
  refine forall_congr' fun receiver => forall_congr' fun name => ?_
  rw [lookupMethodSelf, lookupMethodSelf, funcQnEntryCount_build, hbuilt.funcs_eq,
    hbuilt.method_eq, hplain.funcs_eq, hplain.method_eq, indexedFuncs_unfinalized,
    funcsOf_unfinalized, ← hpost]
  rfl

end One

section Many

variable (regOps : List (List Op))

theorem isSome_byArgsSelf_method (ops : List Op) (receiver name : CStr) (argCount : Nat) :
    (byArgsSelf (build ops).method (fnv1aPair receiver name) (isMethod receiver name) argCount
      (build ops).funcs).isSome = true ↔
      ∃ f ∈ visibleFuncs ops, methodKey f = some (receiver, name) := by
  obtain ⟨post, hpost⟩ := indexedFuncs_isPrefix ops
  have hbuilt := builtBy_build ops
  rw [hbuilt.method_eq, hbuilt.funcs_eq, ← visible_eq_visibleFuncs ops hpost.symm, ← hpost]
  exact isSome_byArgsSelf_iff methodKey (fun k => fnv1aPair k.1 k.2) _ post
    (indexOver_buildMethodIndex _) (receiver, name) argCount

theorem isSome_byTypesSelf_method (ops : List Op) (receiver name : CStr)
    (score : RegisteredFunc → Nat) :
    (byTypesSelf (build ops).method (fnv1aPair receiver name) (isMethod receiver name) score
      (build ops).funcs).isSome = true ↔
      ∃ f ∈ visibleFuncs ops, methodKey f = some (receiver, name) := by
  obtain ⟨post, hpost⟩ := indexedFuncs_isPrefix ops
  have hbuilt := builtBy_build ops
  rw [hbuilt.method_eq, hbuilt.funcs_eq, ← visible_eq_visibleFuncs ops hpost.symm, ← hpost]
  exact isSome_byTypesSelf_iff methodKey (fun k => fnv1aPair k.1 k.2) _ post
    (indexOver_buildMethodIndex _) (receiver, name) score

theorem isSome_byArgsSelf_func (ops : List Op) (qn : CStr) (argCount : Nat) :
    (byArgsSelf (build ops).funcQn (fnv1a qn) (fun f => f.qualifiedName = qn) argCount
      (build ops).funcs).isSome = true ↔ ∃ f ∈ visibleFuncs ops, f.qualifiedName = qn := by
  obtain ⟨post, hpost⟩ := indexedFuncs_isPrefix ops
  have hbuilt := builtBy_build ops
  rw [hbuilt.funcQn_eq, hbuilt.funcs_eq, ← visible_eq_visibleFuncs ops hpost.symm, ← hpost]
  have h := isSome_byArgsSelf_iff (fun f => some f.qualifiedName) fnv1a _ post
    (indexOver_buildQnIndex RegisteredFunc.qualifiedName (indexedFuncs ops)) qn argCount
  simpa only [Option.some.injEq] using h

theorem isSome_byTypesSelf_func (ops : List Op) (qn : CStr) (score : RegisteredFunc → Nat) :
    (byTypesSelf (build ops).funcQn (fnv1a qn) (fun f => f.qualifiedName = qn) score
      (build ops).funcs).isSome = true ↔ ∃ f ∈ visibleFuncs ops, f.qualifiedName = qn := by
  obtain ⟨post, hpost⟩ := indexedFuncs_isPrefix ops
  have hbuilt := builtBy_build ops
  rw [hbuilt.funcQn_eq, hbuilt.funcs_eq, ← visible_eq_visibleFuncs ops hpost.symm, ← hpost]
  have h := isSome_byTypesSelf_iff (fun f => some f.qualifiedName) fnv1a _ post
    (indexOver_buildQnIndex RegisteredFunc.qualifiedName (indexedFuncs ops)) qn score
  simpa only [Option.some.injEq] using h

theorem isSome_inChain_build {self : TypeRegistry → Option Nat} {P : RegisteredFunc → Prop}
    (hself : ∀ ops, (self (build ops)).isSome = true ↔ ∃ f ∈ visibleFuncs ops, P f) :
    (inChain self (regOps.map build)).isSome = true ↔
      ∃ ops ∈ regOps, ∃ f ∈ visibleFuncs ops, P f := by
  rw [isSome_inChain]
  simp only [List.mem_map, exists_exists_and_eq_and]
  exact exists_congr fun ops => and_congr_right fun _ => hself ops

theorem isSome_lookupMethodByArgs (receiver name : CStr) (argCount : Nat) :
    (lookupMethodByArgs (regOps.map build) receiver name argCount).isSome = true ↔
      ∃ ops ∈ regOps, ∃ f ∈ visibleFuncs ops, methodKey f = some (receiver, name) :=
  isSome_inChain_build regOps fun ops => isSome_byArgsSelf_method ops receiver name argCount

theorem isSome_lookupMethodByTypes (receiver name : CStr)
    (argTypes : Option (List (Option CType))) (argCount : Nat) :
    (lookupMethodByTypes (regOps.map build) receiver name argTypes argCount).isSome = true ↔
      ∃ ops ∈ regOps, ∃ f ∈ visibleFuncs ops, methodKey f = some (receiver, name) := by
  cases argTypes with
  | none => exact isSome_lookupMethodByArgs regOps receiver name argCount
  | some argTypes =>
      exact isSome_inChain_build regOps fun ops => isSome_byTypesSelf_method ops receiver name _

theorem isSome_lookupSymbolByArgs (package name : CStr) (argCount : Nat) :
    (lookupSymbolByArgs (regOps.map build) package name argCount).isSome = true ↔
      ∃ qn, symbolQn package name = some qn ∧
        ∃ ops ∈ regOps, ∃ f ∈ visibleFuncs ops, f.qualifiedName = qn := by
  rw [lookupSymbolByArgs]
  cases symbolQn package name with
  | none => simp
  | some qn =>
      rw [Option.bind_some,
        isSome_inChain_build regOps fun ops => isSome_byArgsSelf_func ops qn argCount]
      simp only [Option.some.injEq, exists_eq_left']

theorem isSome_lookupSymbolByTypes (package name : CStr)
    (argTypes : Option (List (Option CType))) (argCount : Nat) :
    (lookupSymbolByTypes (regOps.map build) package name argTypes argCount).isSome = true ↔
      ∃ qn, symbolQn package name = some qn ∧
        ∃ ops ∈ regOps, ∃ f ∈ visibleFuncs ops, f.qualifiedName = qn := by
  cases argTypes with
  | none => exact isSome_lookupSymbolByArgs regOps package name argCount
  | some argTypes =>
      rw [lookupSymbolByTypes]
      cases symbolQn package name with
      | none => simp
      | some qn =>
          rw [Option.bind_some,
            isSome_inChain_build regOps fun ops => isSome_byTypesSelf_func ops qn _]
          simp only [Option.some.injEq, exists_eq_left']

end Many

section Exact

variable (ops : List Op) (fallbacks : List (List Op))

theorem seen_iff {P : RegisteredFunc → Prop} :
    ((∃ regOps ∈ unfinalized ops :: fallbacks, ∃ f ∈ visibleFuncs regOps, P f) →
      ∃ regOps ∈ ops :: fallbacks, ∃ f ∈ visibleFuncs regOps, P f) ↔
      ((∃ f ∈ funcsOf ops, P f) → ∃ regOps ∈ ops :: fallbacks, ∃ f ∈ visibleFuncs regOps, P f) := by
  rw [List.exists_mem_cons_iff, visibleFuncs_unfinalized]
  constructor
  · exact fun h hfuncs => h (Or.inl hfuncs)
  · rintro h (hfuncs | ⟨regOps, hreg, hf⟩)
    · exact h hfuncs
    · exact ⟨regOps, List.mem_cons_of_mem _ hreg, hf⟩

theorem methods_seen_iff :
    (∀ receiver name, (∃ regOps ∈ unfinalized ops :: fallbacks, ∃ f ∈ visibleFuncs regOps,
        methodKey f = some (receiver, name)) →
      ∃ regOps ∈ ops :: fallbacks, ∃ f ∈ visibleFuncs regOps,
        methodKey f = some (receiver, name)) ↔
      ∀ f ∈ funcsOf ops, ∀ k, methodKey f = some k →
        ∃ regOps ∈ ops :: fallbacks, ∃ g ∈ visibleFuncs regOps, methodKey g = some k := by
  constructor
  · intro h f hf k hk
    exact (seen_iff ops fallbacks).mp (h k.1 k.2) ⟨f, hf, hk⟩
  · intro h receiver name
    exact (seen_iff ops fallbacks).mpr fun ⟨f, hf, hk⟩ => h f hf (receiver, name) hk

theorem build_cons (ops : List Op) (fallbacks : List (List Op)) :
    build ops :: fallbacks.map build = (ops :: fallbacks).map build := rfl

/-- `finalize` makes no difference exactly if no name is registered twice before it, and what is
registered after it is seen elsewhere. -/
theorem finalize_hides_nothing_iff (ops : List Op) (fallbacks : List (List Op)) :
    HidesNothing ops fallbacks ↔ NamesClear ops fallbacks := by
  constructor
  · intro h
    refine ⟨?_, ?_, ?_, ?_, ?_⟩
    · exact (lookupFuncSelf_agrees_iff ops).mp fun qn => (inChain_cons_eq_iff _ _ _ _).mp (h.func qn)
    · exact (lookupTypeSelf_agrees_iff ops).mp fun qn => (inChain_cons_eq_iff _ _ _ _).mp (h.type qn)
    · exact (lookupMethodSelf_agrees_iff ops).mp fun receiver name =>
        (inChain_cons_eq_iff _ _ _ _).mp (h.method receiver name)
    · rw [← methods_seen_iff]
      intro receiver name
      have hargs := h.methodByArgs receiver name 0
      rwa [build_cons, build_cons, isSome_lookupMethodByArgs, isSome_lookupMethodByArgs] at hargs
    · intro f hf package name hqn
      have hargs := h.symbolByArgs package name 0
      rw [build_cons, build_cons, isSome_lookupSymbolByArgs, isSome_lookupSymbolByArgs] at hargs
      have hfound : ∃ regOps ∈ unfinalized ops :: fallbacks, ∃ g ∈ visibleFuncs regOps,
          g.qualifiedName = f.qualifiedName :=
        ⟨_, List.mem_cons_self, f, by rwa [visibleFuncs_unfinalized], rfl⟩
      obtain ⟨qn, hqn', hseen⟩ := hargs ⟨_, hqn, hfound⟩
      obtain rfl : qn = f.qualifiedName := Option.some.inj (hqn'.symm.trans hqn)
      exact hseen
  · intro h
    have hmethods := (methods_seen_iff ops fallbacks).mpr h.methods_seen
    have hsymbols : ∀ package name qn, symbolQn package name = some qn →
        (∃ regOps ∈ unfinalized ops :: fallbacks, ∃ f ∈ visibleFuncs regOps,
          f.qualifiedName = qn) →
        ∃ regOps ∈ ops :: fallbacks, ∃ f ∈ visibleFuncs regOps, f.qualifiedName = qn := by
      intro package name qn hqn
      refine (seen_iff ops fallbacks).mpr ?_
      rintro ⟨f, hf, rfl⟩
      exact h.symbols_seen f hf package name hqn
    refine ⟨?_, ?_, ?_, ?_, ?_, ?_, ?_⟩
    · intro qn
      exact (inChain_cons_eq_iff _ _ _ _).mpr ((lookupFuncSelf_agrees_iff ops).mpr h.funcs_nodup qn)
    · intro qn
      exact (inChain_cons_eq_iff _ _ _ _).mpr ((lookupTypeSelf_agrees_iff ops).mpr h.types_nodup qn)
    · intro receiver name
      exact (inChain_cons_eq_iff _ _ _ _).mpr
        ((lookupMethodSelf_agrees_iff ops).mpr h.methods_nodup receiver name)
    · intro receiver name argCount
      rw [build_cons, build_cons, isSome_lookupMethodByArgs, isSome_lookupMethodByArgs]
      exact hmethods receiver name
    · intro receiver name argTypes argCount
      rw [build_cons, build_cons, isSome_lookupMethodByTypes, isSome_lookupMethodByTypes]
      exact hmethods receiver name
    · intro package name argCount
      rw [build_cons, build_cons, isSome_lookupSymbolByArgs, isSome_lookupSymbolByArgs]
      exact fun ⟨qn, hqn, hseen⟩ => ⟨qn, hqn, hsymbols package name qn hqn hseen⟩
    · intro package name argTypes argCount
      rw [build_cons, build_cons, isSome_lookupSymbolByTypes, isSome_lookupSymbolByTypes]
      exact fun ⟨qn, hqn, hseen⟩ => ⟨qn, hqn, hsymbols package name qn hqn hseen⟩

end Exact

/-- A function of a package, with no parameters that are known. -/
def plainFunc (qualifiedName : CStr) : RegisteredFunc :=
  { qualifiedName := qualifiedName, receiverType := none, shortName := none, signature := none,
    minParams := -1 }

/-- Two overloads: without the index the first one is found, with it the second. -/
theorem not_finalize_hides_nothing :
    ¬ HidesNothing
      [.addFunc (plainFunc (bytesOf "p.f")), .addFunc (plainFunc (bytesOf "p.f")), .finalize] [] := by
  intro h
  have hfunc := h.func (bytesOf "p.f")
  exact absurd hfunc (by decide +kernel)

end Lsp
end CodebaseMemory
