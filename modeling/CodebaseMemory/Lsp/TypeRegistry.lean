import CodebaseMemory.Lib.Chain
import CodebaseMemory.Sqlite.Record

/-!
# The type registry (`internal/cbm/lsp/type_registry.c`)

Functions and types in the order of registration, the three hash indexes that
`cbm_registry_finalize` builds over them, and the look-ups.  Every look-up has
a hashed path, taken once the index is there, and a linear one.

Reading aids:
* An entry is given by its place: the number of the registry in the chain of
  fallbacks (0 for the registry itself) and the index in its array.
* A qualified name is never NULL: the linear paths hand it to `strcmp`.
* Of a type only what the scores read is kept; `CType.other` stands for the
  kinds of which they read nothing.
* An allocation that fails, a registry in a cycle of fallbacks, and a number of
  entries whose double does not fit an `int` are left out.
-/

namespace CodebaseMemory
namespace Lsp

open Lib
open Sqlite (CStr bytesOf)

def fnvBasis : UInt64 := 0xcbf29ce484222325

def fnvStep (h : UInt64) (c : UInt8) : UInt64 :=
  (h ^^^ c.toUInt64) * 0x100000001b3

def fnv1a (s : CStr) : UInt64 :=
  s.foldl fnvStep fnvBasis

/-- `fnv1a_pair`; the byte 0xff stands between the two texts. -/
def fnv1aPair (a b : CStr) : UInt64 :=
  b.foldl fnvStep (fnvStep (a.foldl fnvStep fnvBasis) 0xff)

/-- The loop of `next_pow2`; it doubles at most `n` times. -/
def nextPow2From (n : Nat) : Nat → Nat → Nat
  | 0, p => p
  | fuel + 1, p => if p < n then nextPow2From n fuel (p * 2) else p

def nextPow2 (n : Nat) : Nat :=
  nextPow2From n n 1

/-- `CBMType`. -/
inductive CType where
  | unknown
  | named (qualifiedName : Option CStr)
  | pointer (elem : Option CType)
  | reference (elem : Option CType)
  | rvalueRef (elem : Option CType)
  | template (templateName : Option CStr)
  | builtin (name : Option CStr)
  | func (paramTypes : Option (List CType))
  | other

/-- `CBMRegisteredFunc`. -/
structure RegisteredFunc where
  qualifiedName : CStr
  receiverType : Option CStr
  shortName : Option CStr
  signature : Option CType
  minParams : Int

/-- `CBMRegisteredType`; the look-ups read the name only. -/
structure RegisteredType where
  qualifiedName : CStr

/-- The buckets and entries of one index, with their numbers. -/
structure RegistryIndex where
  bucketCount : Nat
  entryCount : Nat
  table : HashIndex UInt64

/-- `CBMTypeRegistry`, without its fallback. -/
structure TypeRegistry where
  funcs : List RegisteredFunc
  types : List RegisteredType
  funcQn : Option RegistryIndex
  typeQn : Option RegistryIndex
  method : Option RegistryIndex

/-- `cbm_registry_init`. -/
def registryInit : TypeRegistry :=
  { funcs := [], types := [], funcQn := none, typeQn := none, method := none }

/-- `cbm_registry_add_func`. -/
def addFunc (reg : TypeRegistry) (f : RegisteredFunc) : TypeRegistry :=
  { reg with funcs := reg.funcs ++ [f] }

/-- `cbm_registry_add_type`. -/
def addType (reg : TypeRegistry) (t : RegisteredType) : TypeRegistry :=
  { reg with types := reg.types ++ [t] }

section Index

variable {α κ : Type}

def slotOf (bucketCount : Nat) (h : UInt64) : Nat :=
  h.toNat &&& (bucketCount - 1)

/-- The number of buckets for `count` entries. -/
def bucketCountFor (count : Nat) : Nat :=
  if nextPow2 (count * 2) < 16 then 16 else nextPow2 (count * 2)

/-- The entries of an index in the order of the loop that adds them: those with a key. -/
def indexItems (key : α → Option κ) (hash : κ → UInt64) (l : List α) : List (UInt64 × Nat) :=
  l.zipIdx.filterMap fun entry => (key entry.1).map fun k => (hash k, entry.2)

/-- The loops of `build_qn_index` and `build_method_index`. -/
def buildTable (key : α → Option κ) (hash : κ → UInt64) (l : List α) : HashIndex UInt64 :=
  HashIndex.build (slotOf (bucketCountFor l.length)) (bucketCountFor l.length)
    (indexItems key hash l)

/-- `build_qn_index`, which leaves the index as it is where there is nothing to index. -/
def buildQnIndex (old : Option RegistryIndex) (qn : α → CStr) (l : List α) :
    Option RegistryIndex :=
  if l.length = 0 then old
  else
    some
      { bucketCount := bucketCountFor l.length
        entryCount := l.length
        table := buildTable (fun a => some (qn a)) fnv1a l }

/-- The receiver and the short name, if it has both. -/
def methodKey (f : RegisteredFunc) : Option (CStr × CStr) :=
  match f.receiverType, f.shortName with
  | some receiver, some name => some (receiver, name)
  | _, _ => none

def buildMethodIndex (old : Option RegistryIndex) (funcs : List RegisteredFunc) :
    Option RegistryIndex :=
  if funcs.length = 0 then old
  else
    some
      { bucketCount := bucketCountFor funcs.length
        entryCount := (indexItems methodKey (fun k => fnv1aPair k.1 k.2) funcs).length
        table := buildTable methodKey (fun k => fnv1aPair k.1 k.2) funcs }

end Index

/-- `cbm_registry_finalize`. -/
def finalize (reg : TypeRegistry) : TypeRegistry :=
  { reg with
    funcQn := buildQnIndex reg.funcQn RegisteredFunc.qualifiedName reg.funcs
    typeQn := buildQnIndex reg.typeQn RegisteredType.qualifiedName reg.types
    method := buildMethodIndex reg.method reg.funcs }

/-- Where an entry stands: the registry in the chain of fallbacks, and the index there. -/
abbrev Place := Nat × Nat

/-- A look-up that goes on to the fallback where the registry itself has nothing. -/
def inChain (self : TypeRegistry → Option Nat) : List TypeRegistry → Option Place
  | [] => none
  | reg :: fallback =>
      match self reg with
      | some i => some (0, i)
      | none => (inChain self fallback).map fun place => (place.1 + 1, place.2)

section FirstMatch

variable {α : Type}

/-- The loop over the entries from `start` on. -/
def scanFrom (p : α → Bool) (l : List α) (start : Nat) : Option Nat :=
  ((l.drop start).findIdx? p).map (· + start)

/-- `lookup_method_self`, `lookup_type_self` and `lookup_func_self`: the chain of the hash, then
the entries that were added after the index was built; the whole array where there is no index. -/
def lookupSelf (index : Option RegistryIndex) (entryCount : Nat) (h : UInt64) (p : α → Bool)
    (l : List α) : Option Nat :=
  match index with
  | some ix =>
      match ix.table.findIn (slotOf ix.bucketCount) h fun i => (l[i]?).any p with
      | some i => some i
      | none => scanFrom p l entryCount
  | none => scanFrom p l 0

end FirstMatch

def TypeRegistry.funcQnEntryCount (reg : TypeRegistry) : Nat :=
  (reg.funcQn.map RegistryIndex.entryCount).getD 0

def TypeRegistry.typeQnEntryCount (reg : TypeRegistry) : Nat :=
  (reg.typeQn.map RegistryIndex.entryCount).getD 0

def isMethod (receiver name : CStr) (f : RegisteredFunc) : Bool :=
  methodKey f = some (receiver, name)

def lookupMethodSelf (receiver name : CStr) (reg : TypeRegistry) : Option Nat :=
  lookupSelf reg.method reg.funcQnEntryCount (fnv1aPair receiver name) (isMethod receiver name)
    reg.funcs

def lookupTypeSelf (qn : CStr) (reg : TypeRegistry) : Option Nat :=
  lookupSelf reg.typeQn reg.typeQnEntryCount (fnv1a qn) (fun t => t.qualifiedName = qn) reg.types

def lookupFuncSelf (qn : CStr) (reg : TypeRegistry) : Option Nat :=
  lookupSelf reg.funcQn reg.funcQnEntryCount (fnv1a qn) (fun f => f.qualifiedName = qn) reg.funcs

/-- `cbm_registry_lookup_method`; the registry is followed by its fallbacks. -/
def lookupMethod (regs : List TypeRegistry) (receiver name : CStr) : Option Place :=
  inChain (lookupMethodSelf receiver name) regs

/-- `cbm_registry_lookup_type`. -/
def lookupType (regs : List TypeRegistry) (qn : CStr) : Option Place :=
  inChain (lookupTypeSelf qn) regs

/-- `cbm_registry_lookup_func`. -/
def lookupFunc (regs : List TypeRegistry) (qn : CStr) : Option Place :=
  inChain (lookupFuncSelf qn) regs

def countFuncParams (f : RegisteredFunc) : Int :=
  match f.signature with
  | some (.func none) => 0
  | some (.func (some params)) => params.length
  | _ => -1

/-- The least number of arguments. -/
def minArgs (f : RegisteredFunc) : Int :=
  if 0 ≤ f.minParams then f.minParams else countFuncParams f

def typeToQnSimple : CType → Option CStr
  | .pointer (some t) => typeToQnSimple t
  | .reference (some t) => typeToQnSimple t
  | .rvalueRef (some t) => typeToQnSimple t
  | .named qn => qn
  | .template name => name
  | .builtin name => name
  | _ => none

/-- The texts that a `char *` is converted to. -/
def stringTypes : List CStr :=
  ["std.string", "std.basic_string", "std.string_view", "std.basic_string_view",
    "absl.string_view"].map bytesOf

def numerics : List CStr :=
  ["int", "long", "short", "float", "double", "unsigned", "size_t", "int8_t", "int16_t", "int32_t",
    "int64_t", "uint8_t", "uint16_t", "uint32_t", "uint64_t", "ptrdiff_t"].map bytesOf

/-- `c_types_compatible`, for names that are not NULL. -/
def typesCompatible (expected actual : CStr) : Bool :=
  (actual = bytesOf "char" ∧ expected ∈ stringTypes) ∨
    (expected ∈ numerics ∧ actual ∈ numerics) ∨
    (expected = bytesOf "bool" ∧ actual ∈ numerics) ∨
    (expected ∈ numerics ∧ actual = bytesOf "bool")

/-- What one argument adds to the score; an unknown type is neutral. -/
def argScore (expected : CType) : Option CType → Nat
  | none => 0
  | some .unknown => 0
  | some actual =>
      match typeToQnSimple expected, typeToQnSimple actual with
      | some exp, some act => if exp = act then 10 else if typesCompatible exp act then 5 else 0
      | _, _ => 0

/-- `score_overload_match`: 0 where the number of arguments is out of range. -/
def scoreOverloadMatch (f : RegisteredFunc) (argTypes : List (Option CType)) (argCount : Nat) :
    Nat :=
  if (argCount : Int) < minArgs f ∨ countFuncParams f < argCount then 0
  else
    match f.signature with
    | some (.func (some params)) =>
        ((params.take argCount).zipIdx.map fun param =>
          argScore param.1 (argTypes[param.2]?).join).foldl (· + ·) 50
    | _ => 50

/-- The entries of the chain of a hash that have that hash and pass `p`, in the order of the
chain. -/
def overloads (ix : RegistryIndex) (h : UInt64) (p : RegisteredFunc → Bool)
    (funcs : List RegisteredFunc) : List (RegisteredFunc × Nat) :=
  (ix.table.chain (slotOf ix.bucketCount h)).filterMap fun e =>
    if e.hash = h then
      match funcs[e.payloadIndex]? with
      | some f => if p f then some (f, e.payloadIndex) else none
      | none => none
    else none

/-- The lower of an index seen before, if any, and another one. -/
def lower (old : Option Nat) (i : Nat) : Option Nat :=
  match old with
  | none => some i
  | some j => if i < j then some i else some j

/-- `exact_pi`, `range_pi` and `first_pi`. -/
structure ArgsPick where
  exactPi : Option Nat
  rangePi : Option Nat
  firstPi : Option Nat

/-- One round of the hashed loop of the look-ups by the number of arguments. -/
def ArgsPick.add (argCount : Nat) (s : ArgsPick) (entry : RegisteredFunc × Nat) : ArgsPick :=
  let s := { s with firstPi := lower s.firstPi entry.2 }
  if countFuncParams entry.1 = argCount then { s with exactPi := lower s.exactPi entry.2 }
  else if minArgs entry.1 ≤ argCount ∧ argCount ≤ countFuncParams entry.1 then
    { s with rangePi := lower s.rangePi entry.2 }
  else s

def ArgsPick.sel (s : ArgsPick) : Option Nat :=
  s.exactPi <|> s.rangePi <|> s.firstPi

/-- The linear loop of the look-ups by the number of arguments. -/
def scanByArgs (argCount : Nat) (p : RegisteredFunc → Bool) :
    Option Nat → Option Nat → List (RegisteredFunc × Nat) → Option Nat
  | rangeMatch, firstMatch, [] => rangeMatch <|> firstMatch
  | rangeMatch, firstMatch, (f, i) :: rest =>
      if p f then
        if countFuncParams f = argCount then some i
        else
          let inRange := minArgs f ≤ argCount ∧ argCount ≤ countFuncParams f
          scanByArgs argCount p (rangeMatch <|> if inRange then some i else none)
            (firstMatch <|> some i) rest
      else scanByArgs argCount p rangeMatch firstMatch rest

/-- `cbm_registry_lookup_method_by_args` and `cbm_registry_lookup_symbol_by_args`, in one
registry. -/
def byArgsSelf (index : Option RegistryIndex) (h : UInt64) (p : RegisteredFunc → Bool)
    (argCount : Nat) (funcs : List RegisteredFunc) : Option Nat :=
  match index with
  | some ix => ((overloads ix h p funcs).foldl (ArgsPick.add argCount) ⟨none, none, none⟩).sel
  | none => scanByArgs argCount p none none funcs.zipIdx

/-- `best_pi`, `best_score` and `first_pi`. -/
structure TypesPick where
  bestPi : Option Nat
  bestScore : Nat
  firstPi : Option Nat

/-- One round of the hashed loop of the look-ups by types. -/
def TypesPick.add (score : RegisteredFunc → Nat) (s : TypesPick) (entry : RegisteredFunc × Nat) :
    TypesPick :=
  let s := { s with firstPi := lower s.firstPi entry.2 }
  if s.bestScore < score entry.1 ∨
      score entry.1 = s.bestScore ∧ ∃ best ∈ s.bestPi, entry.2 < best then
    { s with bestPi := some entry.2, bestScore := score entry.1 }
  else s

def TypesPick.sel (s : TypesPick) : Option Nat :=
  if s.bestPi.isSome ∧ 0 < s.bestScore then s.bestPi else s.firstPi

/-- The linear loop of the look-ups by types. -/
def scanByTypes (score : RegisteredFunc → Nat) (p : RegisteredFunc → Bool) :
    TypesPick → List (RegisteredFunc × Nat) → Option Nat
  | s, [] => s.bestPi <|> s.firstPi
  | s, (f, i) :: rest =>
      if p f then
        let s := { s with firstPi := s.firstPi <|> some i }
        scanByTypes score p
          (if s.bestScore < score f then { s with bestPi := some i, bestScore := score f } else s)
          rest
      else scanByTypes score p s rest

/-- `cbm_registry_lookup_method_by_types` and `cbm_registry_lookup_symbol_by_types`, in one
registry and with types. -/
def byTypesSelf (index : Option RegistryIndex) (h : UInt64) (p : RegisteredFunc → Bool)
    (score : RegisteredFunc → Nat) (funcs : List RegisteredFunc) : Option Nat :=
  match index with
  | some ix => ((overloads ix h p funcs).foldl (TypesPick.add score) ⟨none, 0, none⟩).sel
  | none => scanByTypes score p ⟨none, 0, none⟩ funcs.zipIdx

/-- `cbm_registry_lookup_method_by_args`. -/
def lookupMethodByArgs (regs : List TypeRegistry) (receiver name : CStr) (argCount : Nat) :
    Option Place :=
  inChain (fun reg =>
    byArgsSelf reg.method (fnv1aPair receiver name) (isMethod receiver name) argCount reg.funcs)
    regs

/-- `cbm_registry_lookup_method_by_types`. -/
def lookupMethodByTypes (regs : List TypeRegistry) (receiver name : CStr)
    (argTypes : Option (List (Option CType))) (argCount : Nat) : Option Place :=
  match argTypes with
  | none => lookupMethodByArgs regs receiver name argCount
  | some argTypes =>
      inChain (fun reg =>
        byTypesSelf reg.method (fnv1aPair receiver name) (isMethod receiver name)
          (fun f => scoreOverloadMatch f argTypes argCount) reg.funcs) regs

def symbolQn (package name : CStr) : Option CStr :=
  let qn := package ++ bytesOf "." ++ name
  if 512 ≤ qn.length then none else some qn

/-- `cbm_registry_lookup_symbol_by_args`. -/
def lookupSymbolByArgs (regs : List TypeRegistry) (package name : CStr) (argCount : Nat) :
    Option Place :=
  (symbolQn package name).bind fun qn =>
    inChain (fun reg =>
      byArgsSelf reg.funcQn (fnv1a qn) (fun f => f.qualifiedName = qn) argCount reg.funcs) regs

/-- `cbm_registry_lookup_symbol_by_types`. -/
def lookupSymbolByTypes (regs : List TypeRegistry) (package name : CStr)
    (argTypes : Option (List (Option CType))) (argCount : Nat) : Option Place :=
  match argTypes with
  | none => lookupSymbolByArgs regs package name argCount
  | some argTypes =>
      (symbolQn package name).bind fun qn =>
        inChain (fun reg =>
          byTypesSelf reg.funcQn (fnv1a qn) (fun f => f.qualifiedName = qn)
            (fun f => scoreOverloadMatch f argTypes argCount) reg.funcs) regs

end Lsp
end CodebaseMemory
