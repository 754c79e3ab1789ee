import CodebaseMemory.Lib.KeepFirst
import CodebaseMemory.Lib.SharedNodes
import CodebaseMemory.Sqlite.Record

/-!
# Type representations (`internal/cbm/lsp/type_rep.c`)

The arena of types, the `cbm_type_*` constructors and `cbm_type_equal`.

Reading aids:
* A pointer is NULL or the address of a type in the arena; `&unknown_singleton` has
  the address 0.  A constructor writes behind all types that there are.
* An array with a count is a list; that the array has `count` entries is what the
  callers promise.  An array that ends with NULL is a list of addresses.
* `cbm_type_equal` is run with fuel for its layers.  A type holds earlier types only,
  so the address of one of the two is enough.
* The kinds INTERFACE and STRUCT have no constructor here.
-/

namespace CodebaseMemory
namespace Lsp

open Lib
open Sqlite (CStr bytesOf)

/-- A pointer to a type. -/
abbrev Ptr := Option Nat

/-- `CBMType`, by its kind. -/
inductive Cell where
  | unknown
  | named (qualifiedName : Option CStr)
  | pointer (elem : Ptr)
  | slice (elem : Ptr)
  | map (key value : Ptr)
  | channel (elem : Ptr) (direction : Int)
  | func (paramNames : Option (List CStr)) (paramTypes returnTypes : Option (List Nat))
  | builtin (name : Option CStr)
  | tuple (elems : List Ptr)
  | typeParam (name : Option CStr)
  | reference (elem : Ptr)
  | rvalueRef (elem : Ptr)
  | template (templateName : Option CStr) (templateArgs : List Ptr)
  | alias (aliasQn : Option CStr) (underlying : Ptr)
  | union (members : List Ptr)
  | literal (base : Ptr) (literalText : Option CStr)
  | protocol (qualifiedName : Option CStr) (methodNames : List CStr) (methodSigs : List Ptr)
  | module (moduleQn : Option CStr)
  | callable (paramTypes : List Ptr) (paramCount : Int) (returnType : Ptr)
  | intersection (members : List Ptr)
  | tsLiteral (tag value : Option CStr)
  | indexed (object index : Ptr)
  | keyof (operand : Ptr)
  | typeofQuery (expr : Option CStr)
  | conditional (check extended trueBranch falseBranch : Ptr)
  | objectLit (propNames : List CStr) (propTypes : List Nat) (callSignature indexValue : Ptr)
  | infer (name : Option CStr)
  | mapped (keyName : Option CStr) (keyConstraint value : Ptr)

/-- The types in the order in which they were written. -/
abbrev Arena := List Cell

/-- `&unknown_singleton`. -/
def unknownSingleton : Ptr := some 0

/-- The arena before the first constructor. -/
def newArena : Arena := [.unknown]

/-- What a pointer points to. -/
def Arena.read (A : Arena) (p : Ptr) : Option Cell :=
  p.bind (A[·]?)

/-- A new type, with its address. -/
def alloc (A : Arena) (cell : Cell) : Arena × Ptr :=
  (A ++ [cell], some A.length)

/-- The loop over two arrays. -/
def equalEach (eq : Ptr → Ptr → Bool) (as bs : List Ptr) : Bool :=
  (as.zip bs).all fun p => eq p.1 p.2

/-- The two loops over the members of unions and intersections. -/
def equalMembers (eq : Ptr → Ptr → Bool) (as bs : List Ptr) : Bool :=
  as.length == bs.length && as.all fun a => bs.any fun b => eq a b

/-- The cases of `cbm_type_equal` for two types of the same kind. -/
def equalCells (eq : Ptr → Ptr → Bool) : Cell → Cell → Bool
  | .unknown, .unknown => true
  | .named q, .named q' => q == q'
  | .builtin n, .builtin n' => n == n'
  | .typeParam n, .typeParam n' => n == n'
  | .pointer e, .pointer e' => eq e e'
  | .slice e, .slice e' => eq e e'
  | .reference e, .reference e' => eq e e'
  | .rvalueRef e, .rvalueRef e' => eq e e'
  | .map k v, .map k' v' => eq k k' && eq v v'
  | .channel e d, .channel e' d' => d == d' && eq e e'
  | .tuple es, .tuple es' => es.length == es'.length && equalEach eq es es'
  | .template n as, .template n' as' =>
      n == n' && (as.length == as'.length && equalEach eq as as')
  | .alias q _, .alias q' _ => q == q'
  | .union ms, .union ms' => equalMembers eq ms ms'
  | .literal b t, .literal b' t' => eq b b' && t == t'
  | .protocol q _ _, .protocol q' _ _ => q == q'
  | .module q, .module q' => q == q'
  | .callable ps n r, .callable ps' n' r' =>
      n == n' && (eq r r' && (decide (n ≤ 0) || equalEach eq ps ps'))
  | .intersection ms, .intersection ms' => equalMembers eq ms ms'
  | .tsLiteral t v, .tsLiteral t' v' => t == t' && v == v'
  | .indexed o i, .indexed o' i' => eq o o' && eq i i'
  | .keyof o, .keyof o' => eq o o'
  | .typeofQuery e, .typeofQuery e' => e == e'
  | .conditional c e t f, .conditional c' e' t' f' => eq c c' && (eq e e' && (eq t t' && eq f f'))
  | .infer n, .infer n' => n == n'
  -- OBJECT_LIT, MAPPED and FUNC are equal as pointers only, and different kinds are not
  | _, _ => false

/-- `cbm_type_equal`, with fuel. -/
def equalLayers (A : Arena) : Nat → Ptr → Ptr → Bool
  | 0, a, b => a == b
  | n + 1, a, b => a == b ||
      match A.read a, A.read b with
      | some c, some d => equalCells (equalLayers A n) c d
      | _, _ => false

def cbmTypeEqual (A : Arena) (a b : Ptr) : Bool :=
  equalLayers A A.length a b

/-- What `cbm_type_equal` compares besides types: the kind, texts and a number. -/
abbrev Label := Nat × List (Option CStr) × Int

/-- How `cbm_type_equal` sees a type. -/
def Cell.shape : Cell → DagNode Label
  | .unknown => .ordered (0, [], 0) []
  | .named q => .ordered (1, [q], 0) []
  | .pointer e => .ordered (2, [], 0) [e]
  | .slice e => .ordered (3, [], 0) [e]
  | .map k v => .ordered (4, [], 0) [k, v]
  | .channel e d => .ordered (5, [], d) [e]
  | .func _ _ _ => .own
  | .builtin n => .ordered (9, [n], 0) []
  | .tuple es => .ordered (10, [], 0) es
  | .typeParam n => .ordered (11, [n], 0) []
  | .reference e => .ordered (12, [], 0) [e]
  | .rvalueRef e => .ordered (13, [], 0) [e]
  | .template n as => .ordered (14, [n], 0) as
  | .alias q _ => .ordered (15, [q], 0) []
  | .union ms => .members (16, [], 0) ms
  | .literal b t => .ordered (17, [t], 0) [b]
  | .protocol q _ _ => .ordered (18, [q], 0) []
  | .module q => .ordered (19, [q], 0) []
  | .callable ps n r => .ordered (20, [], n) (r :: ps)
  | .intersection ms => .members (21, [], 0) ms
  | .tsLiteral t v => .ordered (22, [t, v], 0) []
  | .indexed o i => .ordered (23, [], 0) [o, i]
  | .keyof o => .ordered (24, [], 0) [o]
  | .typeofQuery e => .ordered (25, [e], 0) []
  | .conditional c e t f => .ordered (26, [], 0) [c, e, t, f]
  | .objectLit _ _ _ _ => .own
  | .infer n => .ordered (28, [n], 0) []
  | .mapped _ _ _ => .own

/-- A CALLABLE has as many parameters as it says. -/
def Cell.Made : Cell → Prop
  | .callable ps n _ => ps.length = n.toNat
  | _ => True

def Arena.nodes (A : Arena) : List (DagNode Label) :=
  A.map Cell.shape

section Forms

variable {eq : Ptr → Ptr → Bool} {c d : Cell}

theorem equalCells_callable {ps ps' : List Ptr} {n n' : Int} {r r' : Ptr}
    (hps : ps.length = n.toNat) (hps' : ps'.length = n'.toNat) :
    equalCells eq (.callable ps n r) (.callable ps' n' r') =
      (Cell.callable ps n r).shape.equal eq (Cell.callable ps' n' r').shape := by
  by_cases hn : n = n'
  · subst hn
    have hlength : ps.length = ps'.length := hps.trans hps'.symm
    by_cases hnone : n ≤ 0
    · obtain rfl : ps = [] := List.eq_nil_of_length_eq_zero (by omega)
      simp [equalCells, Cell.shape, DagNode.equal, hnone, hlength.symm]
    · simp [equalCells, Cell.shape, DagNode.equal, equalEach, hnone, hlength]
  · have hleft : equalCells eq (.callable ps n r) (.callable ps' n' r') = false := by
      rw [equalCells, beq_eq_false_iff_ne.mpr hn, Bool.false_and]
    rw [hleft, eq_comm, Bool.eq_false_iff]
    intro h
    rcases DagNode.equal_iff.mp h with ⟨l, _, _, hl, hl', _⟩ | ⟨l, _, _, hl, _⟩
    · have hlabel := (DagNode.ordered.inj hl).1.trans (DagNode.ordered.inj hl').1.symm
      exact hn (congrArg (fun label => label.2.2) hlabel)
    · exact absurd hl (by simp [Cell.shape])

theorem equalCells_eq (hc : c.Made) (hd : d.Made) :
    equalCells eq c d = c.shape.equal eq d.shape := by
  cases c <;> cases d <;> first | rfl | skip
  case callable.callable => exact equalCells_callable hc hd
  case literal.literal b t b' t' =>
    simp [equalCells, Cell.shape, DagNode.equal, Bool.beq_eq_decide_eq, Bool.and_comm]
  all_goals simp [equalCells, Cell.shape, DagNode.equal, equalEach, Bool.beq_eq_decide_eq,
    Bool.and_assoc]

/-- The arena holds CALLABLE types as they are made. -/
def Arena.Made (A : Arena) : Prop :=
  ∀ (i : Nat) (cell : Cell), A[i]? = some cell → cell.Made

theorem Arena.read_nodes {A : Arena} (p : Ptr) :
    p.bind (A.nodes[·]?) = (A.read p).map Cell.shape := by
  cases p with
  | none => rfl
  | some i => exact List.getElem?_map

theorem Arena.Made.read {A : Arena} (hA : A.Made) {p : Ptr} {cell : Cell}
    (h : A.read p = some cell) : cell.Made := by
  obtain ⟨i, _, hi⟩ := Option.bind_eq_some_iff.mp h
  exact hA i cell hi

theorem equalLayers_eq {A : Arena} (hA : A.Made) (n : Nat) (a b : Ptr) :
    equalLayers A n a b = equalFuel A.nodes n a b := by
  induction n generalizing a b with
  | zero => rfl
  | succ n ih =>
      have heq : equalLayers A n = equalFuel A.nodes n := funext fun a => funext fun b => ih a b
      rw [equalLayers, equalFuel, Arena.read_nodes, Arena.read_nodes]
      cases ha : A.read a with
      | none => rfl
      | some c =>
          cases hb : A.read b with
          | none => rfl
          | some d =>
              rw [heq, Option.map_some, Option.map_some]
              exact congrArg (a == b || ·) (equalCells_eq (hA.read ha) (hA.read hb))

end Forms

section Constructors

variable (A : Arena)

def cbmTypeNamed (qualifiedName : Option CStr) : Arena × Ptr := alloc A (.named qualifiedName)

def cbmTypePointer (elem : Ptr) : Arena × Ptr := alloc A (.pointer elem)

def cbmTypeSlice (elem : Ptr) : Arena × Ptr := alloc A (.slice elem)

def cbmTypeMap (key value : Ptr) : Arena × Ptr := alloc A (.map key value)

def cbmTypeChannel (elem : Ptr) (direction : Int) : Arena × Ptr := alloc A (.channel elem direction)

/-- `cbm_type_func`; an array may be NULL. -/
def cbmTypeFunc (paramNames : Option (List CStr)) (paramTypes returnTypes : Option (List Nat)) :
    Arena × Ptr :=
  alloc A (.func paramNames paramTypes returnTypes)

def cbmTypeBuiltin (name : Option CStr) : Arena × Ptr := alloc A (.builtin name)

def cbmTypeTuple (elems : List Ptr) : Arena × Ptr := alloc A (.tuple elems)

def cbmTypeTypeParam (name : Option CStr) : Arena × Ptr := alloc A (.typeParam name)

def cbmTypeReference (elem : Ptr) : Arena × Ptr := alloc A (.reference elem)

def cbmTypeRvalueRef (elem : Ptr) : Arena × Ptr := alloc A (.rvalueRef elem)

def cbmTypeTemplate (name : Option CStr) (args : List Ptr) : Arena × Ptr :=
  alloc A (.template name args)

def cbmTypeAlias (aliasQn : Option CStr) (underlying : Ptr) : Arena × Ptr :=
  alloc A (.alias aliasQn underlying)

/-- An entry of the flat array, as long as there is room. -/
def pushFlat (flatCap : Nat) (flat : List Ptr) (m : Ptr) : List Ptr :=
  if flat.length < flatCap then flat ++ [m] else flat

/-- One turn of the loop that flattens the members of a union. -/
def flattenStep (flatCap : Nat) (flat : List Ptr) (m : Ptr) : List Ptr :=
  match A.read m with
  | none => flat
  | some .unknown => flat
  | some (.union members) => members.foldl (pushFlat flatCap) flat
  | some _ => pushFlat flatCap flat m

def unionMemberDedupe (scratch : List Ptr) : List Ptr :=
  keepFirst (cbmTypeEqual A) scratch

def cbmTypeUnion (members : List Ptr) : Arena × Ptr :=
  let flatCap := members.length * 2 + 4
  let flat := members.foldl (flattenStep A flatCap) []
  match unionMemberDedupe A flat with
  | [] => (A, unknownSingleton)
  | [m] => (A, m)
  | unique => alloc A (.union unique)

def cbmTypeOptional (inner : Ptr) : Arena × Ptr :=
  match inner with
  | none => (A, unknownSingleton)
  | some _ =>
      let none' := cbmTypeBuiltin A (some (bytesOf "None"))
      cbmTypeUnion none'.1 [inner, none'.2]

def cbmTypeLiteral (base : Ptr) (literalText : Option CStr) : Arena × Ptr :=
  alloc A (.literal (base.or unknownSingleton) literalText)

/-- `cbm_type_protocol`; without names there are no signatures, and without signatures they
are NULL. -/
def cbmTypeProtocol (qualifiedName : Option CStr) (methodNames : List CStr)
    (methodSigs : Option (List Ptr)) : Arena × Ptr :=
  alloc A (.protocol qualifiedName methodNames
    ((methodSigs.getD (methodNames.map fun _ => none)).take methodNames.length))

def cbmTypeModule (moduleQn : Option CStr) : Arena × Ptr := alloc A (.module moduleQn)

def cbmTypeCallable (paramTypes : List Ptr) (paramCount : Int) (returnType : Ptr) : Arena × Ptr :=
  alloc A (.callable (paramTypes.take paramCount.toNat) paramCount
    (returnType.or unknownSingleton))

def cbmTypeIntersection (members : List Ptr) : Arena × Ptr := alloc A (.intersection members)

def cbmTypeTsLiteral (tag value : Option CStr) : Arena × Ptr := alloc A (.tsLiteral tag value)

def cbmTypeIndexed (object index : Ptr) : Arena × Ptr := alloc A (.indexed object index)

def cbmTypeKeyof (operand : Ptr) : Arena × Ptr := alloc A (.keyof operand)

def cbmTypeTypeofQuery (expr : Option CStr) : Arena × Ptr := alloc A (.typeofQuery expr)

def cbmTypeConditional (check extended trueBranch falseBranch : Ptr) : Arena × Ptr :=
  alloc A (.conditional check extended trueBranch falseBranch)

/-- `cbm_type_object_lit`; the arrays end with the shorter one. -/
def cbmTypeObjectLit (propNames : List CStr) (propTypes : List Nat)
    (callSignature indexValue : Ptr) : Arena × Ptr :=
  alloc A (.objectLit (propNames.take propTypes.length) (propTypes.take propNames.length)
    callSignature indexValue)

def cbmTypeInfer (name : Option CStr) : Arena × Ptr := alloc A (.infer name)

def cbmTypeMapped (keyName : Option CStr) (keyConstraint value : Ptr) : Arena × Ptr :=
  alloc A (.mapped keyName keyConstraint value)

end Constructors

end Lsp
end CodebaseMemory
