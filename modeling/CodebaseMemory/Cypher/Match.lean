import CodebaseMemory.Cypher.Eval
import CodebaseMemory.Lib.Capped

/-!
# MATCH (`src/cypher/cypher.c`)

The first node of a pattern is scanned for; its relationships are expanded from
left to right over the list of bindings; further patterns are expanded from a
bound start or joined to every binding.  WHERE filters the scanned nodes early
and the bindings at the end.

The engine stops adding bindings at ten times the number of scanned nodes
(`CYP_GROWTH_10`).  The factor is an argument here, `some 10` in the engine and
`none` where a statement leaves the caps out.
-/

namespace CodebaseMemory
namespace Cypher

open Lib
open Sqlite (CStr bytesOf)

def looksLikeRegex (s : CStr) : Bool :=
  (afterFirst (bytesOf ".*") s).isSome || (afterFirst (bytesOf ".+") s).isSome ||
    s.any fun c => c ∈ bytesOf "[(|^$"

/-- One filter of `check_inline_props`. -/
def checkInlineProp (lib : Libc) (s : Store) (n : Node) (p : PropFilter) : Bool :=
  let actual := nodeProp (some s) n p.key
  if looksLikeRegex p.value then
    match lib.regexec p.value actual with
    | some matched => matched
    | none => actual = p.value
  else actual = p.value

def checkInlineProps (lib : Libc) (s : Store) (n : Node) (props : List PropFilter) : Bool :=
  props.all (checkInlineProp lib s n)

/-- The byte `|`. -/
def bar : UInt8 := 124

/-- The labels of an alternation; the loop ends at the end of the string, so
that no empty label follows the last bar. -/
def altSegments (pat : CStr) : List CStr :=
  let segments := pat.splitOn bar
  if segments.getLast? = some [] then segments.dropLast else segments

def labelAltMatches (actual : Option CStr) (pat : CStr) : Bool :=
  match actual with
  | none => false
  | some a => if bar ∈ pat then a ∈ altSegments pat else a = pat

def matchesTarget (lib : Libc) (s : Store) (target : NodePattern) (n : Node) : Bool :=
  (match target.label with
    | none => true
    | some pat => labelAltMatches n.label pat) && checkInlineProps lib s n target.props

/-- `scan_alternation_labels`; `strtok_r` skips empty labels. -/
def scanAlternationLabels (s : Store) (project : Option CStr) (labels : CStr) : List Node :=
  ((labels.splitOn bar).filter (· ≠ [])).flatMap (s.findNodesByLabel project)

/-- `scan_pattern_nodes`, with the limit for a scan without a label. -/
def scanPatternNodes (lib : Libc) (s : Store) (project : Option CStr) (limit : Option Nat)
    (first : NodePattern) : List Node :=
  let nodes := match first.label with
    | some label =>
        if bar ∈ label then scanAlternationLabels s project label
        else s.findNodesByLabel project label
    | none => s.search project limit
  nodes.filter fun n => checkInlineProps lib s n first.props

section Expand

variable (lib : Libc)
variable (s : Store)
variable (maxNew : Option Nat)

def extendByEdge (target : NodePattern) (b : Binding) (toVar : CStr) (relVar : Option CStr)
    (inbound : Bool) (e : Edge) : Option Binding :=
  match s.findNodeById (if inbound then e.sourceId else e.targetId) with
  | none => none
  | some found =>
      if matchesTarget lib s target found then
        some (bindingSetEdge (bindingSet b toVar found) relVar e)
      else none

/-- `process_edges`; `acc` is `new_bindings`. -/
def processEdges (target : NodePattern) (b : Binding) (toVar : CStr) (relVar : Option CStr)
    (inbound : Bool) (edges : List Edge) (acc : List Binding) : List Binding :=
  collect maxNew (extendByEdge lib s target b toVar relVar inbound) edges acc

/-- The edges that `expand_fixed_length` goes through, in order, with the flag
`inbound`. -/
def fixedLengthEdges (rel : RelPattern) (src : Int) : List (Bool × List Edge) :=
  let isInbound : Bool := rel.direction = .inbound
  let isAny : Bool := rel.direction = .any
  match rel.types with
  | [] =>
      (isInbound, if isInbound then s.findEdgesByTarget src else s.findEdgesBySource src) ::
        if isAny then [(true, s.findEdgesByTarget src)] else []
  | types =>
      (types.map fun t => (isInbound,
          if isInbound then s.findEdgesByTargetType src t else s.findEdgesBySourceType src t)) ++
        if isAny then types.map fun t => (true, s.findEdgesByTargetType src t) else []

def expandFixedLength (rel : RelPattern) (target : NodePattern) (b : Binding) (src : Node)
    (toVar : CStr) (acc : List Binding) : List Binding :=
  (fixedLengthEdges s rel src.id).foldl
    (fun acc part => processEdges lib s maxNew target b toVar rel.var part.1 part.2 acc) acc

def cypMaxDepth : Nat := 10

/-- The rows that `expand_var_length` gets; 100 is `CBM_PERCENT`. -/
def varLengthRows (rel : RelPattern) (src : Node) : List (Node × Nat) :=
  cbmStoreBfs s src.id rel.direction rel.types
    (if rel.maxHops > 0 then rel.maxHops else cypMaxDepth) 100

/-- What a row adds to a binding. -/
def extendByHop (rel : RelPattern) (target : NodePattern) (b : Binding) (toVar : CStr)
    (hop : Node × Nat) : Option Binding :=
  if hop.2 < rel.minHops || !matchesTarget lib s target hop.1 then none
  else some (bindingSet b toVar hop.1)

def expandVarLength (rel : RelPattern) (target : NodePattern) (b : Binding) (src : Node)
    (toVar : CStr) (acc : List Binding) : List Binding :=
  collect maxNew (extendByHop lib s rel target b toVar) (varLengthRows s rel src) acc

def RelPattern.isVariableLength (rel : RelPattern) : Bool :=
  rel.minHops ≠ 1 || rel.maxHops ≠ 1

def NodePattern.toVar (target : NodePattern) : CStr :=
  target.var.getD (bytesOf "_n_t")

/-- What the loop of `expand_pattern_rels` does with a binding. -/
def expandBinding (optional : Bool) (rel : RelPattern) (target : NodePattern) (varName : CStr)
    (acc : List Binding) (b : Binding) : List Binding :=
  match bindingGet b varName with
  | none => acc
  | some src =>
      let new :=
        if rel.isVariableLength then expandVarLength lib s maxNew rel target b src target.toVar acc
        else expandFixedLength lib s maxNew rel target b src target.toVar acc
      if optional && new.length = acc.length then new ++ [b] else new

def expandPatternRels (optional : Bool) :
    List (RelPattern × NodePattern) → CStr → List Binding → List Binding
  | [], _, bindings => bindings
  | (rel, target) :: steps, varName, bindings =>
      expandPatternRels optional steps target.toVar
        (bindings.foldl (expandBinding lib s maxNew optional rel target varName) [])

end Expand

section Patterns

variable (lib : Libc)
variable (s : Store)
variable (growth : Option Nat)

def crossJoinNodes (bindings : List Binding) (extra : List Node) (nvar : CStr) (opt : Bool) :
    List Binding :=
  bindings.flatMap fun b =>
    extra.map (bindingSet b nvar) ++ if opt && extra.isEmpty then [b] else []

/-- `cross_join_with_rels`; every scanned node starts from a capacity of one. -/
def crossJoinWithRels (steps : List (RelPattern × NodePattern)) (bindings : List Binding)
    (extra : List Node) (nvar : CStr) (opt : Bool) : List Binding :=
  bindings.flatMap fun b =>
    (extra.flatMap fun n =>
        expandPatternRels lib s (growth.map (1 * ·)) opt steps nvar [bindingSet b nvar n]) ++
      if opt && extra.isEmpty then [b] else []

/-- The variable of the first node of a further pattern. -/
def Pattern.nvar (pat : Pattern) : CStr :=
  pat.start.var.getD (bytesOf "_n_extra")

/-- One round of `expand_additional_patterns`.  Whether the start is bound is
read from the first binding. -/
def expandAdditionalPattern (project : Option CStr) (maxRows bindCap : Nat)
    (bindings : List Binding) (pat : Pattern × Bool) : List Binding :=
  let nvar := pat.1.nvar
  let startBound := match bindings with
    | [] => false
    | b :: _ => (bindingGet b nvar).isSome
  if startBound && !pat.1.steps.isEmpty then
    expandPatternRels lib s (growth.map (bindCap * ·)) pat.2 pat.1.steps nvar bindings
  else
    let extra := scanPatternNodes lib s project (growth.map (maxRows * ·)) pat.1.start
    if pat.1.steps.isEmpty then crossJoinNodes bindings extra nvar pat.2
    else crossJoinWithRels lib s growth pat.1.steps bindings extra nvar pat.2

def expandAdditionalPatterns (project : Option CStr) (maxRows bindCap : Nat)
    (more : List (Pattern × Bool)) (bindings : List Binding) : List Binding :=
  more.foldl (expandAdditionalPattern lib s growth project maxRows bindCap) bindings

def Query.startVar (q : Query) : CStr :=
  q.first.start.var.getD (bytesOf "_n0")

def Query.passes (q : Query) (b : Binding) : Bool :=
  match q.whereClause with
  | none => true
  | some w => evalWhere lib (some s) w b

/-- The nodes that `execute_single` scans. -/
def Query.scanned (q : Query) (project : Option CStr) (maxRows : Nat) : List Node :=
  scanPatternNodes lib s project (growth.map (maxRows * ·)) q.first.start

/-- The bindings of the scanned nodes. -/
def Query.startBindings (q : Query) (project : Option CStr) (maxRows : Nat) : List Binding :=
  (q.scanned lib s growth project maxRows).map (bindingSet Binding.empty q.startVar)

/-- Steps 2 and 2b of `execute_single`. -/
def Query.expand (q : Query) (project : Option CStr) (maxRows : Nat) (bindings : List Binding) :
    List Binding :=
  let scanCount := (q.scanned lib s growth project maxRows).length
  let bindCap := if scanCount > 0 then scanCount else 1
  expandAdditionalPatterns lib s growth project maxRows bindCap q.more
    (expandPatternRels lib s (growth.map (bindCap * ·)) q.firstOptional q.first.steps q.startVar
      bindings)

/-- The bindings of `execute_single` after the late WHERE. -/
def Query.execute (q : Query) (project : Option CStr) (maxRows : Nat) : List Binding :=
  let early := (q.startBindings lib s growth project maxRows).filter (q.passes lib s)
  let bindings := q.expand lib s growth project maxRows early
  if !q.first.steps.isEmpty || !q.more.isEmpty then bindings.filter (q.passes lib s)
  else bindings

end Patterns

end Cypher
end CodebaseMemory
