import CodebaseMemory.Cypher.Rounds
import Mathlib.Data.Finset.NAry

/-!
# The early WHERE

`execute_single` evaluates WHERE on the scanned nodes, when only the first
variable is bound, and again on the finished bindings.  A value of a variable
that is not bound yet passes the early test, which is safe as long as nothing
inverts it; a label or an edge of such a variable fails it.

The verdicts that a WHERE can have depend on its shape: the tree, and for each
leaf whether it is about the first variable, whether it reads a value, and
whether it is negated.  `Shape.outcomes` is the set of pairs of an early and a
late verdict that a shape allows.
-/

namespace CodebaseMemory
namespace Cypher

open Lib
open Sqlite (CStr bytesOf)

/-- What the early verdict depends on. -/
inductive Shape where
  | leaf (onStart readsValue negated : Bool)
  | and (left right : Shape)
  | or (left right : Shape)
  | not (child : Shape)
  | xor (left right : Shape)

/-- The test compares a value; the others are about a label or an edge. -/
def Test.readsValue : Test → Bool
  | .compare _ _ _ => true
  | .isNull _ => true
  | .isNotNull _ => true
  | .isIn _ _ => true
  | .hasLabel _ => false
  | .hasEdge _ _ => false

def Expr.shape (start : CStr) : Expr → Shape
  | .condition c => .leaf (c.var = start) c.test.readsValue c.negated
  | .and left right => .and (left.shape start) (right.shape start)
  | .or left right => .or (left.shape start) (right.shape start)
  | .not child => .not (child.shape start)
  | .xor left right => .xor (left.shape start) (right.shape start)

/-- The pairs of an early and a late verdict. -/
def Shape.outcomes : Shape → Finset (Bool × Bool)
  | .leaf true _ _ => {(true, true), (false, false)}
  | .leaf false true _ => {(true, true), (true, false)}
  | .leaf false false negated => {(negated, true), (negated, false)}
  | .and left right =>
      Finset.image₂ (fun l r => (l.1 && r.1, l.2 && r.2)) left.outcomes right.outcomes
  | .or left right =>
      Finset.image₂ (fun l r => (l.1 || r.1, l.2 || r.2)) left.outcomes right.outcomes
  | .not child => child.outcomes.image fun v => (!v.1, !v.2)
  | .xor left right =>
      Finset.image₂ (fun l r => (l.1 != r.1, l.2 != r.2)) left.outcomes right.outcomes

/-- The outcomes of a clause; an empty one passes. -/
def whereOutcomes : Option Shape → Finset (Bool × Bool)
  | none => {(true, true)}
  | some shape => shape.outcomes

def Query.whereShape (q : Query) : Option Shape :=
  q.whereClause.join.map (Expr.shape q.startVar)

/-- The binding has the node, and no edge, under the name of the first variable. -/
structure Extends (start : CStr) (n : Node) (b : Binding) : Prop where
  node : bindingGet b start = some n
  edge : bindingGetEdge b start = none

section Verdicts

variable {lib : Libc}
variable {store : Option Store}
variable {start : CStr}
variable {n : Node}

theorem extends_startBinding (start : CStr) (n : Node) :
    Extends start n (bindingSet Binding.empty start n) where
  node := by rw [bindingGet_startBinding, if_pos rfl]
  edge := rfl

theorem evalCondition_congr {c : Condition} {b b' : Binding} (hc : c.var = start)
    (hb : Extends start n b) (hb' : Extends start n b') :
    evalCondition lib store c b = evalCondition lib store c b' := by
  obtain ⟨var, test, negated⟩ := c
  obtain rfl : var = start := hc
  cases test <;>
    simp [evalCondition, resolveConditionValue, hb.node, hb'.node, hb.edge, hb'.edge]

theorem evalCondition_startBinding {c : Condition} (hc : c.var ≠ start) :
    evalCondition lib store c (bindingSet Binding.empty start n) =
      (c.test.readsValue || c.negated) := by
  obtain ⟨var, test, negated⟩ := c
  have hnode : bindingGet (bindingSet Binding.empty start n) var = none := by
    rw [bindingGet_startBinding, if_neg (Ne.symm hc)]
  have hedge : bindingGetEdge (bindingSet Binding.empty start n) var = none := rfl
  cases test <;> cases negated <;>
    simp [evalCondition, resolveConditionValue, Test.readsValue, hnode, hedge]

theorem leaf_verdicts {c : Condition} {b : Binding} (hb : Extends start n b) :
    (evalCondition lib store c (bindingSet Binding.empty start n), evalCondition lib store c b) ∈
      (Shape.leaf (c.var = start) c.test.readsValue c.negated).outcomes := by
  by_cases hc : c.var = start
  · rw [decide_eq_true hc, evalCondition_congr hc (extends_startBinding start n) hb]
    cases evalCondition lib store c b <;> simp [Shape.outcomes]
  · rw [decide_eq_false hc, evalCondition_startBinding hc]
    cases c.test.readsValue <;> cases evalCondition lib store c b <;> simp [Shape.outcomes]

theorem verdicts_mem_outcomes {b : Binding} (hb : Extends start n b) (e : Expr) :
    (evalExpr lib store (bindingSet Binding.empty start n) e, evalExpr lib store b e) ∈
      (e.shape start).outcomes := by
  induction e with
  | condition c => exact leaf_verdicts hb
  | and left right ihl ihr => exact Finset.mem_image₂_of_mem ihl ihr
  | or left right ihl ihr => exact Finset.mem_image₂_of_mem ihl ihr
  | not child ih => exact Finset.mem_image_of_mem _ ih
  | xor left right ihl ihr => exact Finset.mem_image₂_of_mem ihl ihr

end Verdicts

/-- The relationships of a pattern do not set the variable. -/
def Pattern.Keeps (start : CStr) (pat : Pattern) : Prop :=
  ∀ step ∈ pat.steps, step.2.toVar ≠ start ∧ step.1.var ≠ some start

/-- Nothing binds the first variable again, and the further patterns are steady. -/
structure Query.Steady (q : Query) : Prop where
  first : q.first.Keeps q.startVar
  more : ∀ pat ∈ q.more, pat.1.Keeps q.startVar ∧ (pat.1.steps = [] → pat.1.nvar ≠ q.startVar)
  steady : Cypher.Steady q.more
    (stepsNames q.firstOptional q.first.steps q.startVar [q.startVar])

/-- The bindings of `execute_single` without the early WHERE. -/
def Query.executeLate (lib : Libc) (s : Store) (growth : Option Nat) (q : Query)
    (project : Option CStr) (maxRows : Nat) : List Binding :=
  (q.expand lib s growth project maxRows (q.startBindings lib s growth project maxRows)).filter
    (q.passes lib s)

section Start

variable {lib : Libc}
variable {s : Store}
variable {project : Option CStr}
variable {start : CStr}
variable {n : Node}

theorem Extends.expandSteps {optional : Bool} (steps : List (RelPattern × NodePattern)) :
    ∀ {varName : CStr} {b c : Binding},
      (∀ step ∈ steps, step.2.toVar ≠ start ∧ step.1.var ≠ some start) → Extends start n b →
      c ∈ expandSteps lib s optional steps varName b → Extends start n c := by
  induction steps with
  | nil =>
      intro varName b c _ hb hc
      rwa [List.mem_singleton.mp hc]
  | cons step steps ih =>
      intro varName b c hkeeps hb hc
      obtain ⟨d, hd, hcd⟩ := List.mem_flatMap.mp hc
      obtain ⟨hnode, hedge⟩ := hkeeps step List.mem_cons_self
      refine ih (fun step hstep => hkeeps step (List.mem_cons_of_mem _ hstep)) ?_ hcd
      rcases mem_stepBindings hd with rfl | hmatch
      · exact hb
      · exact ⟨(bindingGet_of_mem_stepMatches hmatch (Ne.symm hnode)).trans hb.node,
          (bindingGetEdge_of_mem_stepMatches hmatch hedge).trans hb.edge⟩

theorem Extends.expandRound {pat : Pattern × Bool} {b c : Binding} (hkeeps : pat.1.Keeps start)
    (hnodes : pat.1.steps = [] → pat.1.nvar ≠ start) (hb : Extends start n b)
    (hc : c ∈ expandRound lib s project pat b) : Extends start n c := by
  unfold Cypher.expandRound at hc
  split at hc
  · exact Extends.expandSteps pat.1.steps hkeeps hb hc
  · rename_i hjoin
    -- a join at the first variable would be one without relationships
    have hne : pat.1.nvar ≠ start := by
      intro heq
      refine hnodes ?_ heq
      simpa [heq, hb.node] using hjoin
    rcases List.mem_append.mp hc with hmatch | hkept
    · obtain ⟨m, -, hm⟩ := List.mem_flatMap.mp hmatch
      have hset : Extends start n (bindingSet b pat.1.nvar m) :=
        ⟨(bindingGet_bindingSet_of_ne (Ne.symm hne)).trans hb.node, hb.edge⟩
      exact Extends.expandSteps pat.1.steps hkeeps hset hm
    · split at hkept
      · rwa [List.mem_singleton.mp hkept]
      · cases hkept

theorem Extends.expandRounds (more : List (Pattern × Bool)) :
    ∀ {b c : Binding},
      (∀ pat ∈ more, pat.1.Keeps start ∧ (pat.1.steps = [] → pat.1.nvar ≠ start)) →
      Extends start n b → c ∈ expandRounds lib s project more b → Extends start n c := by
  induction more with
  | nil =>
      intro b c _ hb hc
      rwa [List.mem_singleton.mp hc]
  | cons pat more ih =>
      intro b c hmore hb hc
      obtain ⟨d, hd, hcd⟩ := List.mem_flatMap.mp hc
      obtain ⟨hkeeps, hnodes⟩ := hmore pat List.mem_cons_self
      exact ih (fun pat hpat => hmore pat (List.mem_cons_of_mem _ hpat))
        (hb.expandRound hkeeps hnodes hd) hcd

end Start

section Early

variable {lib : Libc}
variable {s : Store}

theorem Query.passes_eq (q : Query) (b : Binding) :
    q.passes lib s b = evalWhere lib (some s) q.whereClause.join b := by
  unfold Query.passes
  cases q.whereClause with
  | none => rfl
  | some w => rfl

theorem where_verdicts (lib : Libc) (s : Store) {start : CStr} {n : Node} {b : Binding}
    (hb : Extends start n b) (w : WhereClause) :
    (evalWhere lib (some s) w (bindingSet Binding.empty start n), evalWhere lib (some s) w b) ∈
      whereOutcomes (w.map (Expr.shape start)) := by
  cases w with
  | none => exact Finset.mem_singleton_self _
  | some e => exact verdicts_mem_outcomes hb e

/-- What the query makes of the binding of a scanned node. -/
def Query.expandStart (lib : Libc) (s : Store) (project : Option CStr) (q : Query) (b : Binding) :
    List Binding :=
  (expandSteps lib s q.firstOptional q.first.steps q.startVar b).flatMap
    (expandRounds lib s project q.more)

theorem Query.Steady.expand_eq {q : Query} (hq : q.Steady) (project : Option CStr) (maxRows : Nat)
    {nodes : List Node} :
    q.expand lib s none project maxRows (nodes.map (bindingSet Binding.empty q.startVar)) =
      (nodes.map (bindingSet Binding.empty q.startVar)).flatMap
        (q.expandStart lib s project) := by
  have hnames : ∀ c ∈ (nodes.map (bindingSet Binding.empty q.startVar)).flatMap
      (expandSteps lib s q.firstOptional q.first.steps q.startVar),
      c.names ∈ stepsNames q.firstOptional q.first.steps q.startVar [q.startVar] := by
    intro c hc
    obtain ⟨b, hb, hcb⟩ := List.mem_flatMap.mp hc
    obtain ⟨n, -, rfl⟩ := List.mem_map.mp hb
    exact names_of_mem_expandSteps q.first.steps hcb
  unfold Query.expand
  dsimp only [Option.map_none]
  rw [expandPatternRels_uncapped, expandAdditionalPatterns_steady q.more hq.steady hnames, List.flatMap_assoc]
  rfl

theorem Query.Steady.extends {q : Query} (hq : q.Steady) {project : Option CStr} {n : Node}
    {c : Binding}
    (hc : c ∈ q.expandStart lib s project (bindingSet Binding.empty q.startVar n)) :
    Extends q.startVar n c := by
  obtain ⟨d, hd, hcd⟩ := List.mem_flatMap.mp hc
  refine Extends.expandRounds q.more hq.more ?_ hcd
  exact Extends.expandSteps q.first.steps hq.first (extends_startBinding q.startVar n) hd

theorem filter_flatMap_filter {α β : Type} {p : α → Bool} {q : β → Bool} {f : α → List β}
    {l : List α} (hdrop : ∀ a ∈ l, p a = false → ∀ b ∈ f a, q b = false) :
    ((l.filter p).flatMap f).filter q = (l.flatMap f).filter q := by
  induction l with
  | nil => rfl
  | cons a l ih =>
      have hrest := ih fun x hx => hdrop x (List.mem_cons_of_mem _ hx)
      cases hp : p a with
      | true =>
          rw [List.filter_cons_of_pos hp, List.flatMap_cons, List.flatMap_cons,
            List.filter_append, List.filter_append, hrest]
      | false =>
          have hnil : (f a).filter q = [] := by
            rw [List.filter_eq_nil_iff]
            intro b hb
            rw [hdrop a List.mem_cons_self hp b hb]
            exact Bool.false_ne_true
          rw [List.filter_cons_of_neg (by simp [hp]), List.flatMap_cons, List.filter_append,
            hnil, List.nil_append, hrest]

theorem Query.Steady.execute_eq {q : Query} (hq : q.Steady)
    (hshape : (false, true) ∉ whereOutcomes q.whereShape) (project : Option CStr) (maxRows : Nat) :
    q.execute lib s none project maxRows = q.executeLate lib s none project maxRows := by
  have hdrop : ∀ b ∈ q.startBindings lib s none project maxRows, q.passes lib s b = false →
      ∀ c ∈ q.expandStart lib s project b, q.passes lib s c = false := by
    intro b hb hearly c hc
    obtain ⟨n, -, rfl⟩ := List.mem_map.mp hb
    have hverdicts := where_verdicts lib s (hq.extends hc) q.whereClause.join
    rw [← Query.passes_eq, ← Query.passes_eq, hearly] at hverdicts
    by_contra hlate
    rw [Bool.not_eq_false] at hlate
    rw [hlate] at hverdicts
    exact hshape hverdicts
  have hearly : (q.startBindings lib s none project maxRows).filter (q.passes lib s) =
      ((q.scanned lib s none project maxRows).filter
        (q.passes lib s ∘ bindingSet Binding.empty q.startVar)).map
          (bindingSet Binding.empty q.startVar) := List.filter_map
  have hlate : q.executeLate lib s none project maxRows =
      ((q.startBindings lib s none project maxRows).flatMap (q.expandStart lib s project)).filter
        (q.passes lib s) := by
    unfold Query.executeLate Query.startBindings
    rw [hq.expand_eq]
  unfold Query.execute
  dsimp only
  rw [hlate, ← filter_flatMap_filter hdrop, hearly, hq.expand_eq]
  split
  · rfl
  · rename_i hnodes
    -- without relationships and further patterns the bindings are final
    simp only [Bool.or_eq_true, Bool.not_eq_true', List.isEmpty_eq_false_iff, not_or,
      not_not] at hnodes
    have hstart : q.expandStart lib s project = fun b => [b] := by
      funext b
      simp [Query.expandStart, hnodes.1, hnodes.2, expandSteps, expandRounds]
    rw [hstart, List.flatMap_singleton', ← hearly, List.filter_filter]
    simp

end Early

/-- `a` in the queries below. -/
def varA : CStr := bytesOf "a"

/-- `b` in the queries below. -/
def varB : CStr := bytesOf "b"

/-- The function. -/
def recursiveNode : Node where
  id := 1
  project := some (bytesOf "p")
  label := some (bytesOf "Function")
  name := some (bytesOf "f")
  qualifiedName := some (bytesOf "p.f")
  filePath := some (bytesOf "f.py")
  startLine := 1
  endLine := 2
  propertiesJson := some []

def recursiveCall : Edge where
  id := 1
  sourceId := 1
  targetId := 1
  type := bytesOf "CALLS"
  propertiesJson := some []

def recursiveStore : Store where
  nodes := [recursiveNode]
  edges := [recursiveCall]
  nodeIds := List.nodup_singleton _
  edgeKeys := List.nodup_singleton _

/-- `MATCH (a:Function)-[:CALLS]->(b) WHERE …`. -/
def callsQuery (e : Expr) : Query where
  first :=
    { start := { var := some varA, label := some (bytesOf "Function"), props := [] }
      steps := [({ var := none, types := [bytesOf "CALLS"], direction := .outbound,
                   minHops := 1, maxHops := 1 },
                 { var := some varB, label := none, props := [] })] }
  firstOptional := false
  more := []
  whereClause := some (some e)

def earlyBinding : Binding := bindingSet Binding.empty varA recursiveNode

/-- The match. -/
def lateBinding : Binding := bindingSet earlyBinding varB recursiveNode

section Realise

variable (lib : Libc)

def tunedTest (readsValue result : Bool) : Test :=
  if readsValue then .isIn none (if result then [bytesOf "f"] else [])
  else .hasLabel (if result then bytesOf "Function" else [])

def tunedCondition (onStart readsValue negated verdict : Bool) : Condition where
  var := if onStart then varA else varB
  test := tunedTest readsValue (verdict != negated)
  negated := negated

theorem varB_ne_varA : varB ≠ varA := by decide

theorem shape_tunedCondition (onStart readsValue negated verdict : Bool) :
    (Expr.condition (tunedCondition onStart readsValue negated verdict)).shape varA =
      .leaf onStart readsValue negated := by
  cases onStart <;> cases readsValue <;> rfl

theorem late_tunedCondition (onStart readsValue negated verdict : Bool) :
    evalCondition lib (some recursiveStore)
      (tunedCondition onStart readsValue negated verdict) lateBinding = verdict := by
  cases onStart <;> cases readsValue <;> cases negated <;> cases verdict <;> rfl

theorem early_tunedCondition (onStart readsValue negated verdict : Bool) :
    evalCondition lib (some recursiveStore)
      (tunedCondition onStart readsValue negated verdict) earlyBinding =
        if onStart then verdict else readsValue || negated := by
  cases onStart <;> cases readsValue <;> cases negated <;> cases verdict <;> rfl

theorem exists_leaf_verdicts (onStart readsValue negated : Bool) {v : Bool × Bool}
    (hv : v ∈ (Shape.leaf onStart readsValue negated).outcomes) :
    v = (if onStart then v.2 else readsValue || negated, v.2) := by
  obtain ⟨early, late⟩ := v
  cases onStart <;> cases readsValue <;> cases negated <;> cases early <;> cases late <;>
    simp [Shape.outcomes] at hv ⊢

theorem exists_verdicts (shape : Shape) :
    ∀ v ∈ shape.outcomes, ∃ e : Expr, e.shape varA = shape ∧
      (evalExpr lib (some recursiveStore) earlyBinding e,
        evalExpr lib (some recursiveStore) lateBinding e) = v := by
  induction shape with
  | leaf onStart readsValue negated =>
      intro v hv
      refine ⟨.condition (tunedCondition onStart readsValue negated v.2),
        shape_tunedCondition _ _ _ _, ?_⟩
      rw [evalExpr, evalExpr, late_tunedCondition, early_tunedCondition]
      exact (exists_leaf_verdicts onStart readsValue negated hv).symm
  | and left right ihl ihr =>
      intro v hv
      obtain ⟨l, hl, r, hr, rfl⟩ := Finset.mem_image₂.mp hv
      obtain ⟨e, rfl, rfl⟩ := ihl l hl
      obtain ⟨e', rfl, rfl⟩ := ihr r hr
      exact ⟨.and e e', rfl, rfl⟩
  | or left right ihl ihr =>
      intro v hv
      obtain ⟨l, hl, r, hr, rfl⟩ := Finset.mem_image₂.mp hv
      obtain ⟨e, rfl, rfl⟩ := ihl l hl
      obtain ⟨e', rfl, rfl⟩ := ihr r hr
      exact ⟨.or e e', rfl, rfl⟩
  | not child ih =>
      intro v hv
      obtain ⟨c, hc, rfl⟩ := Finset.mem_image.mp hv
      obtain ⟨e, rfl, rfl⟩ := ih c hc
      exact ⟨.not e, rfl, rfl⟩
  | xor left right ihl ihr =>
      intro v hv
      obtain ⟨l, hl, r, hr, rfl⟩ := Finset.mem_image₂.mp hv
      obtain ⟨e, rfl, rfl⟩ := ihl l hl
      obtain ⟨e', rfl, rfl⟩ := ihr r hr
      exact ⟨.xor e e', rfl, rfl⟩

theorem steady_callsQuery (e : Expr) : (callsQuery e).Steady where
  first := by
    intro step hstep
    obtain rfl := List.mem_singleton.mp hstep
    exact ⟨varB_ne_varA, Option.some_ne_none _ |>.symm⟩
  more := by
    intro pat hpat
    cases hpat
  steady := trivial

theorem callsQuery_runs {e : Expr}
    (hearly : evalExpr lib (some recursiveStore) earlyBinding e = false)
    (hlate : evalExpr lib (some recursiveStore) lateBinding e = true) (maxRows : Nat) :
    (callsQuery e).execute lib recursiveStore none (some (bytesOf "p")) maxRows = [] ∧
      lateBinding ∈
        (callsQuery e).executeLate lib recursiveStore none (some (bytesOf "p")) maxRows := by
  have hstart : (callsQuery e).startBindings lib recursiveStore none (some (bytesOf "p")) maxRows =
      [earlyBinding] := rfl
  constructor
  · have hnone : [earlyBinding].filter ((callsQuery e).passes lib recursiveStore) = [] :=
      List.filter_eq_nil_iff.mpr fun b hb => by
        rw [List.mem_singleton.mp hb]
        exact ne_true_of_eq_false hearly
    unfold Query.execute
    rw [hstart, hnone]
    rfl
  · unfold Query.executeLate
    rw [hstart]
    have hexpand : (callsQuery e).expand lib recursiveStore none (some (bytesOf "p")) maxRows
        [earlyBinding] = [lateBinding] := rfl
    rw [hexpand]
    exact List.mem_filter.mpr ⟨List.mem_singleton_self _, hlate⟩

end Realise

/-- `b:Function`. -/
def calleeIsFunction : Expr :=
  .condition { var := varB, test := .hasLabel (bytesOf "Function"), negated := false }

end Cypher
end CodebaseMemory
