import CodebaseMemory.Cypher.Rounds
import Mathlib.Data.Finset.Card

/-!
# What a binding says about the patterns

A binding keeps one node to a name.  Expanding a pattern sets the name of every
target, over an older value if there is one, and goes on from a bound start
without testing it again.  So a binding shows a match of every pattern as long
as no later position sets the name of a variable, and the starts that are bound
already make no demands of their own.
-/

namespace CodebaseMemory
namespace Cypher

open Lib
open Sqlite (CStr bytesOf)

section Realised

variable (lib : Libc)
variable (s : Store)

/-- The binding has the node at this place of a pattern, and it meets the label
and the properties there. -/
def NodeAt (b : Binding) (pat : NodePattern) (n : Node) : Prop :=
  (∀ v, pat.var = some v → bindingGet b v = some n) ∧ matchesTarget lib s pat n = true

/-- A stored edge joins the nodes as the relationship says. -/
def Joined (rel : RelPattern) (n m : Node) : Prop :=
  ∃ inbound, ∃ e ∈ s.edges, follows rel n.id inbound e = true ∧
    s.findNodeById (farEnd inbound e) = some m

def RealisedSteps (b : Binding) : List (RelPattern × NodePattern) → Node → Prop
  | [], _ => True
  | (rel, target) :: steps, n =>
      ∃ m, NodeAt lib s b target m ∧ Joined s rel n m ∧ RealisedSteps b steps m

def Pattern.Realised (b : Binding) (pat : Pattern) : Prop :=
  ∃ n, NodeAt lib s b pat.start n ∧ RealisedSteps lib s b pat.steps n

/-- The binding shows a match of all patterns of the query. -/
def Query.Realised (q : Query) (b : Binding) : Prop :=
  q.first.Realised lib s b ∧ ∀ pat ∈ q.more, pat.1.Realised lib s b

end Realised

/-- A place where a node stands in a pattern: its variable, the name it is kept
under, and whether the expansion sets it there. -/
structure Position where
  var : Option CStr
  name : CStr
  sets : Bool

def stepPositions (steps : List (RelPattern × NodePattern)) : List Position :=
  steps.map fun step => { var := step.2.var, name := step.2.toVar, sets := true }

/-- The pattern goes on from a node that is bound already. -/
def Pattern.startsBound (bound : List CStr) (pat : Pattern) : Bool :=
  pat.nvar ∈ bound && !pat.steps.isEmpty

def Pattern.positions (bound : List CStr) (pat : Pattern) : List Position :=
  { var := pat.start.var, name := pat.nvar, sets := !pat.startsBound bound } ::
    stepPositions pat.steps

def morePositions : List (Pattern × Bool) → List CStr → List Position
  | [], _ => []
  | pat :: more, bound =>
      pat.1.positions bound ++
        morePositions more (bound ++ (pat.1.positions bound).map Position.name)

def Query.firstPositions (q : Query) : List Position :=
  { var := q.first.start.var, name := q.startVar, sets := true } :: stepPositions q.first.steps

def Query.positions (q : Query) : List Position :=
  q.firstPositions ++ morePositions q.more (q.firstPositions.map Position.name)

/-- The second position leaves the variable of the first alone. -/
def Position.Apart (x y : Position) : Prop :=
  y.sets = true → x.var ≠ some y.name

instance : DecidableRel Position.Apart := fun x y =>
  inferInstanceAs (Decidable (y.sets = true → x.var ≠ some y.name))

/-- The starts that are bound already have no label and no properties. -/
def BareStarts : List (Pattern × Bool) → List CStr → Prop
  | [], _ => True
  | pat :: more, bound =>
      (pat.1.startsBound bound = true → pat.1.start.label = none ∧ pat.1.start.props = []) ∧
        BareStarts more (bound ++ (pat.1.positions bound).map Position.name)

/-- A query of mandatory patterns with relationships of one hop. -/
structure Query.Plain (q : Query) : Prop where
  firstMandatory : q.firstOptional = false
  mandatory : ∀ pat ∈ q.more, pat.2 = false
  firstFixed : ∀ step ∈ q.first.steps, step.1.isVariableLength = false
  fixed : ∀ pat ∈ q.more, ∀ step ∈ pat.1.steps, step.1.isVariableLength = false

/-- No variable is set again, a start that is bound already makes no demands, and
a binding has room for all names. -/
structure Query.SetOnce (q : Query) : Prop where
  apart : q.positions.Pairwise Position.Apart
  bare : BareStarts q.more (q.firstPositions.map Position.name)
  room : (q.positions.map Position.name).toFinset.card ≤ cypMaxVars

structure Named (bound : List CStr) (b : Binding) : Prop where
  nodup : b.names.Nodup
  mem_iff : ∀ v, v ∈ b.names ↔ v ∈ bound

section Names

variable {bound : List CStr}
variable {b : Binding}

theorem Named.length_eq (hb : Named bound b) : b.names.length = bound.toFinset.card := by
  rw [← List.toFinset_card_of_nodup hb.nodup]
  congr 1
  ext v
  rw [List.mem_toFinset, List.mem_toFinset, hb.mem_iff]

theorem Named.hasSlot (hb : Named bound b) {v : CStr}
    (hroom : (bound ++ [v]).toFinset.card ≤ cypMaxVars) : HasSlot cypMaxVars b.vars v := by
  by_cases hv : v ∈ b.names
  · exact Or.inl (isSome_slot.mpr hv)
  · right
    have hnew : (bound ++ [v]).toFinset = insert v bound.toFinset := by
      ext w
      simp
    have hmiss : v ∉ bound.toFinset := by
      rw [List.mem_toFinset, ← hb.mem_iff]
      exact hv
    have hlen := hb.length_eq
    rw [Binding.names, List.length_map] at hlen
    rw [hnew, Finset.card_insert_of_notMem hmiss, ← hlen] at hroom
    omega

theorem Named.set (hb : Named bound b) {v : CStr} (n : Node)
    (hroom : (bound ++ [v]).toFinset.card ≤ cypMaxVars) :
    Named (bound ++ [v]) (bindingSet b v n) := by
  have hslot := hb.hasSlot hroom
  have hnames := names_bindingSet b v n
  unfold addName at hnames
  by_cases hv : v ∈ b.names
  · rw [if_pos hv] at hnames
    refine ⟨hnames ▸ hb.nodup, fun w => ?_⟩
    rw [hnames, hb.mem_iff, List.mem_append, List.mem_singleton, iff_self_or]
    rintro rfl
    exact (hb.mem_iff w).mp hv
  · have hlt : b.names.length < cypMaxVars := by
      rcases hslot with hbound | hlt
      · exact absurd (isSome_slot.mp hbound) hv
      · rwa [Binding.names, List.length_map]
    rw [if_neg hv, if_pos hlt] at hnames
    refine ⟨?_, fun w => ?_⟩
    · rw [hnames]
      refine List.nodup_append.mpr ⟨hb.nodup, List.nodup_singleton v, ?_⟩
      rintro x hx y hy rfl
      exact hv (List.mem_singleton.mp hy ▸ hx)
    · rw [hnames, List.mem_append, List.mem_append, hb.mem_iff]

theorem Named.setEdge (hb : Named bound b) (v : Option CStr) (e : Edge) :
    Named bound (bindingSetEdge b v e) :=
  ⟨(names_bindingSetEdge b v e).symm ▸ hb.nodup, fun w => by
    rw [names_bindingSetEdge, hb.mem_iff]⟩

theorem card_le_of_prefix {bound rest : List CStr} {v : CStr}
    (hroom : (bound ++ v :: rest).toFinset.card ≤ cypMaxVars) :
    (bound ++ [v]).toFinset.card ≤ cypMaxVars := by
  refine le_trans (Finset.card_le_card ?_) hroom
  intro w
  simp only [List.mem_toFinset, List.mem_append, List.mem_cons, List.not_mem_nil, or_false]
  tauto

end Names

section Frames

variable {lib : Libc}
variable {s : Store}

theorem NodeAt.congr {b c : Binding} {pat : NodePattern} {n : Node} (h : NodeAt lib s b pat n)
    (hsame : ∀ v, pat.var = some v → bindingGet c v = bindingGet b v) : NodeAt lib s c pat n :=
  ⟨fun v hv => (hsame v hv).trans (h.1 v hv), h.2⟩

theorem RealisedSteps.congr {b c : Binding} (steps : List (RelPattern × NodePattern)) :
    ∀ {n : Node}, RealisedSteps lib s b steps n →
      (∀ step ∈ steps, ∀ v, step.2.var = some v → bindingGet c v = bindingGet b v) →
      RealisedSteps lib s c steps n := by
  induction steps with
  | nil => exact fun _ _ => trivial
  | cons step steps ih =>
      rintro n ⟨m, hm, hjoin, hrest⟩ hsame
      exact ⟨m, hm.congr (hsame step List.mem_cons_self), hjoin,
        ih hrest fun st hst => hsame st (List.mem_cons_of_mem _ hst)⟩

theorem Pattern.Realised.congr {b c : Binding} {pat : Pattern} (h : pat.Realised lib s b)
    (hsame : ∀ x ∈ pat.positions [], ∀ v, x.var = some v → bindingGet c v = bindingGet b v) :
    pat.Realised lib s c := by
  obtain ⟨n, hn, hsteps⟩ := h
  refine ⟨n, hn.congr (hsame _ List.mem_cons_self), hsteps.congr _ ?_⟩
  intro step hstep
  exact hsame _ (List.mem_cons_of_mem _ (List.mem_map_of_mem hstep))

theorem bindingGet_of_mem_expandSteps {optional : Bool}
    (steps : List (RelPattern × NodePattern)) :
    ∀ {varName v : CStr} {b c : Binding}, c ∈ expandSteps lib s optional steps varName b →
      v ∉ (stepPositions steps).map Position.name → bindingGet c v = bindingGet b v := by
  induction steps with
  | nil =>
      intro varName v b c hc _
      rw [List.mem_singleton.mp hc]
  | cons step steps ih =>
      intro varName v b c hc hv
      obtain ⟨d, hd, hcd⟩ := List.mem_flatMap.mp hc
      simp only [stepPositions, List.map_cons, List.mem_cons, not_or] at hv
      rw [ih hcd hv.2]
      rcases mem_stepBindings hd with rfl | hmatch
      · rfl
      · exact bindingGet_of_mem_stepMatches hmatch hv.1

end Frames

section Pattern

variable {lib : Libc}
variable {s : Store}

theorem realised_expandSteps (steps : List (RelPattern × NodePattern)) :
    ∀ {varName : CStr} {src : Node} {bound : List CStr} {b c : Binding}, Named bound b →
      bindingGet b varName = some src →
      (bound ++ (stepPositions steps).map Position.name).toFinset.card ≤ cypMaxVars →
      (stepPositions steps).Pairwise Position.Apart →
      (∀ step ∈ steps, step.1.isVariableLength = false) →
      c ∈ expandSteps lib s false steps varName b →
      RealisedSteps lib s c steps src ∧
        Named (bound ++ (stepPositions steps).map Position.name) c := by
  induction steps with
  | nil =>
      intro varName src bound b c hb _ _ _ _ hc
      rw [List.mem_singleton.mp hc]
      exact ⟨trivial, by simpa [stepPositions] using hb⟩
  | cons step steps ih =>
      intro varName src bound b c hb hsrc hroom hapart hfixed hc
      obtain ⟨rel, target⟩ := step
      obtain ⟨d, hd, hcd⟩ := List.mem_flatMap.mp hc
      rw [stepBindings_mandatory] at hd
      obtain ⟨src', inbound, e, m, hsrc', he, hfollows, hm, hmatch, rfl⟩ :=
        (mem_stepMatches (hfixed _ List.mem_cons_self)).mp hd
      obtain rfl := Option.some.inj (hsrc'.symm.trans hsrc)
      obtain ⟨hfirst, hrest⟩ := List.pairwise_cons.mp hapart
      have hone := card_le_of_prefix hroom
      have hnamed : Named (bound ++ [target.toVar])
          (bindingSetEdge (bindingSet b target.toVar m) rel.var e) :=
        (hb.set m hone).setEdge rel.var e
      have htarget : bindingGet (bindingSetEdge (bindingSet b target.toVar m) rel.var e)
          target.toVar = some m := by
        rw [bindingGet_bindingSetEdge]
        exact slot_setSlot_self m (hb.hasSlot hone)
      have happend : bound ++ (stepPositions ((rel, target) :: steps)).map Position.name =
          (bound ++ [target.toVar]) ++ (stepPositions steps).map Position.name := by
        simp [stepPositions]
      obtain ⟨hsteps, hnames⟩ := ih hnamed htarget (happend ▸ hroom) hrest
        (fun st hst => hfixed st (List.mem_cons_of_mem _ hst)) hcd
      refine ⟨⟨m, ⟨?_, hmatch⟩, ⟨inbound, e, he, hfollows, hm⟩, hsteps⟩, happend ▸ hnames⟩
      -- the name of the target is not set again
      intro v hv
      have hname : target.toVar = v := by
        rw [NodePattern.toVar, hv]
        rfl
      rw [← hname, bindingGet_of_mem_expandSteps steps hcd, htarget]
      intro hmem
      obtain ⟨y, hy, hyname⟩ := List.mem_map.mp hmem
      obtain ⟨st, -, rfl⟩ := List.mem_map.mp hy
      exact hfirst _ hy rfl (hv.trans (congrArg some (hname.symm.trans hyname.symm)))

theorem realised_pattern {pat : Pattern} {start : CStr} {n : Node} {bound : List CStr}
    {b c : Binding} (hb : Named bound b) (hstart : bindingGet b start = some n)
    (hmatch : matchesTarget lib s pat.start n = true)
    (hvar : ∀ v, pat.start.var = some v →
      v = start ∧ v ∉ (stepPositions pat.steps).map Position.name)
    (hroom : (bound ++ (stepPositions pat.steps).map Position.name).toFinset.card ≤ cypMaxVars)
    (hapart : (stepPositions pat.steps).Pairwise Position.Apart)
    (hfixed : ∀ step ∈ pat.steps, step.1.isVariableLength = false)
    (hc : c ∈ expandSteps lib s false pat.steps start b) :
    pat.Realised lib s c ∧
      Named (bound ++ (stepPositions pat.steps).map Position.name) c := by
  obtain ⟨hsteps, hnames⟩ := realised_expandSteps pat.steps hb hstart hroom hapart hfixed hc
  refine ⟨⟨n, ⟨?_, hmatch⟩, hsteps⟩, hnames⟩
  intro v hv
  obtain ⟨rfl, hkept⟩ := hvar v hv
  rw [bindingGet_of_mem_expandSteps pat.steps hc hkept, hstart]

end Pattern

section Round

variable {lib : Libc}
variable {s : Store}
variable {growth : Option Nat}
variable {project : Option CStr}
variable {maxRows bindCap : Nat}

theorem mem_expandAdditionalPattern {bound : List CStr} {bindings : List Binding} {pat : Pattern}
    {c : Binding} (hnamed : ∀ b ∈ bindings, Named bound b)
    (hc : c ∈ expandAdditionalPattern lib s growth project maxRows bindCap bindings
      (pat, false)) :
    ∃ b ∈ bindings,
      if pat.startsBound bound then c ∈ expandSteps lib s false pat.steps pat.nvar b
      else ∃ n, matchesTarget lib s pat.start n = true ∧
        c ∈ expandSteps lib s false pat.steps pat.nvar (bindingSet b pat.nvar n) := by
  cases bindings with
  | nil => simp [expandAdditionalPattern, crossJoinNodes, crossJoinWithRels] at hc
  | cons b0 rest =>
      have hstart : (bindingGet b0 pat.nvar).isSome = decide (pat.nvar ∈ bound) := by
        rw [Bool.eq_iff_iff, isSome_bindingGet, decide_eq_true_eq]
        exact (hnamed b0 List.mem_cons_self).mem_iff pat.nvar
      unfold expandAdditionalPattern at hc
      dsimp only at hc
      rw [hstart] at hc
      change c ∈ (if pat.startsBound bound then _ else _) at hc
      cases hstarts : pat.startsBound bound with
      | true =>
          rw [hstarts, if_pos rfl] at hc
          exact mem_expandPatternRels pat.steps hc
      | false =>
          rw [hstarts] at hc
          simp only [Bool.false_eq_true, if_false, crossJoinNodes, crossJoinWithRels,
            Bool.false_and, List.append_nil] at hc ⊢
          split at hc
          · rename_i hnodes
            obtain ⟨b, hb, hcb⟩ := List.mem_flatMap.mp hc
            obtain ⟨n, hn, rfl⟩ := List.mem_map.mp hcb
            rw [List.isEmpty_iff.mp hnodes]
            exact ⟨b, hb, n, matchesTarget_of_mem_scan hn, List.mem_singleton_self _⟩
          · obtain ⟨b, hb, hcb⟩ := List.mem_flatMap.mp hc
            obtain ⟨n, hn, hexpand⟩ := List.mem_flatMap.mp hcb
            obtain ⟨b', hb', hcb'⟩ := mem_expandPatternRels pat.steps hexpand
            rw [List.mem_singleton.mp hb'] at hcb'
            exact ⟨b, hb, n, matchesTarget_of_mem_scan hn, hcb'⟩

theorem realised_round {bound : List CStr} {bindings : List Binding} {pat : Pattern} {c : Binding}
    (hnamed : ∀ b ∈ bindings, Named bound b)
    (hroom : (bound ++ (pat.positions bound).map Position.name).toFinset.card ≤ cypMaxVars)
    (hapart : (pat.positions bound).Pairwise Position.Apart)
    (hbare : pat.startsBound bound = true → pat.start.label = none ∧ pat.start.props = [])
    (hfixed : ∀ step ∈ pat.steps, step.1.isVariableLength = false)
    (hc : c ∈ expandAdditionalPattern lib s growth project maxRows bindCap bindings
      (pat, false)) :
    pat.Realised lib s c ∧ Named (bound ++ (pat.positions bound).map Position.name) c ∧
      ∃ b ∈ bindings, ∀ v, (∀ x ∈ pat.positions bound, x.sets = true → x.name ≠ v) →
        bindingGet c v = bindingGet b v := by
  obtain ⟨b, hb, hcb⟩ := mem_expandAdditionalPattern hnamed hc
  obtain ⟨hfirst, hrest⟩ := List.pairwise_cons.mp hapart
  have hnames : (pat.positions bound).map Position.name =
      pat.nvar :: (stepPositions pat.steps).map Position.name := rfl
  have hvar : ∀ v, pat.start.var = some v →
      v = pat.nvar ∧ v ∉ (stepPositions pat.steps).map Position.name := by
    intro v hv
    refine ⟨by rw [Pattern.nvar, hv]; rfl, ?_⟩
    intro hmem
    obtain ⟨y, hy, rfl⟩ := List.mem_map.mp hmem
    obtain ⟨st, -, rfl⟩ := List.mem_map.mp hy
    exact hfirst _ hy rfl hv
  have hsteps : ∀ v, (∀ x ∈ pat.positions bound, x.sets = true → x.name ≠ v) →
      v ∉ (stepPositions pat.steps).map Position.name := by
    intro v hkept hmem
    obtain ⟨y, hy, rfl⟩ := List.mem_map.mp hmem
    obtain ⟨st, -, rfl⟩ := List.mem_map.mp hy
    exact hkept _ (List.mem_cons_of_mem _ hy) rfl rfl
  have happend : (bound ++ [pat.nvar]) ++ (stepPositions pat.steps).map Position.name =
      bound ++ (pat.positions bound).map Position.name := by
    rw [hnames, List.append_assoc]
    rfl
  cases hstarts : pat.startsBound bound with
  | true =>
      rw [hstarts, if_pos rfl] at hcb
      have hmem : pat.nvar ∈ bound :=
        of_decide_eq_true ((Bool.and_eq_true _ _).mp hstarts).1
      obtain ⟨n, hn⟩ := Option.isSome_iff_exists.mp
        (isSome_bindingGet.mpr (((hnamed b hb).mem_iff _).mpr hmem))
      obtain ⟨hlabel, hprops⟩ := hbare hstarts
      have hmatch : matchesTarget lib s pat.start n = true := by
        rw [matchesTarget, hlabel, hprops]
        rfl
      -- the start is among the bound names already
      have hsame : (bound ++ (pat.positions bound).map Position.name).toFinset =
          (bound ++ (stepPositions pat.steps).map Position.name).toFinset := by
        rw [hnames]
        ext v
        simp only [List.mem_toFinset, List.mem_append, List.mem_cons]
        constructor
        · rintro (hv | rfl | hv)
          · exact Or.inl hv
          · exact Or.inl hmem
          · exact Or.inr hv
        · tauto
      obtain ⟨hrealised, hafter⟩ := realised_pattern (hnamed b hb) hn hmatch hvar
        (hsame ▸ hroom) hrest hfixed hcb
      refine ⟨hrealised, ⟨hafter.nodup, fun v => ?_⟩, b, hb, fun v hkept => ?_⟩
      · rw [hafter.mem_iff, ← List.mem_toFinset, ← hsame, List.mem_toFinset]
      · exact bindingGet_of_mem_expandSteps pat.steps hcb (hsteps v hkept)
  | false =>
      rw [hstarts] at hcb
      obtain ⟨n, hmatch, hcn⟩ := hcb
      have hone := card_le_of_prefix (hnames ▸ hroom)
      obtain ⟨hrealised, hafter⟩ := realised_pattern ((hnamed b hb).set n hone)
        (slot_setSlot_self n ((hnamed b hb).hasSlot hone)) hmatch hvar (happend ▸ hroom) hrest
        hfixed hcn
      refine ⟨hrealised, happend ▸ hafter, b, hb, fun v hkept => ?_⟩
      rw [bindingGet_of_mem_expandSteps pat.steps hcn (hsteps v hkept)]
      refine bindingGet_bindingSet_of_ne (Ne.symm ?_)
      exact hkept _ List.mem_cons_self (by rw [hstarts]; rfl)

def Pattern.Done (done : List Position) (pat : Pattern) : Prop :=
  ∀ x ∈ pat.positions [], ∀ v, x.var = some v → ∃ y ∈ done, y.var = some v

theorem Pattern.Done.append {done : List Position} {pat : Pattern} (h : pat.Done done)
    (rest : List Position) : pat.Done (done ++ rest) := by
  intro x hx v hv
  obtain ⟨y, hy, hyv⟩ := h x hx v hv
  exact ⟨y, List.mem_append_left _ hy, hyv⟩

theorem Pattern.done_positions (done : List Position) (bound : List CStr) (pat : Pattern) :
    pat.Done (done ++ pat.positions bound) := by
  intro x hx v hv
  rcases List.mem_cons.mp hx with rfl | hstep
  · exact ⟨_, List.mem_append_right _ List.mem_cons_self, hv⟩
  · exact ⟨x, List.mem_append_right _ (List.mem_cons_of_mem _ hstep), hv⟩

theorem realised_rounds (more : List (Pattern × Bool)) :
    ∀ {done : List Position} {pats : List Pattern} {bindings : List Binding} {c : Binding},
      (∀ b ∈ bindings, Named (done.map Position.name) b ∧ ∀ pat ∈ pats, pat.Realised lib s b) →
      (∀ pat ∈ pats, pat.Done done) →
      (done ++ morePositions more (done.map Position.name)).Pairwise Position.Apart →
      BareStarts more (done.map Position.name) →
      ((done ++ morePositions more (done.map Position.name)).map Position.name).toFinset.card ≤
        cypMaxVars →
      (∀ pat ∈ more, pat.2 = false ∧ ∀ step ∈ pat.1.steps, step.1.isVariableLength = false) →
      c ∈ expandAdditionalPatterns lib s growth project maxRows bindCap more bindings →
      (∀ pat ∈ pats, pat.Realised lib s c) ∧ ∀ pat ∈ more, pat.1.Realised lib s c := by
  induction more with
  | nil =>
      intro done pats bindings c hbindings _ _ _ _ _ hc
      exact ⟨(hbindings c hc).2, fun pat hpat => by cases hpat⟩
  | cons pat more ih =>
      intro done pats bindings c hbindings hpats hapart hbare hroom hplain hc
      obtain ⟨pat, optional⟩ := pat
      obtain ⟨hmand, hfixed⟩ := hplain _ List.mem_cons_self
      obtain rfl : optional = false := hmand
      have hsplit : done ++ morePositions ((pat, false) :: more) (done.map Position.name) =
          (done ++ pat.positions (done.map Position.name)) ++ morePositions more
            ((done ++ pat.positions (done.map Position.name)).map Position.name) := by
        rw [List.map_append, List.append_assoc]
        rfl
      rw [hsplit] at hapart hroom
      obtain ⟨hnow, -, -⟩ := List.pairwise_append.mp hapart
      obtain ⟨-, hpositions, hbetween⟩ := List.pairwise_append.mp hnow
      have hroomNow : ((done.map Position.name) ++
          (pat.positions (done.map Position.name)).map Position.name).toFinset.card ≤
            cypMaxVars := by
        refine le_trans (Finset.card_le_card ?_) hroom
        intro v hv
        rw [← List.map_append, List.mem_toFinset] at hv
        rw [List.map_append, List.mem_toFinset]
        exact List.mem_append_left _ hv
      have hnext : ∀ d ∈ expandAdditionalPattern lib s growth project maxRows bindCap bindings
          (pat, false), Named ((done ++ pat.positions (done.map Position.name)).map Position.name) d ∧
            ∀ p ∈ pats ++ [pat], p.Realised lib s d := by
        intro d hd
        obtain ⟨hrealised, hnamed, b, hb, hsame⟩ := realised_round
          (fun b hb => (hbindings b hb).1) hroomNow hpositions hbare.1 hfixed hd
        refine ⟨by rwa [List.map_append], fun p hp => ?_⟩
        rcases List.mem_append.mp hp with hold | hnew
        · -- the round sets no variable of an earlier pattern
          refine ((hbindings b hb).2 p hold).congr fun x hx v hv => hsame v ?_
          obtain ⟨y, hy, hyv⟩ := hpats p hold x hx v hv
          intro z hz hsets hname
          exact hbetween y hy z hz hsets (hyv.trans (congrArg some hname.symm))
        · rw [List.mem_singleton.mp hnew]
          exact hrealised
      have hdone : ∀ p ∈ pats ++ [pat], p.Done (done ++ pat.positions (done.map Position.name)) := by
        intro p hp
        rcases List.mem_append.mp hp with hold | hnew
        · exact (hpats p hold).append _
        · rw [List.mem_singleton.mp hnew]
          exact pat.done_positions done _
      have hbareNext : BareStarts more
          ((done ++ pat.positions (done.map Position.name)).map Position.name) := by
        rw [List.map_append]
        exact hbare.2
      obtain ⟨hpast, hmore⟩ := ih hnext hdone hapart hbareNext hroom
        (fun p hp => hplain p (List.mem_cons_of_mem _ hp)) hc
      refine ⟨fun p hp => hpast p (List.mem_append_left _ hp), fun p hp => ?_⟩
      rcases List.mem_cons.mp hp with rfl | htail
      · exact hpast pat (List.mem_append_right _ (List.mem_singleton_self pat))
      · exact hmore p htail

end Round

section Query

variable {lib : Libc}
variable {s : Store}

theorem realised_first {q : Query} (hplain : q.Plain) (hq : q.SetOnce) {cap : Option Nat}
    {nodes : List Node} {c : Binding}
    (hnodes : ∀ n ∈ nodes, matchesTarget lib s q.first.start n = true)
    (hc : c ∈ expandPatternRels lib s cap false q.first.steps q.startVar
      (nodes.map (bindingSet Binding.empty q.startVar))) :
    Named (q.firstPositions.map Position.name) c ∧ q.first.Realised lib s c := by
  obtain ⟨b, hb, hcb⟩ := mem_expandPatternRels q.first.steps hc
  obtain ⟨n, hn, rfl⟩ := List.mem_map.mp hb
  obtain ⟨hfirst, -, -⟩ := List.pairwise_append.mp hq.apart
  obtain ⟨hstart, hsteps⟩ := List.pairwise_cons.mp hfirst
  have hnamed : Named [q.startVar] (bindingSet Binding.empty q.startVar n) :=
    ⟨List.nodup_singleton _, fun v => Iff.rfl⟩
  have hbound : bindingGet (bindingSet Binding.empty q.startVar n) q.startVar = some n := by
    rw [bindingGet_startBinding, if_pos rfl]
  have hvar : ∀ v, q.first.start.var = some v →
      v = q.startVar ∧ v ∉ (stepPositions q.first.steps).map Position.name := by
    intro v hv
    refine ⟨by rw [Query.startVar, hv]; rfl, ?_⟩
    intro hmem
    obtain ⟨y, hy, rfl⟩ := List.mem_map.mp hmem
    obtain ⟨st, -, rfl⟩ := List.mem_map.mp hy
    exact hstart _ hy rfl hv
  have hroom : ([q.startVar] ++ (stepPositions q.first.steps).map Position.name).toFinset.card ≤
      cypMaxVars := by
    refine le_trans (Finset.card_le_card ?_) hq.room
    intro v hv
    rw [Query.positions, List.map_append, List.mem_toFinset]
    exact List.mem_append_left _ (List.mem_toFinset.mp hv)
  obtain ⟨hrealised, hafter⟩ := realised_pattern hnamed hbound (hnodes n hn) hvar hroom hsteps
    hplain.firstFixed hcb
  exact ⟨hafter, hrealised⟩

end Query

def chainNode (k : Nat) : Node where
  id := k
  project := some (bytesOf "p")
  label := some (bytesOf "Function")
  name := some (decimal k)
  qualifiedName := some (decimal k)
  filePath := some (bytesOf "f.py")
  startLine := 1
  endLine := 2
  propertiesJson := some []

/-- The call of the next function. -/
def chainCall (k : Nat) : Edge where
  id := k
  sourceId := k
  targetId := k + 1
  type := bytesOf "CALLS"
  propertiesJson := some []

/-- Function 1 calls 2, and 2 calls 3. -/
def chainStore : Store where
  nodes := [chainNode 1, chainNode 2, chainNode 3]
  edges := [chainCall 1, chainCall 2]
  nodeIds := by decide
  edgeKeys := by decide +kernel

/-- `(v:label)`. -/
def nodeOf (v : String) (label : Option String) : NodePattern where
  var := some (bytesOf v)
  label := label.map bytesOf
  props := []

/-- `-[:CALLS]->(v)`. -/
def callOf (v : String) : RelPattern × NodePattern :=
  ({ var := none, types := [bytesOf "CALLS"], direction := .outbound, minHops := 1, maxHops := 1 },
    nodeOf v none)

/-- `MATCH (a:Function)-[:CALLS]->(b) MATCH (b)-[:CALLS]->(c)`. -/
def chainQuery (label : Option String) : Query where
  first := { start := nodeOf "a" (some "Function"), steps := [callOf "b"] }
  firstOptional := false
  more := [({ start := nodeOf "b" label, steps := [callOf "c"] }, false)]
  whereClause := none

/-- `MATCH (a:Function)-[:CALLS]->(b)-[:CALLS]->(a)`. -/
def cycleQuery : Query where
  first := { start := nodeOf "a" (some "Function"), steps := [callOf "b", callOf "a"] }
  firstOptional := false
  more := []
  whereClause := none

theorem plain_chainQuery (label : Option String) : (chainQuery label).Plain where
  firstMandatory := rfl
  mandatory := by simp [chainQuery]
  firstFixed := by simp [chainQuery, callOf, RelPattern.isVariableLength]
  fixed := by simp [chainQuery, callOf, RelPattern.isVariableLength]

theorem plain_cycleQuery : cycleQuery.Plain where
  firstMandatory := rfl
  mandatory := by simp [cycleQuery]
  firstFixed := by simp [cycleQuery, callOf, RelPattern.isVariableLength]
  fixed := by simp [cycleQuery]

/-- The bindings of the two queries below. -/
def chainBinding (vars : List (String × Nat)) : Binding where
  vars := vars.map fun v => (bytesOf v.1, chainNode v.2)
  edgeVars := []

end Cypher
end CodebaseMemory
