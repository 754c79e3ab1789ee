import CodebaseMemory.Cypher.Expand

/-!
# Further patterns, one binding at a time

`expand_additional_patterns` looks at the first binding to see whether the start
of a pattern is bound, and treats all bindings alike.  Where all bindings agree
on that, they are again expanded one by one.  Which variables a binding can have
when a pattern is reached is read off the query.
-/

namespace CodebaseMemory
namespace Cypher

open Lib
open Sqlite (CStr bytesOf)

def Binding.names (b : Binding) : List CStr :=
  b.vars.map Prod.fst

/-- The names after a relationship: with its target, or, where there is no match
for an OPTIONAL one, as before. -/
def stepNames (optional : Bool) (target : NodePattern) (varName : CStr) (names : List CStr) :
    List (List CStr) :=
  if varName ∈ names then
    addName cypMaxVars names target.toVar :: (if optional then [names] else [])
  else []

def stepsNames (optional : Bool) :
    List (RelPattern × NodePattern) → CStr → List CStr → List (List CStr)
  | [], _, names => [names]
  | (_, target) :: steps, varName, names =>
      (stepNames optional target varName names).flatMap (stepsNames optional steps target.toVar)

def patternNames (pat : Pattern × Bool) (names : List CStr) : List (List CStr) :=
  if pat.1.nvar ∈ names ∧ pat.1.steps ≠ [] then
    stepsNames pat.2 pat.1.steps pat.1.nvar names
  else
    stepsNames pat.2 pat.1.steps pat.1.nvar (addName cypMaxVars names pat.1.nvar) ++
      if pat.2 then [names] else []

/-- No pattern with relationships starts at a variable that some of the bindings
have and others have not. -/
def Steady : List (Pattern × Bool) → List (List CStr) → Prop
  | [], _ => True
  | pat :: more, possible =>
      (pat.1.steps = [] ∨ (∀ names ∈ possible, pat.1.nvar ∈ names) ∨
        ∀ names ∈ possible, pat.1.nvar ∉ names) ∧
      Steady more (possible.flatMap (patternNames pat))

section Names

variable {lib : Libc}
variable {s : Store}
variable {target : NodePattern}
variable {b c : Binding}
variable {varName : CStr}
variable {rel : RelPattern}

theorem isSome_bindingGet {v : CStr} : (bindingGet b v).isSome = true ↔ v ∈ b.names :=
  isSome_slot

@[simp] theorem names_bindingSet (b : Binding) (v : CStr) (n : Node) :
    (bindingSet b v n).names = addName cypMaxVars b.names v :=
  map_fst_setSlot cypMaxVars b.vars v n

@[simp] theorem names_bindingSetEdge (b : Binding) (v : Option CStr) (e : Edge) :
    (bindingSetEdge b v e).names = b.names := by
  cases v <;> rfl

theorem mem_names_of_mem_stepMatches (hc : c ∈ stepMatches lib s rel target varName b) :
    varName ∈ b.names := by
  cases hb : bindingGet b varName with
  | none =>
      rw [stepMatches_unbound hb] at hc
      cases hc
  | some src => exact isSome_bindingGet.mp (by rw [hb]; rfl)

theorem names_of_mem_stepMatches (hc : c ∈ stepMatches lib s rel target varName b) :
    c.names = addName cypMaxVars b.names target.toVar := by
  obtain ⟨n, -, rfl | ⟨e, rfl⟩⟩ := eq_of_mem_stepMatches hc
  · exact names_bindingSet b target.toVar n
  · rw [names_bindingSetEdge, names_bindingSet]

theorem names_of_mem_stepBindings {optional : Bool}
    (hc : c ∈ stepBindings lib s optional rel target varName b) :
    c.names ∈ stepNames optional target varName b.names := by
  unfold stepBindings at hc
  unfold stepNames
  split at hc
  · rename_i hkept
    simp only [Bool.and_eq_true] at hkept
    obtain rfl := List.mem_singleton.mp hc
    rw [if_pos (isSome_bindingGet.mp hkept.1.2), if_pos hkept.1.1]
    exact List.mem_cons_of_mem _ (List.mem_singleton_self _)
  · rw [if_pos (mem_names_of_mem_stepMatches hc), names_of_mem_stepMatches hc]
    exact List.mem_cons_self

theorem names_of_mem_expandSteps {optional : Bool} (steps : List (RelPattern × NodePattern)) :
    ∀ {varName : CStr} {b c : Binding}, c ∈ expandSteps lib s optional steps varName b →
      c.names ∈ stepsNames optional steps varName b.names := by
  induction steps with
  | nil =>
      intro varName b c hc
      obtain rfl := List.mem_singleton.mp hc
      exact List.mem_singleton_self _
  | cons step steps ih =>
      intro varName b c hc
      obtain ⟨d, hd, hcd⟩ := List.mem_flatMap.mp hc
      exact List.mem_flatMap.mpr ⟨d.names, names_of_mem_stepBindings hd, ih hcd⟩

end Names

section Rounds

variable (lib : Libc)
variable (s : Store)
variable (project : Option CStr)

def extraNodes (pat : Pattern) : List Node :=
  scanPatternNodes lib s project none pat.start

/-- What a further pattern that is not started from a bound node makes of a
binding. -/
def joinBinding (pat : Pattern × Bool) (b : Binding) : List Binding :=
  ((extraNodes lib s project pat.1).flatMap fun n =>
      expandSteps lib s pat.2 pat.1.steps pat.1.nvar (bindingSet b pat.1.nvar n)) ++
    if pat.2 && (extraNodes lib s project pat.1).isEmpty then [b] else []

def expandRound (pat : Pattern × Bool) (b : Binding) : List Binding :=
  if (bindingGet b pat.1.nvar).isSome && !pat.1.steps.isEmpty then
    expandSteps lib s pat.2 pat.1.steps pat.1.nvar b
  else joinBinding lib s project pat b

def expandRounds : List (Pattern × Bool) → Binding → List Binding
  | [], b => [b]
  | pat :: more, b => (expandRound lib s project pat b).flatMap (expandRounds more)

variable {lib}
variable {s}
variable {project}

theorem join_eq (lib : Libc) (s : Store) (project : Option CStr) (pat : Pattern × Bool)
    (bindings : List Binding) :
    (if pat.1.steps.isEmpty then
        crossJoinNodes bindings (extraNodes lib s project pat.1) pat.1.nvar pat.2
      else crossJoinWithRels lib s none pat.1.steps bindings (extraNodes lib s project pat.1)
        pat.1.nvar pat.2) = bindings.flatMap (joinBinding lib s project pat) := by
  obtain ⟨⟨start, steps⟩, opt⟩ := pat
  cases steps with
  | nil =>
      simp only [List.isEmpty_nil, if_true, crossJoinNodes]
      refine List.flatMap_congr fun b _ => ?_
      unfold joinBinding
      congr 1
      exact List.map_eq_flatMap
  | cons step steps =>
      simp only [List.isEmpty_cons, Bool.false_eq_true, if_false, crossJoinWithRels]
      refine List.flatMap_congr fun b _ => ?_
      unfold joinBinding
      congr 1
      refine List.flatMap_congr fun n _ => ?_
      exact (expandPatternRels_uncapped opt (step :: steps) _ _).trans (List.flatMap_singleton _ _)

theorem expandAdditionalPattern_of_agree {maxRows bindCap : Nat} {bindings : List Binding}
    {pat : Pattern × Bool}
    (hagree : pat.1.steps = [] ∨ (∀ b ∈ bindings, pat.1.nvar ∈ b.names) ∨
      ∀ b ∈ bindings, pat.1.nvar ∉ b.names) :
    expandAdditionalPattern lib s none project maxRows bindCap bindings pat =
      bindings.flatMap (expandRound lib s project pat) := by
  cases bindings with
  | nil =>
      unfold expandAdditionalPattern
      simp [crossJoinNodes, crossJoinWithRels]
  | cons b rest =>
      have hjoin := join_eq lib s project pat (b :: rest)
      by_cases hsteps : pat.1.steps = []
      · have hround : ∀ c, expandRound lib s project pat c = joinBinding lib s project pat c := by
          intro c
          simp [expandRound, hsteps]
        rw [List.flatMap_congr fun c _ => hround c, ← hjoin]
        simp [expandAdditionalPattern, hsteps, extraNodes]
      · have hne : pat.1.steps.isEmpty = false := by simpa using hsteps
        rcases hagree.resolve_left hsteps with hbound | hunbound
        · have hround : ∀ c ∈ b :: rest, expandRound lib s project pat c =
              expandSteps lib s pat.2 pat.1.steps pat.1.nvar c := by
            intro c hc
            rw [expandRound, isSome_bindingGet.mpr (hbound c hc), hne]
            rfl
          have hfirst := isSome_bindingGet.mpr (hbound b List.mem_cons_self)
          rw [List.flatMap_congr hround, ← expandPatternRels_uncapped]
          simp [expandAdditionalPattern, hfirst, hne]
        · have hnone : ∀ c ∈ b :: rest, (bindingGet c pat.1.nvar).isSome = false := by
            intro c hc
            exact Bool.eq_false_iff.mpr fun h => hunbound c hc (isSome_bindingGet.mp h)
          have hround : ∀ c ∈ b :: rest, expandRound lib s project pat c =
              joinBinding lib s project pat c := by
            intro c hc
            rw [expandRound, hnone c hc]
            rfl
          rw [List.flatMap_congr hround, ← hjoin]
          simp [expandAdditionalPattern, hnone b List.mem_cons_self, hne, extraNodes]

theorem names_mem_patternNames {pat : Pattern × Bool} {b c : Binding}
    (hc : c ∈ expandRound lib s project pat b) : c.names ∈ patternNames pat b.names := by
  unfold patternNames
  unfold expandRound at hc
  by_cases hstart : pat.1.nvar ∈ b.names ∧ pat.1.steps ≠ []
  · rw [if_pos (by simpa using ⟨isSome_bindingGet.mpr hstart.1, hstart.2⟩)] at hc
    rw [if_pos hstart]
    exact names_of_mem_expandSteps pat.1.steps hc
  · have hjoin : ((bindingGet b pat.1.nvar).isSome && !pat.1.steps.isEmpty) = false := by
      rw [Bool.eq_false_iff]
      intro h
      simp only [Bool.and_eq_true, isSome_bindingGet, Bool.not_eq_true', List.isEmpty_eq_false_iff]
        at h
      exact hstart h
    rw [hjoin] at hc
    rw [if_neg hstart]
    rcases List.mem_append.mp hc with hmatch | hkept
    · obtain ⟨n, -, hn⟩ := List.mem_flatMap.mp hmatch
      refine List.mem_append_left _ ?_
      rw [← names_bindingSet b pat.1.nvar n]
      exact names_of_mem_expandSteps pat.1.steps hn
    · refine List.mem_append_right _ ?_
      split at hkept
      · rename_i hopt
        simp only [Bool.and_eq_true] at hopt
        obtain rfl := List.mem_singleton.mp hkept
        rw [if_pos hopt.1]
        exact List.mem_singleton_self _
      · cases hkept

theorem expandAdditionalPatterns_steady {maxRows bindCap : Nat} (more : List (Pattern × Bool)) :
    ∀ {possible : List (List CStr)} {bindings : List Binding}, Steady more possible →
      (∀ b ∈ bindings, b.names ∈ possible) →
      expandAdditionalPatterns lib s none project maxRows bindCap more bindings =
        bindings.flatMap (expandRounds lib s project more) := by
  induction more with
  | nil =>
      intro possible bindings _ _
      exact (List.flatMap_singleton' bindings).symm
  | cons pat more ih =>
      intro possible bindings hsteady hnames
      obtain ⟨hstart, hmore⟩ := hsteady
      have hagree : pat.1.steps = [] ∨ (∀ b ∈ bindings, pat.1.nvar ∈ b.names) ∨
          ∀ b ∈ bindings, pat.1.nvar ∉ b.names := by
        rcases hstart with hsteps | hbound | hunbound
        · exact Or.inl hsteps
        · exact Or.inr (Or.inl fun b hb => hbound b.names (hnames b hb))
        · exact Or.inr (Or.inr fun b hb => hunbound b.names (hnames b hb))
      have hnext : ∀ c ∈ bindings.flatMap (expandRound lib s project pat),
          c.names ∈ possible.flatMap (patternNames pat) := by
        intro c hc
        obtain ⟨b, hb, hcb⟩ := List.mem_flatMap.mp hc
        exact List.mem_flatMap.mpr ⟨b.names, hnames b hb, names_mem_patternNames hcb⟩
      have hrest := ih hmore hnext
      rw [expandAdditionalPatterns, List.foldl_cons, expandAdditionalPattern_of_agree hagree]
      rw [expandAdditionalPatterns] at hrest
      rw [hrest, List.flatMap_assoc]
      rfl

end Rounds

end Cypher
end CodebaseMemory
