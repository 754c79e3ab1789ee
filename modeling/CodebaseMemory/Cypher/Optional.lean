import CodebaseMemory.Cypher.Sound

/-!
# OPTIONAL MATCH

Whether an OPTIONAL pattern has a match is decided for each relationship and
each scanned start node.  A binding that a relationship does not match is kept,
but the next relationship drops it, since its start is unbound; only what the
last relationship does not match stays, as a partial match.
-/

namespace CodebaseMemory
namespace Cypher

open Lib
open Sqlite (CStr bytesOf)

section Join

variable (lib : Libc)
variable (s : Store)
variable (project : Option CStr)

def fullMatches (pat : Pattern) (b : Binding) : List Binding :=
  match bindingGet b pat.nvar with
  | some src =>
      if matchesTarget lib s pat.start src then expandSteps lib s false pat.steps pat.nvar b else []
  | none =>
      (extraNodes lib s project pat).flatMap fun n =>
        expandSteps lib s false pat.steps pat.nvar (bindingSet b pat.nvar n)

def leftJoin (pat : Pattern) (b : Binding) : List Binding :=
  if fullMatches lib s project pat b = [] then [b] else fullMatches lib s project pat b

/-- The matches of all relationships but the last, which the last one does not
continue. -/
def deadEnds : List (RelPattern × NodePattern) → CStr → Binding → List Binding
  | [], _, _ => []
  | [(rel, target)], varName, b =>
      if stepMatches lib s rel target varName b = [] then [b] else []
  | (rel, target) :: step :: steps, varName, b =>
      (stepMatches lib s rel target varName b).flatMap (deadEnds (step :: steps) target.toVar)

/-- When the pattern is joined to the binding as it should be.
* A start that is bound: without relationships, the scan finds nothing but that
  node; with one, the start meets its own label and properties or there is no
  match; with more, there is a match and no dead end.
* A start that is not bound: there are no relationships, the scan finds nothing,
  or there is a match and no dead end. -/
def JoinsExactly (pat : Pattern) (b : Binding) : Prop :=
  match bindingGet b pat.nvar with
  | some src =>
      if pat.steps = [] then
        extraNodes lib s project pat = [] ∨ extraNodes lib s project pat = [src]
      else if pat.steps.length = 1 then
        matchesTarget lib s pat.start src = true ∨
          expandSteps lib s false pat.steps pat.nvar b = []
      else
        fullMatches lib s project pat b ≠ [] ∧ deadEnds lib s pat.steps pat.nvar b = []
  | none =>
      pat.steps = [] ∨ extraNodes lib s project pat = [] ∨
        (fullMatches lib s project pat b ≠ [] ∧
          ∀ n ∈ extraNodes lib s project pat,
            deadEnds lib s pat.steps pat.nvar (bindingSet b pat.nvar n) = [])

end Join

def targetNames (steps : List (RelPattern × NodePattern)) : List CStr :=
  steps.map fun step => step.2.toVar

structure NewNames (names : List CStr) (b : Binding) : Prop where
  nodup : (b.names ++ names).Nodup
  room : (b.names ++ names).length ≤ cypMaxVars

section NewNames

variable {lib : Libc}
variable {s : Store}
variable {b c : Binding}

theorem NewNames.addName_eq {v : CStr} {names : List CStr} (h : NewNames (v :: names) b) :
    addName cypMaxVars b.names v = b.names ++ [v] := by
  have hnew : v ∉ b.names := by
    intro hv
    exact (List.nodup_append.mp h.nodup).2.2 v hv v List.mem_cons_self rfl
  have hlt : b.names.length < cypMaxVars := by
    have hroom := h.room
    simp only [List.length_append, List.length_cons] at hroom
    omega
  rw [addName, if_neg hnew, if_pos hlt]

theorem NewNames.tail {v : CStr} {names : List CStr} (h : NewNames (v :: names) b)
    (hc : c.names = b.names ++ [v]) : NewNames names c := by
  have happend : c.names ++ names = b.names ++ v :: names := by
    rw [hc, List.append_assoc]
    rfl
  exact ⟨happend ▸ h.nodup, happend ▸ h.room⟩

theorem NewNames.names_of_mem {rel : RelPattern} {target : NodePattern} {varName : CStr}
    {names : List CStr} (h : NewNames (target.toVar :: names) b)
    (hc : c ∈ stepMatches lib s rel target varName b) : c.names = b.names ++ [target.toVar] := by
  rw [names_of_mem_stepMatches hc, h.addName_eq]

theorem names_of_full (steps : List (RelPattern × NodePattern)) :
    ∀ {varName : CStr} {b c : Binding}, NewNames (targetNames steps) b →
      c ∈ expandSteps lib s false steps varName b → c.names = b.names ++ targetNames steps := by
  induction steps with
  | nil =>
      intro varName b c _ hc
      rw [List.mem_singleton.mp hc, targetNames, List.map_nil, List.append_nil]
  | cons step steps ih =>
      intro varName b c hnew hc
      obtain ⟨d, hd, hcd⟩ := List.mem_flatMap.mp hc
      have hnames := hnew.names_of_mem hd
      rw [ih (hnew.tail hnames) hcd, hnames, List.append_assoc]
      rfl

theorem names_of_deadEnd (steps : List (RelPattern × NodePattern)) :
    ∀ {varName : CStr} {b d : Binding}, NewNames (targetNames steps) b →
      d ∈ deadEnds lib s steps varName b →
      d.names.length + 1 = b.names.length + steps.length := by
  induction steps with
  | nil =>
      intro varName b d _ hd
      cases hd
  | cons step steps ih =>
      intro varName b d hnew hd
      cases steps with
      | nil =>
          unfold deadEnds at hd
          split at hd
          · rw [List.mem_singleton.mp hd]
            rfl
          · cases hd
      | cons next steps =>
          obtain ⟨e, he, hde⟩ := List.mem_flatMap.mp hd
          have hnames := hnew.names_of_mem he
          have hlen := ih (hnew.tail hnames) hde
          rw [hnames, List.length_append, List.length_singleton] at hlen
          simp only [List.length_cons] at hlen ⊢
          omega

end NewNames

section Expansion

variable {lib : Libc}
variable {s : Store}
variable {varName : CStr}
variable {b : Binding}
variable {steps : List (RelPattern × NodePattern)}

theorem expandSteps_unbound {optional : Bool} {step : RelPattern × NodePattern}
    (hb : varName ∉ b.names) : expandSteps lib s optional (step :: steps) varName b = [] := by
  have hnone : bindingGet b varName = none := by
    rw [← Option.not_isSome_iff_eq_none, isSome_bindingGet]
    exact hb
  have hstep : stepBindings lib s optional step.1 step.2 varName b = [] := by
    rw [stepBindings, hnone, stepMatches_unbound hnone]
    simp
  change (stepBindings lib s optional step.1 step.2 varName b).flatMap _ = []
  rw [hstep, List.flatMap_nil]

theorem expandSteps_optional (steps : List (RelPattern × NodePattern)) :
    ∀ {varName : CStr} {b : Binding}, NewNames (targetNames steps) b →
      deadEnds lib s steps varName b = [] →
      expandSteps lib s true steps varName b = expandSteps lib s false steps varName b := by
  induction steps with
  | nil => exact fun _ _ => rfl
  | cons step steps ih =>
      intro varName b hnew hdead
      obtain ⟨rel, target⟩ := step
      cases hmatches : stepMatches lib s rel target varName b with
      | nil =>
          cases steps with
          | nil =>
              rw [deadEnds, if_pos hmatches] at hdead
              cases hdead
          | cons next steps =>
              -- the binding is kept here and dropped at the next relationship
              have hunbound : target.toVar ∉ b.names := by
                intro hv
                exact (List.nodup_append.mp hnew.nodup).2.2 _ hv _ List.mem_cons_self rfl
              have hkept : ∀ c ∈ stepBindings lib s true rel target varName b, c = b := by
                intro c hc
                rcases mem_stepBindings hc with hcb | hc
                · exact hcb
                · rw [hmatches] at hc
                  cases hc
              have hfalse : stepBindings lib s false rel target varName b = [] := by
                rw [stepBindings_mandatory, hmatches]
              rw [expandSteps, expandSteps, hfalse, List.flatMap_nil, List.flatMap_eq_nil_iff]
              intro c hc
              rw [hkept c hc]
              exact expandSteps_unbound hunbound
      | cons first rest =>
          have hsome : stepBindings lib s true rel target varName b =
              stepMatches lib s rel target varName b := by
            rw [stepBindings, hmatches]
            simp
          rw [expandSteps, expandSteps, hsome, stepBindings_mandatory]
          refine List.flatMap_congr fun d hd => ?_
          refine ih (hnew.tail (hnew.names_of_mem hd)) ?_
          cases steps with
          | nil => rfl
          | cons next steps =>
              rw [deadEnds, List.flatMap_eq_nil_iff] at hdead
              exact hdead d hd

theorem mem_expandSteps_optional (steps : List (RelPattern × NodePattern)) :
    ∀ {varName : CStr} {b c : Binding}, NewNames (targetNames steps) b → varName ∈ b.names →
      (c ∈ expandSteps lib s true steps varName b ↔
        c ∈ expandSteps lib s false steps varName b ∨ c ∈ deadEnds lib s steps varName b) := by
  induction steps with
  | nil =>
      intro varName b c _ _
      simp [expandSteps, deadEnds]
  | cons step steps ih =>
      intro varName b c hnew hbound
      obtain ⟨rel, target⟩ := step
      have hstart := isSome_bindingGet.mpr hbound
      cases hmatches : stepMatches lib s rel target varName b with
      | nil =>
          have hkept : stepBindings lib s true rel target varName b = [b] := by
            rw [stepBindings, hmatches, hstart]
            rfl
          have hfalse : stepBindings lib s false rel target varName b = [] := by
            rw [stepBindings_mandatory, hmatches]
          rw [expandSteps, expandSteps, hkept, hfalse, List.flatMap_nil, List.flatMap_singleton]
          cases steps with
          | nil => simp [expandSteps, deadEnds, hmatches]
          | cons next steps =>
              have hunbound : target.toVar ∉ b.names := by
                intro hv
                exact (List.nodup_append.mp hnew.nodup).2.2 _ hv _ List.mem_cons_self rfl
              rw [expandSteps_unbound hunbound, deadEnds, hmatches, List.flatMap_nil]
              simp
      | cons first rest =>
          have hsome : stepBindings lib s true rel target varName b =
              stepMatches lib s rel target varName b := by
            rw [stepBindings, hmatches]
            simp
          have hnext : ∀ d ∈ stepMatches lib s rel target varName b,
              (c ∈ expandSteps lib s true steps target.toVar d ↔
                c ∈ expandSteps lib s false steps target.toVar d ∨
                  c ∈ deadEnds lib s steps target.toVar d) := by
            intro d hd
            have hnames := hnew.names_of_mem hd
            refine ih (hnew.tail hnames) ?_
            rw [hnames]
            exact List.mem_append_right _ (List.mem_singleton_self _)
          have hdead : c ∈ deadEnds lib s ((rel, target) :: steps) varName b ↔
              ∃ d ∈ stepMatches lib s rel target varName b,
                c ∈ deadEnds lib s steps target.toVar d := by
            cases steps with
            | nil => simp [deadEnds, hmatches]
            | cons next steps => exact List.mem_flatMap
          rw [expandSteps, expandSteps, hsome, stepBindings_mandatory, hdead, List.mem_flatMap,
            List.mem_flatMap]
          constructor
          · rintro ⟨d, hd, hc⟩
            rcases (hnext d hd).mp hc with hfull | hend
            · exact Or.inl ⟨d, hd, hfull⟩
            · exact Or.inr ⟨d, hd, hend⟩
          · rintro (⟨d, hd, hc⟩ | ⟨d, hd, hc⟩)
            · exact ⟨d, hd, (hnext d hd).mpr (Or.inl hc)⟩
            · exact ⟨d, hd, (hnext d hd).mpr (Or.inr hc)⟩

theorem deadEnds_eq_nil (hnew : NewNames (targetNames steps) b) (hbound : varName ∈ b.names)
    (hfull : ∀ c ∈ expandSteps lib s true steps varName b,
      c.names.length = b.names.length + steps.length) : deadEnds lib s steps varName b = [] := by
  rw [List.eq_nil_iff_forall_not_mem]
  intro d hd
  have hlen := hfull d ((mem_expandSteps_optional steps hnew hbound).mpr (Or.inr hd))
  have hdead := names_of_deadEnd steps hnew hd
  omega

theorem ne_self_of_mem {step next : RelPattern × NodePattern} {c : Binding}
    (hnew : NewNames (targetNames (step :: next :: steps)) b) (hbound : varName ∈ b.names)
    (hc : c ∈ expandSteps lib s true (step :: next :: steps) varName b) :
    b.names.length < c.names.length := by
  rcases (mem_expandSteps_optional _ hnew hbound).mp hc with hfull | hend
  · rw [names_of_full _ hnew hfull, List.length_append]
    simp [targetNames]
  · have hlen := names_of_deadEnd _ hnew hend
    simp only [List.length_cons] at hlen
    omega

end Expansion

section One

variable {lib : Libc}
variable {s : Store}
variable {project : Option CStr}
variable {b : Binding}
variable {src : Node}
variable {pat : Pattern}

theorem length_of_full {steps : List (RelPattern × NodePattern)} {varName : CStr} {c : Binding}
    (hnew : NewNames (targetNames steps) b) (hc : c ∈ expandSteps lib s false steps varName b) :
    c.names.length = b.names.length + steps.length := by
  rw [names_of_full steps hnew hc, List.length_append, targetNames, List.length_map]

theorem expandSteps_one {step : RelPattern × NodePattern} {varName : CStr}
    (hbound : varName ∈ b.names) :
    expandSteps lib s true [step] varName b =
      if expandSteps lib s false [step] varName b = [] then [b]
      else expandSteps lib s false [step] varName b := by
  have hone : ∀ optional, expandSteps lib s optional [step] varName b =
      stepBindings lib s optional step.1 step.2 varName b := fun optional =>
    List.flatMap_singleton' _
  rw [hone, hone, stepBindings_mandatory, stepBindings, isSome_bindingGet.mpr hbound]
  cases stepMatches lib s step.1 step.2 varName b <;> simp

theorem fullMatches_bound (hsrc : bindingGet b pat.nvar = some src) :
    fullMatches lib s project pat b =
      if matchesTarget lib s pat.start src then expandSteps lib s false pat.steps pat.nvar b
      else [] := by
  rw [fullMatches, hsrc]

theorem joins_bound (hsrc : bindingGet b pat.nvar = some src) (hsteps : pat.steps ≠ [])
    (hnew : NewNames (targetNames pat.steps) b) :
    expandSteps lib s true pat.steps pat.nvar b = leftJoin lib s project pat b ↔
      JoinsExactly lib s project pat b := by
  have hbound : pat.nvar ∈ b.names := isSome_bindingGet.mp (by rw [hsrc]; rfl)
  unfold JoinsExactly
  rw [hsrc]
  dsimp only
  rw [if_neg hsteps]
  obtain ⟨start, steps⟩ := pat
  cases steps with
  | nil => exact absurd rfl hsteps
  | cons step steps =>
      cases steps with
      | nil =>
          rw [if_pos (by simp), expandSteps_one hbound, leftJoin, fullMatches_bound hsrc]
          dsimp only
          by_cases hstart : matchesTarget lib s start src = true
          · simp [hstart]
          · simp only [hstart, if_true, Bool.false_eq_true, if_false, false_or]
            constructor
            · intro heq
              by_contra hsome
              rw [if_neg hsome] at heq
              have hself : b ∈ expandSteps lib s false [step] (Pattern.nvar ⟨start, [step]⟩) b := by
                rw [heq]
                exact List.mem_singleton_self b
              have hlen := length_of_full hnew hself
              simp at hlen
            · intro hnone
              rw [if_pos hnone]
      | cons next steps =>
          rw [if_neg (by simp)]
          constructor
          · intro heq
            have hfull : fullMatches lib s project ⟨start, step :: next :: steps⟩ b ≠ [] := by
              intro hnone
              rw [leftJoin, if_pos hnone] at heq
              have hself := ne_self_of_mem hnew hbound (heq ▸ List.mem_singleton_self b)
              exact lt_irrefl _ hself
            refine ⟨hfull, deadEnds_eq_nil hnew hbound fun c hc => ?_⟩
            rw [heq, leftJoin, if_neg hfull, fullMatches_bound hsrc] at hc
            split at hc
            · exact length_of_full hnew hc
            · cases hc
          · rintro ⟨hfull, hdead⟩
            rw [expandSteps_optional _ hnew hdead, leftJoin, if_neg hfull]
            rw [fullMatches_bound hsrc] at hfull ⊢
            split at hfull
            · rw [if_pos (by assumption)]
            · exact absurd rfl hfull

theorem NewNames.set (n : Node) (hnew : NewNames (pat.nvar :: targetNames pat.steps) b) :
    (bindingSet b pat.nvar n).names = b.names ++ [pat.nvar] ∧
      NewNames (targetNames pat.steps) (bindingSet b pat.nvar n) ∧
        pat.nvar ∈ (bindingSet b pat.nvar n).names := by
  have hnames : (bindingSet b pat.nvar n).names = b.names ++ [pat.nvar] := by
    rw [names_bindingSet, hnew.addName_eq]
  refine ⟨hnames, hnew.tail hnames, ?_⟩
  rw [hnames]
  exact List.mem_append_right _ (List.mem_singleton_self _)

theorem joins_unbound (hnone : bindingGet b pat.nvar = none) (hsteps : pat.steps ≠ [])
    (hnew : NewNames (pat.nvar :: targetNames pat.steps) b) :
    joinBinding lib s project (pat, true) b = leftJoin lib s project pat b ↔
      JoinsExactly lib s project pat b := by
  have hfull : fullMatches lib s project pat b = (extraNodes lib s project pat).flatMap fun n =>
      expandSteps lib s false pat.steps pat.nvar (bindingSet b pat.nvar n) := by
    rw [fullMatches, hnone]
  have hpos : 0 < pat.steps.length := List.length_pos_iff.mpr hsteps
  unfold JoinsExactly
  rw [hnone]
  simp only [hsteps, false_or]
  by_cases hextra : extraNodes lib s project pat = []
  · have hnil : fullMatches lib s project pat b = [] := by
      rw [hfull, hextra, List.flatMap_nil]
    rw [leftJoin, if_pos hnil, joinBinding]
    simp [hextra]
  · have hcode : joinBinding lib s project (pat, true) b =
        (extraNodes lib s project pat).flatMap fun n =>
          expandSteps lib s true pat.steps pat.nvar (bindingSet b pat.nvar n) := by
      rw [joinBinding]
      simp [hextra]
    rw [hcode]
    simp only [hextra, false_or]
    constructor
    · intro heq
      have hsome : fullMatches lib s project pat b ≠ [] := by
        intro hnil
        rw [leftJoin, if_pos hnil] at heq
        have hself : b ∈ (extraNodes lib s project pat).flatMap fun n =>
            expandSteps lib s true pat.steps pat.nvar (bindingSet b pat.nvar n) := by
          rw [heq]
          exact List.mem_singleton_self b
        obtain ⟨n, -, hbn⟩ := List.mem_flatMap.mp hself
        obtain ⟨hnames, hnewn, hbound⟩ := hnew.set n
        have hlen := congrArg List.length hnames
        rw [List.length_append, List.length_singleton] at hlen
        rcases (mem_expandSteps_optional _ hnewn hbound).mp hbn with hmatch | hend
        · have := length_of_full hnewn hmatch
          omega
        · have := names_of_deadEnd _ hnewn hend
          omega
      refine ⟨hsome, fun n hn => ?_⟩
      obtain ⟨hnames, hnewn, hbound⟩ := hnew.set n
      refine deadEnds_eq_nil hnewn hbound fun c hc => ?_
      have hmem : c ∈ leftJoin lib s project pat b :=
        heq ▸ List.mem_flatMap.mpr ⟨n, hn, hc⟩
      rw [leftJoin, if_neg hsome, hfull] at hmem
      obtain ⟨m, -, hcm⟩ := List.mem_flatMap.mp hmem
      obtain ⟨hnamesm, hnewm, -⟩ := hnew.set m
      rw [length_of_full hnewm hcm, hnames, hnamesm]
    · rintro ⟨hsome, hdead⟩
      rw [leftJoin, if_neg hsome, hfull]
      exact List.flatMap_congr fun n hn => expandSteps_optional _ (hnew.set n).2.1 (hdead n hn)

theorem joins_bound_node (hsrc : bindingGet b pat.nvar = some src) (hsteps : pat.steps = []) :
    joinBinding lib s project (pat, true) b = leftJoin lib s project pat b ↔
      JoinsExactly lib s project pat b := by
  have hself : leftJoin lib s project pat b = [b] := by
    rw [leftJoin, fullMatches_bound hsrc, hsteps]
    by_cases hstart : matchesTarget lib s pat.start src = true
    · simp [hstart, expandSteps]
    · simp [hstart]
  have hcode : joinBinding lib s project (pat, true) b =
      (extraNodes lib s project pat).map (bindingSet b pat.nvar) ++
        if extraNodes lib s project pat = [] then [b] else [] := by
    rw [joinBinding, hsteps]
    simp [expandSteps, List.map_eq_flatMap]
  rw [hself, hcode]
  unfold JoinsExactly
  rw [hsrc]
  dsimp only
  rw [if_pos hsteps]
  cases hextra : extraNodes lib s project pat with
  | nil => simp
  | cons n rest =>
      simp only [List.map_cons, reduceCtorEq, if_false, List.append_nil, List.cons.injEq,
        List.map_eq_nil_iff, false_or, and_congr_left_iff]
      rintro -
      constructor
      · intro heq
        have hslot : HasSlot cypMaxVars b.vars pat.nvar := by
          refine Or.inl ?_
          change (bindingGet b pat.nvar).isSome = true
          rw [hsrc]
          rfl
        have hget : bindingGet (bindingSet b pat.nvar n) pat.nvar = some n :=
          slot_setSlot_self n hslot
        rw [heq, hsrc] at hget
        exact (Option.some.inj hget).symm
      · rintro rfl
        unfold bindingSet
        rw [setSlot_self hsrc]

theorem joins_unbound_node (hnone : bindingGet b pat.nvar = none) (hsteps : pat.steps = []) :
    joinBinding lib s project (pat, true) b = leftJoin lib s project pat b ↔
      JoinsExactly lib s project pat b := by
  unfold JoinsExactly
  rw [hnone, leftJoin, fullMatches, hnone, joinBinding, hsteps]
  cases extraNodes lib s project pat <;> simp [expandSteps]

end One

def NewTo (pat : Pattern) (b : Binding) : Prop :=
  if pat.nvar ∈ b.names then NewNames (targetNames pat.steps) b
  else NewNames (pat.nvar :: targetNames pat.steps) b

/-- `OPTIONAL MATCH (v)-[:CALLS]->…`. -/
def callsFrom (v : String) (targets : List String) : Pattern × Bool :=
  ({ start := nodeOf v none, steps := targets.map callOf }, true)

end Cypher
end CodebaseMemory
