import CodebaseMemory.Cypher.Parser
import CodebaseMemory.GraphBuffer.Ids
import CodebaseMemory.Lib.DepthFirst

/-!
# Transitive complexity (`src/pipeline/pass_complexity.c`)

The pass reads `loop_depth` and `self_recursive` from the properties of functions and
methods, searches the call graph, and appends what it finds to the properties.

Reading aids:
* An array that is indexed by ids is a function.  A node pointer is a place in the
  node array, as in the graph buffer.
* `tld_dfs` is given how many levels there are below, instead of its depth.
* A sum of the C type int wraps around.
* The allocations do not fail; logging is left out.
-/

namespace CodebaseMemory
namespace Pipeline

open Lib
open Sqlite (CStr bytesOf)
open Cypher (afterFirst strtolInt)
open GraphBuffer

/-- `"key":`. -/
def keyPattern (key : CStr) : CStr :=
  34 :: (key ++ [34, 58])

/-- What follows `"key":` and blanks. -/
def afterKey (json key : CStr) : Option CStr :=
  (afterFirst (keyPattern key) json).map fun p => p.dropWhile fun c => c = 32 || c = 9

def jsonGetInt (json key : CStr) (dflt : Int) : Int :=
  match afterKey json key with
  | none => dflt
  | some p => strtolInt p

def jsonGetBool (json key : CStr) : Bool :=
  match afterKey json key with
  | none => false
  | some p => p.head? = some 116

/-- The last byte is `}`, and it is not the only one. -/
def isJsonObject (json : CStr) : Bool :=
  2 ≤ json.length && json.getLast? = some 125

/-- `append_complexity_props`; the new text has less than 64 bytes. -/
def appendComplexityProps (old : CStr) (tld : Int) (recursive : Bool) : CStr :=
  if isJsonObject old then
    old.dropLast ++ (if old.length = 2 then [] else [44]) ++
      bytesOf "\"transitive_loop_depth\":" ++ decimal tld ++
      bytesOf ",\"recursive\":" ++ (if recursive then bytesOf "true" else bytesOf "false") ++ [125]
  else old

theorem comma_not_mem_decimal (i : Int) : (44 : UInt8) ∉ decimal i := by
  intro h
  cases i with
  | ofNat n =>
      have hbounds := (byte_bounds h).1
      exact absurd hbounds (by decide)
  | negSucc n =>
      rcases List.mem_cons.mp h with h | h
      · exact absurd h (by decide)
      · have hbounds := (byte_bounds h).1
        exact absurd hbounds (by decide)

theorem takeWhile_decimal (i : Int) (s : CStr) :
    (decimal i ++ 44 :: s).takeWhile (· ≠ 44) = decimal i := by
  have hdigits : ∀ b ∈ decimal i, decide (b ≠ 44) = true := by
    intro b hb
    rw [decide_eq_true_iff]
    rintro rfl
    exact comma_not_mem_decimal i hb
  rw [List.takeWhile_append_of_pos hdigits, List.takeWhile_cons_of_neg (by simp), List.append_nil]

theorem appendComplexityProps_inj {old : CStr} (hold : isJsonObject old = true) {d d' : Int}
    {r r' : Bool} (h : appendComplexityProps old d r = appendComplexityProps old d' r') :
    d = d' ∧ r = r' := by
  rw [appendComplexityProps, appendComplexityProps, if_pos hold, if_pos hold] at h
  simp only [List.append_assoc, List.append_cancel_left_eq] at h
  have hcomma : bytesOf ",\"recursive\":" = 44 :: bytesOf "\"recursive\":" := by decide
  rw [hcomma, List.cons_append, List.cons_append] at h
  have hd := congrArg (List.takeWhile (· ≠ 44)) h
  rw [takeWhile_decimal, takeWhile_decimal] at hd
  refine ⟨decimal_injective hd, ?_⟩
  rw [hd, List.append_cancel_left_eq, List.cons.injEq, List.append_cancel_left_eq,
    List.append_cancel_right_eq] at h
  cases r <;> cases r' <;> first | rfl | exact absurd h.2 (by decide)

def cbmTldMaxDepth : Nat := 256

/-- The arrays `state`, `recursive` and `tld`. -/
structure Tld where
  marks : Marks Int
  tld : Int → Int

def intAdd (a b : Int) : Int :=
  (a + b + 2 ^ 31) % 2 ^ 32 - 2 ^ 31

/-- `state[id] = 1`. -/
def Tld.enter (st : Tld) (id : Int) : Tld :=
  { st with marks := st.marks.enter id }

/-- `recursive[id] = true`. -/
def Tld.meet (st : Tld) (id : Int) : Tld :=
  { st with marks := st.marks.meet id }

/-- `tld[id] = t; state[id] = 2`. -/
def Tld.leave (st : Tld) (id t : Int) : Tld :=
  { marks := st.marks.leave id, tld := Function.update st.tld id t }

/-- The targets of the CALLS edges of a node. -/
def callees (g : Gbuf) (id : Int) : List Int :=
  (cbmGbufFindEdgesBySourceType g id (bytesOf "CALLS")).map fun q => (g.edgeAt q).targetId

/-- The tests of `tld_dfs` before that of the depth. -/
def tldVisited (maxid id : Int) (st : Tld) : Option (Int × Tld) :=
  if id < 1 ∨ maxid < id then some (0, st)
  else match st.marks.state id with
    | .done => some (st.tld id, st)
    | .inProgress => some (0, st.meet id)
    | .unvisited => none

/-- One round of the loop over the edges. -/
def tldRound (dfs : Int → Tld → Int × Tld) (id : Int) (acc : Int × Tld) (c : Int) : Int × Tld :=
  if c = id then (acc.1, acc.2.meet id)
  else
    let ct := dfs c acc.2
    (if acc.1 < ct.1 then ct.1 else acc.1, ct.2)

/-- `tld_dfs`, with the number of levels below. -/
def tldDfs (g : Gbuf) (loopDepth : Int → Int) (maxid : Int) : Nat → Int → Tld → Int × Tld
  | 0, id, st => (tldVisited maxid id st).getD (loopDepth id, st)
  | levels + 1, id, st =>
      (tldVisited maxid id st).getD
        (let loop := (callees g id).foldl (tldRound (tldDfs g loopDepth maxid levels) id)
            (0, st.enter id)
         let t := intAdd (loopDepth id) loop.1
         (t, loop.2.leave id t))

/-- The arrays `loop_depth`, `recursive` and `nptr`. -/
structure Seeds where
  loopDepth : Int → Int
  recursive : Int → Bool
  nptr : Int → Option Nat

/-- The `loop_depth` of a node. -/
def loopDepthOf (g : Gbuf) (p : Nat) : Int :=
  jsonGetInt (g.nodeAt p).propertiesJson (bytesOf "loop_depth") 0

/-- The `self_recursive` of a node. -/
def selfRecursive (g : Gbuf) (p : Nat) : Bool :=
  jsonGetBool (g.nodeAt p).propertiesJson (bytesOf "self_recursive")

/-- One round of `seed_loop_depths`. -/
def seedRound (g : Gbuf) (maxid : Int) (s : Seeds) (p : Nat) : Seeds :=
  let id := (g.nodeAt p).id
  if 1 ≤ id ∧ id ≤ maxid then
    { loopDepth := Function.update s.loopDepth id (loopDepthOf g p)
      recursive := Function.update s.recursive id (selfRecursive g p)
      nptr := Function.update s.nptr id (some p) }
  else s

def seedLoopDepths (g : Gbuf) (label : CStr) (maxid : Int) (s : Seeds) : Seeds :=
  (cbmGbufFindByLabel g label).foldl (seedRound g maxid) s

/-- The seeds of functions and methods. -/
def seeds (g : Gbuf) (maxid : Int) : Seeds :=
  seedLoopDepths g (bytesOf "Method") maxid
    (seedLoopDepths g (bytesOf "Function") maxid
      { loopDepth := fun _ => 0, recursive := fun _ => false, nptr := fun _ => none })

/-- The arrays before the search. -/
def startTld (s : Seeds) : Tld :=
  { marks := { state := fun _ => .unvisited, flag := s.recursive }, tld := fun _ => 0 }

/-- The search from a node, unless it is done. -/
def searchRound (g : Gbuf) (s : Seeds) (maxid : Int) (st : Tld) (id : Int) : Tld :=
  if st.marks.state id = .done then st
  else (tldDfs g s.loopDepth maxid (cbmTldMaxDepth + 1) id st).2

/-- One round of the loop over the ids; `g` has the edges, which do not change. -/
def passRound (g : Gbuf) (s : Seeds) (maxid : Int) (acc : Gbuf × Tld) (i : Nat) : Gbuf × Tld :=
  let id : Int := i + 1
  match s.nptr id with
  | none => acc
  | some p =>
      let st := searchRound g s maxid acc.2 id
      let n := acc.1.nodeAt p
      (setNode acc.1 p { n with
        propertiesJson := appendComplexityProps n.propertiesJson (st.tld id) (st.marks.flag id) },
        st)

/-- `cbm_pipeline_pass_complexity`; the next id is that of `cbm_gbuf_next_id`. -/
def cbmPipelinePassComplexity (g : Gbuf) : Gbuf :=
  let maxid := g.idMark - 1
  if maxid < 1 then g
  else
    ((List.range maxid.toNat).foldl (passRound g (seeds g maxid) maxid)
      (g, startTld (seeds g maxid))).1

section Search

variable {g : Gbuf} {loopDepth : Int → Int} {maxid id : Int} {st : Tld}

@[simp] theorem Tld.marks_enter : (st.enter id).marks = st.marks.enter id :=
  rfl

@[simp] theorem Tld.marks_meet : (st.meet id).marks = st.marks.meet id :=
  rfl

@[simp] theorem Tld.marks_leave (t : Int) : (st.leave id t).marks = st.marks.leave id :=
  rfl

theorem Tld.tld_leave (t a : Int) : (st.leave id t).tld a = if a = id then t else st.tld a :=
  Function.update_apply _ _ _ _

/-- Ids in range, with those that they call. -/
def InRange (g : Gbuf) (maxid : Int) (V : Int → Prop) : Prop :=
  ∀ a, V a → 1 ≤ a ∧ a ≤ maxid ∧ ∀ c ∈ callees g a, V c

theorem tldVisited_cases (hid : 1 ≤ id ∧ id ≤ maxid) (st : Tld) :
    (st.marks.state id = .done ∧ tldVisited maxid id st = some (st.tld id, st)) ∨
      (st.marks.state id = .inProgress ∧ tldVisited maxid id st = some (0, st.meet id)) ∨
      (st.marks.state id = .unvisited ∧ tldVisited maxid id st = none) := by
  have hrange : ¬ (id < 1 ∨ maxid < id) := by omega
  rw [tldVisited, if_neg hrange]
  cases st.marks.state id with
  | done => exact Or.inl ⟨rfl, rfl⟩
  | inProgress => exact Or.inr (Or.inl ⟨rfl, rfl⟩)
  | unvisited => exact Or.inr (Or.inr ⟨rfl, rfl⟩)

theorem tldDfs_of_visited {r : Int × Tld} (h : tldVisited maxid id st = some r) (levels : Nat) :
    tldDfs g loopDepth maxid levels id st = r := by
  cases levels with
  | zero => rw [tldDfs, h, Option.getD_some]
  | succ levels => rw [tldDfs, h, Option.getD_some]

theorem foldl_tldRound_explores {next : Int → List Int} {cap : Nat} {S : List Int}
    {dfs : Int → Tld → Int × Tld} {V : Int → Prop}
    (hdfs : ∀ c st, V c → Explores next cap S st.marks [c] (dfs c st).2.marks) (cs : List Int)
    (hcs : ∀ c ∈ cs, V c) (acc : Int × Tld) (hid : acc.2.marks.state id = .inProgress) :
    Explores next cap S acc.2.marks cs (cs.foldl (tldRound dfs id) acc).2.marks := by
  induction cs generalizing acc with
  | nil => exact .nil S _
  | cons c cs ih =>
      rw [List.foldl_cons]
      have hfirst : Explores next cap S acc.2.marks [c] (tldRound dfs id acc c).2.marks := by
        by_cases hc : c = id
        · rw [tldRound, if_pos hc, hc]
          exact .back hid (.nil S _)
        · rw [tldRound, if_neg hc]
          exact hdfs c acc.2 (hcs c List.mem_cons_self)
      exact hfirst.append (ih (fun x hx => hcs x (List.mem_cons_of_mem c hx)) _
        (hfirst.state_inProgress hid))

theorem tldDfs_explores {V : Int → Prop} (hV : InRange g maxid V) {levels : Nat} {S : List Int}
    (hS : S.length + levels = cbmTldMaxDepth + 1) (hid : V id) (st : Tld) :
    Explores (callees g) (cbmTldMaxDepth + 1) S st.marks [id]
      (tldDfs g loopDepth maxid levels id st).2.marks := by
  obtain ⟨hlow, hhigh, hcallees⟩ := hV id hid
  induction levels generalizing S id st with
  | zero =>
      rcases tldVisited_cases ⟨hlow, hhigh⟩ st with ⟨h, heq⟩ | ⟨h, heq⟩ | ⟨h, heq⟩
      · rw [tldDfs_of_visited heq]
        exact .done h (.nil S _)
      · rw [tldDfs_of_visited heq]
        exact .back h (.nil S _)
      · rw [tldDfs, heq, Option.getD_none]
        exact .cut h hS (.nil S _)
  | succ levels ih =>
      rcases tldVisited_cases ⟨hlow, hhigh⟩ st with ⟨h, heq⟩ | ⟨h, heq⟩ | ⟨h, heq⟩
      · rw [tldDfs_of_visited heq]
        exact .done h (.nil S _)
      · rw [tldDfs_of_visited heq]
        exact .back h (.nil S _)
      · rw [tldDfs, heq, Option.getD_none]
        refine .enter h (foldl_tldRound_explores (V := V) (fun c st hc => ?_) (callees g id)
          hcallees (0, st.enter id) ?_) (.nil S _)
        · obtain ⟨hlow', hhigh', hcallees'⟩ := hV c hc
          refine ih ?_ hc st hlow' hhigh' hcallees'
          rw [List.length_append, List.length_singleton]
          omega
        · simp

theorem searchRound_explores {V : Int → Prop} (hV : InRange g maxid V) (s : Seeds) (hid : V id)
    (st : Tld) :
    Explores (callees g) (cbmTldMaxDepth + 1) [] st.marks [id]
      (searchRound g s maxid st id).marks := by
  rw [searchRound]
  split
  · next h => exact .done h (.nil [] _)
  · exact tldDfs_explores hV (Nat.zero_add _) hid st

end Search

/-- The nodes of functions and methods. -/
def callables (g : Gbuf) : List Nat :=
  cbmGbufFindByLabel g (bytesOf "Function") ++ cbmGbufFindByLabel g (bytesOf "Method")

/-- The id is that of a function or method. -/
def IsCallable (g : Gbuf) (id : Int) : Prop :=
  ∃ p ∈ callables g, (g.nodeAt p).id = id

/-- There is a CALLS edge from `a` to `b`. -/
def Calls (g : Gbuf) (a b : Int) : Prop :=
  ∃ q ∈ g.edges, (g.edgeAt q).type = bytesOf "CALLS" ∧ (g.edgeAt q).sourceId = a ∧
    (g.edgeAt q).targetId = b

/-- The properties of the function or method with this id. -/
def textAt (g : Gbuf) (id : Int) : CStr :=
  match (callables g).find? fun p => (g.nodeAt p).id = id with
  | none => []
  | some p => (g.nodeAt p).propertiesJson

/-- Functions and methods have ids of their own and properties, and CALLS edges are
between them. -/
structure CallGraph (g : Gbuf) : Prop where
  reachable : Reachable TypedOp g
  range : ∀ p ∈ callables g, 1 ≤ (g.nodeAt p).id ∧ (g.nodeAt p).id ≤ g.idMark - 1
  inj : ∀ p ∈ callables g, ∀ q ∈ callables g, (g.nodeAt p).id = (g.nodeAt q).id → p = q
  object : ∀ p ∈ callables g, isJsonObject (g.nodeAt p).propertiesJson = true
  between : ∀ a b, Calls g a b → IsCallable g a ∧ IsCallable g b

section CallGraph

variable {g : Gbuf}

theorem calls_iff_of_reachable (h : Reachable TypedOp g) {a b : Int} :
    Calls g a b ↔ Among (callees g) a b := by
  rw [Among, callees, List.mem_map]
  refine exists_congr fun q => ?_
  rw [((edges_exact h).1.bySource a (bytesOf "CALLS")).2 q]
  constructor
  · rintro ⟨hq, htype, hsource, htarget⟩
    exact ⟨⟨hq, hsource, htype⟩, htarget⟩
  · rintro ⟨⟨hq, hsource, htype⟩, htarget⟩
    exact ⟨hq, htype, hsource, htarget⟩

theorem calls_iff (h : CallGraph g) {a b : Int} : Calls g a b ↔ Among (callees g) a b :=
  calls_iff_of_reachable h.reachable

theorem calls_eq (h : CallGraph g) : Calls g = Among (callees g) :=
  funext fun _ => funext fun _ => propext (calls_iff h)

variable {maxid : Int}
variable {k p : Nat}
variable {s : Seeds}

theorem CallGraph.textAt_eq (h : CallGraph g) (hp : p ∈ callables g) :
    textAt g (g.nodeAt p).id = (g.nodeAt p).propertiesJson := by
  rw [textAt]
  cases hfind : (callables g).find? fun q => (g.nodeAt q).id = (g.nodeAt p).id with
  | none =>
      rw [List.find?_eq_none] at hfind
      exact absurd (decide_eq_true rfl) (hfind p hp)
  | some q =>
      have hid := List.find?_some hfind
      rw [h.inj q (List.mem_of_find?_eq_some hfind) p hp (by simpa using hid)]

theorem CallGraph.inRange (h : CallGraph g) : InRange g (g.idMark - 1) (IsCallable g) := by
  rintro _ ⟨p, hp, rfl⟩
  obtain ⟨hlow, hhigh⟩ := h.range p hp
  exact ⟨hlow, hhigh, fun c hc => (h.between _ c ((calls_iff h).mpr hc)).2⟩

/-- The arrays have what they should for a node. -/
structure Seeded (g : Gbuf) (s : Seeds) (p : Nat) : Prop where
  loopDepth : s.loopDepth (g.nodeAt p).id = loopDepthOf g p
  recursive : s.recursive (g.nodeAt p).id = selfRecursive g p
  nptr : s.nptr (g.nodeAt p).id = some p

theorem seedRound_eq (hp : 1 ≤ (g.nodeAt p).id ∧ (g.nodeAt p).id ≤ maxid) :
    Seeded g (seedRound g maxid s p) p ∧
      ∀ id, id ≠ (g.nodeAt p).id →
        (seedRound g maxid s p).loopDepth id = s.loopDepth id ∧
          (seedRound g maxid s p).recursive id = s.recursive id ∧
          (seedRound g maxid s p).nptr id = s.nptr id := by
  rw [seedRound, if_pos hp]
  refine ⟨⟨Function.update_self .., Function.update_self .., Function.update_self ..⟩, ?_⟩
  intro id hid
  exact ⟨Function.update_of_ne hid .., Function.update_of_ne hid .., Function.update_of_ne hid ..⟩

theorem foldl_seedRound (ps : List Nat) (s : Seeds)
    (hrange : ∀ p ∈ ps, 1 ≤ (g.nodeAt p).id ∧ (g.nodeAt p).id ≤ maxid) :
    (∀ id, (∀ p ∈ ps, (g.nodeAt p).id ≠ id) →
        (ps.foldl (seedRound g maxid) s).nptr id = s.nptr id) ∧
      ∀ p, (p ∈ ps ∨ Seeded g s p) → (∀ q ∈ ps, (g.nodeAt q).id = (g.nodeAt p).id → q = p) →
        Seeded g (ps.foldl (seedRound g maxid) s) p := by
  induction ps generalizing s with
  | nil => exact ⟨fun _ _ => rfl, fun p hp _ => hp.resolve_left List.not_mem_nil⟩
  | cons q ps ih =>
      obtain ⟨hq, hps⟩ := List.forall_mem_cons.mp hrange
      obtain ⟨hself, hother⟩ := seedRound_eq (s := s) hq
      obtain ⟨hmiss, hhit⟩ := ih (seedRound g maxid s q) hps
      rw [List.foldl_cons]
      refine ⟨fun id hid => ?_, fun p hp hinj => ?_⟩
      · rw [hmiss id fun p hp => hid p (List.mem_cons_of_mem q hp)]
        exact (hother id (hid q List.mem_cons_self).symm).2.2
      · refine hhit p ?_ fun r hr => hinj r (List.mem_cons_of_mem q hr)
        by_cases heq : q = p
        · exact Or.inr (heq ▸ hself)
        · rcases hp with hp | hp
          · exact Or.inl ((List.mem_cons.mp hp).resolve_left fun h => heq h.symm)
          · have hne : (g.nodeAt p).id ≠ (g.nodeAt q).id := fun h =>
              heq (hinj q List.mem_cons_self h.symm)
            obtain ⟨hloop, hrecursive, hnptr⟩ := hother _ hne
            exact Or.inr ⟨hloop.trans hp.loopDepth, hrecursive.trans hp.recursive,
              hnptr.trans hp.nptr⟩

theorem seeds_eq (g : Gbuf) (maxid : Int) :
    seeds g maxid = (callables g).foldl (seedRound g maxid)
      { loopDepth := fun _ => 0, recursive := fun _ => false, nptr := fun _ => none } := by
  rw [seeds, seedLoopDepths, seedLoopDepths, callables, List.foldl_append]

theorem CallGraph.seeded (h : CallGraph g) (hp : p ∈ callables g) :
    Seeded g (seeds g (g.idMark - 1)) p := by
  rw [seeds_eq]
  exact (foldl_seedRound (callables g) _ h.range).2 p (Or.inl hp) fun q hq => h.inj q hq p hp

theorem CallGraph.nptr_iff (h : CallGraph g) {id : Int} :
    (seeds g (g.idMark - 1)).nptr id = some p ↔ p ∈ callables g ∧ (g.nodeAt p).id = id := by
  constructor
  · intro hnptr
    by_cases hid : IsCallable g id
    · obtain ⟨q, hq, rfl⟩ := hid
      rw [(h.seeded hq).nptr] at hnptr
      exact ⟨Option.some.inj hnptr ▸ hq, by rw [Option.some.inj hnptr]⟩
    · rw [seeds_eq, (foldl_seedRound (callables g) _ h.range).1 id
        fun q hq heq => hid ⟨q, hq, heq⟩] at hnptr
      exact absurd hnptr (by simp)
  · rintro ⟨hp, rfl⟩
    exact (h.seeded hp).nptr

/-- The loop over the ids, up to one of them. -/
def passLoop (g : Gbuf) (k : Nat) : Gbuf × Tld :=
  (List.range k).foldl (passRound g (seeds g (g.idMark - 1)) (g.idMark - 1))
    (g, startTld (seeds g (g.idMark - 1)))

theorem passLoop_succ (g : Gbuf) (k : Nat) :
    passLoop g (k + 1) =
      passRound g (seeds g (g.idMark - 1)) (g.idMark - 1) (passLoop g k) k := by
  rw [passLoop, List.range_succ, List.foldl_append]
  rfl

theorem passRound_of_none {acc : Gbuf × Tld} (h : s.nptr (k + 1) = none) :
    passRound g s maxid acc k = acc := by
  simp only [passRound, h]

theorem passRound_of_some {acc : Gbuf × Tld} (h : s.nptr (k + 1) = some p) :
    passRound g s maxid acc k =
      (setNode acc.1 p { acc.1.nodeAt p with
        propertiesJson := appendComplexityProps (acc.1.nodeAt p).propertiesJson
          ((searchRound g s maxid acc.2 (k + 1)).tld (k + 1))
          ((searchRound g s maxid acc.2 (k + 1)).marks.flag (k + 1)) },
        searchRound g s maxid acc.2 (k + 1)) := by
  simp only [passRound, h]

/-- What the search knows after the ids up to `k`. -/
def searched (g : Gbuf) (k : Nat) : Tld :=
  (passLoop g k).2

theorem searched_succ (h : CallGraph g) (k : Nat) :
    (IsCallable g (k + 1) ∧ searched g (k + 1) =
      searchRound g (seeds g (g.idMark - 1)) (g.idMark - 1) (searched g k) (k + 1)) ∨
    (¬ IsCallable g (k + 1) ∧ searched g (k + 1) = searched g k) := by
  rw [searched, passLoop_succ]
  cases hnptr : (seeds g (g.idMark - 1)).nptr (k + 1) with
  | none =>
      rw [passRound_of_none hnptr]
      refine Or.inr ⟨?_, rfl⟩
      rintro ⟨p, hp⟩
      exact absurd (hnptr.symm.trans (h.nptr_iff.mpr hp)) (by simp)
  | some p =>
      rw [passRound_of_some hnptr]
      exact Or.inl ⟨⟨p, h.nptr_iff.mp hnptr⟩, rfl⟩

theorem passLoop_node (h : CallGraph g) (hp : p ∈ callables g) (k : Nat) :
    ((passLoop g k).1.nodeAt p).propertiesJson =
      if (g.nodeAt p).id ≤ k then
        appendComplexityProps (g.nodeAt p).propertiesJson
          ((searched g (g.nodeAt p).id.toNat).tld (g.nodeAt p).id)
          ((searched g (g.nodeAt p).id.toNat).marks.flag (g.nodeAt p).id)
      else (g.nodeAt p).propertiesJson := by
  have hlow := (h.range p hp).1
  induction k with
  | zero =>
      rw [if_neg (by omega)]
      rfl
  | succ k ih =>
      by_cases hid : (g.nodeAt p).id = k + 1
      · rw [if_neg (by omega)] at ih
        have hnptr := h.nptr_iff.mpr ⟨hp, hid⟩
        have htoNat : (g.nodeAt p).id.toNat = k + 1 := by omega
        rw [if_pos (by omega), htoNat, hid, searched, passLoop_succ, passRound_of_some hnptr]
        dsimp only
        rw [nodeAt_setNode, if_pos rfl, ih]
      · have hsame : ((passLoop g (k + 1)).1.nodeAt p).propertiesJson =
            ((passLoop g k).1.nodeAt p).propertiesJson := by
          rw [passLoop_succ]
          cases hnptr : (seeds g (g.idMark - 1)).nptr (k + 1) with
          | none => rw [passRound_of_none hnptr]
          | some q =>
              have hne : p ≠ q := by
                rintro rfl
                exact hid (h.nptr_iff.mp hnptr).2
              rw [passRound_of_some hnptr, nodeAt_setNode, if_neg hne]
        rw [hsame, ih]
        exact if_congr (by push_cast; omega) rfl rfl

theorem pass_node (h : CallGraph g) (hp : p ∈ callables g) :
    ((cbmPipelinePassComplexity g).nodeAt p).propertiesJson =
      appendComplexityProps (g.nodeAt p).propertiesJson
        ((searched g (g.nodeAt p).id.toNat).tld (g.nodeAt p).id)
        ((searched g (g.nodeAt p).id.toNat).marks.flag (g.nodeAt p).id) := by
  obtain ⟨hlow, hhigh⟩ := h.range p hp
  have hpass := passLoop_node h hp (g.idMark - 1).toNat
  rw [if_pos (by omega)] at hpass
  rw [cbmPipelinePassComplexity, if_neg (by omega)]
  exact hpass

theorem searched_explores (h : CallGraph g) (hid : IsCallable g (k + 1)) :
    Explores (callees g) (cbmTldMaxDepth + 1) [] (searched g k).marks [(k + 1 : Int)]
      (searched g (k + 1)).marks := by
  rcases searched_succ h k with ⟨_, heq⟩ | ⟨hno, _⟩
  · rw [heq]
    exact searchRound_explores h.inRange _ hid _
  · exact absurd hid hno

theorem searched_rule (h : CallGraph g) {P : Marks Int → Prop}
    (hstart : P (startTld (seeds g (g.idMark - 1))).marks)
    (hstep : ∀ id m m', IsCallable g id → P m →
      Explores (callees g) (cbmTldMaxDepth + 1) [] m [id] m' → P m') (k : Nat) :
    P (searched g k).marks := by
  induction k with
  | zero => exact hstart
  | succ k ih =>
      by_cases hid : IsCallable g (k + 1)
      · exact hstep _ _ _ hid ih (searched_explores h hid)
      · rcases searched_succ h k with ⟨hyes, _⟩ | ⟨_, heq⟩
        · exact absurd hyes hid
        · rw [heq]
          exact ih

theorem searched_onStack (h : CallGraph g) (k : Nat) : OnStack [] (searched g k).marks := by
  refine searched_rule h (fun a => ?_) (fun _ _ _ _ hm hexplores => hexplores.onStack hm) k
  exact iff_of_false (by simp [startTld]) List.not_mem_nil

theorem searched_done (h : CallGraph g) {id : Int} (hid : IsCallable g id) :
    (searched g id.toNat).marks.state id = .done := by
  have hlow := (h.inRange id hid).1
  obtain ⟨k, rfl⟩ : ∃ k : Nat, id = k + 1 := ⟨(id - 1).toNat, by omega⟩
  have htoNat : ((k : Int) + 1).toNat = k + 1 := by omega
  rw [htoNat]
  exact (searched_explores h hid).done_of_nil (searched_onStack h k) (Nat.succ_pos _)

end CallGraph

end Pipeline
end CodebaseMemory
