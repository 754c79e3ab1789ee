import CodebaseMemory.Foundation.JsonEscape
import CodebaseMemory.GraphBuffer.Content
import CodebaseMemory.Lib.Threads

/-!
# Parallel extraction (`src/pipeline/pass_parallel.c`)

Workers claim files from a shared counter.  Each puts the definitions of its files into a graph
buffer of its own, with ids from a shared source, and the buffers are merged when all threads
have stopped.

The schedule decides which worker gets a file, and which ids a node and an edge have.  What is
found under a name depends on it only where two definitions have the same name, which a route
easily has: the later of the merged buffers wins.
-/

namespace CodebaseMemory
namespace Pipeline

open Lib
open Sqlite (CStr bytesOf)
open GraphBuffer
open Foundation

def cbmRouteQnSize : Nat := 768

/-- `CBMDefinition`, with what `build_def_props` writes for it. -/
structure Definition where
  name : Option CStr
  qualifiedName : Option CStr
  label : Option CStr
  filePath : Option CStr
  startLine : Int
  endLine : Int
  routePath : Option CStr
  routeMethod : Option CStr
  props : CStr

/-- A file, with its definitions if it can be read and parsed. -/
structure SourceFile where
  relPath : CStr
  defs : Option (List Definition)

/-- What an upsert is called with: the qualified name, and the fields. -/
abbrev NodeCall : Type :=
  CStr × NodeFields

def NodeCall.run (u : NodeCall) (g : Gbuf) : Gbuf × Int :=
  cbmGbufUpsertNode g (some u.2.label) (some u.2.name) u.1 (some u.2.filePath) u.2.startLine
    u.2.endLine u.2.properties

def Definition.node (d : Definition) (relPath qn name : CStr) : NodeCall :=
  (qn,
    { label := d.label.getD (bytesOf "Function")
      name := name
      filePath := d.filePath.getD relPath
      startLine := d.startLine
      endLine := d.endLine
      properties := some d.props })

/-- The path of a route, if there is one that is not empty. -/
def Definition.route (d : Definition) : Option CStr :=
  d.routePath.filter (· ≠ [])

/-- The node of a route, with the texts cut to their buffers. -/
def Definition.routeNode (d : Definition) (relPath path : CStr) : NodeCall :=
  let method := d.routeMethod.getD (bytesOf "ANY")
  ((bytesOf "__route__" ++ method ++ bytesOf "__" ++ path).take (cbmRouteQnSize - 1),
    { label := bytesOf "Route"
      name := path
      filePath := d.filePath.getD relPath
      startLine := 0
      endLine := 0
      properties := some ((bytesOf "\x7b\"method\":\"" ++ method ++
        bytesOf "\",\"source\":\"decorator\"\x7d").take 255) })

/-- `hprops` -/
def handlerProps (qn : CStr) : CStr :=
  (bytesOf "\x7b\"handler\":\"" ++ (cbmJsonEscape 512 (some qn)).getD [] ++
    bytesOf "\"\x7d").take 511

/-- The nodes that `insert_def_into_gbuf` is to make of a definition. -/
def Definition.nodes (relPath : CStr) (d : Definition) : List NodeCall :=
  match d.qualifiedName, d.name with
  | some qn, some name => d.node relPath qn name :: (d.route.map (d.routeNode relPath)).toList
  | _, _ => []

def SourceFile.nodes (f : SourceFile) : List NodeCall :=
  (f.defs.getD []).flatMap (Definition.nodes f.relPath)

def allNodes (files : List SourceFile) : List NodeCall :=
  files.flatMap SourceFile.nodes

/-- `next_idx` of the pool, and `extract_ctx_t`. -/
structure ExtractShared where
  poolNext : Nat
  nextFileIdx : Nat
  sharedIds : Int
  localGbuf : Nat → Gbuf

/-- A worker uses its buffer; an id is the next one of the shared source. -/
def ExtractShared.use (sh : ExtractShared) (w : Nat) (f : Gbuf → Gbuf × Int) :
    ExtractShared × Int :=
  let used := f { sh.localGbuf w with sharedIds := some sh.sharedIds }
  ({ sh with
      sharedIds := used.1.sharedIds.getD sh.sharedIds
      localGbuf := Function.update sh.localGbuf w used.1 },
    used.2)

/-- Where a thread stands: before it claims a worker number, or in `extract_worker`, with the
definitions that are left, and in `insert_def_into_gbuf` before a route and its edge. -/
inductive ExtractPc where
  | pool
  | claim (w : Nat)
  | defs (w : Nat) (relPath : CStr) (rest : List Definition)
  | route (w : Nat) (relPath : CStr) (d : Definition) (qn path : CStr) (funcId : Int)
      (rest : List Definition)
  | handles (w : Nat) (relPath qn : CStr) (funcId routeId : Int) (rest : List Definition)
  | stopped

section Extract

variable (files : List SourceFile)
variable (workerCount : Nat)

/-- A step of a thread, in a run that is not cancelled. -/
def extractStep (sh : ExtractShared) : ExtractPc → ExtractShared × ExtractPc
  | .pool =>
      ({ sh with poolNext := sh.poolNext + 1 },
        if sh.poolNext < workerCount then .claim sh.poolNext else .stopped)
  | .claim w =>
      ({ sh with nextFileIdx := sh.nextFileIdx + 1 },
        match files[sh.nextFileIdx]? with
        | none => .pool
        | some f =>
            match f.defs with
            | none => .claim w
            | some defs => .defs w f.relPath defs)
  | .defs w _ [] => (sh, .claim w)
  | .defs w relPath (d :: rest) =>
      match d.qualifiedName, d.name with
      | some qn, some name =>
          let used := sh.use w (d.node relPath qn name).run
          (used.1, match d.route with
            | none => .defs w relPath rest
            | some path => .route w relPath d qn path used.2 rest)
      | _, _ => (sh, .defs w relPath rest)
  | .route w relPath d qn path funcId rest =>
      let used := sh.use w (d.routeNode relPath path).run
      (used.1, .handles w relPath qn funcId used.2 rest)
  | .handles w relPath qn funcId routeId rest =>
      ((sh.use w fun g => cbmGbufInsertEdge g funcId routeId (bytesOf "HANDLES")
        (some (handlerProps qn))).1, .defs w relPath rest)
  | .stopped => (sh, .stopped)

/-- Before the threads run; `cbm_gbuf_new_shared_ids` gives a worker its buffer. -/
def extractStart (project : CStr) (ids : Int) : ExtractShared :=
  { poolNext := 0
    nextFileIdx := 0
    sharedIds := ids
    localGbuf := fun _ => cbmGbufNew project (some ids) }

/-- The threads after some steps in a given order. -/
def extractRun (project : CStr) (ids : Int) {threads : Nat} (order : List (Fin threads)) :
    ExtractShared × (Fin threads → ExtractPc) :=
  runTurns (extractStep files workerCount) (extractStart project ids, fun _ => .pool) order

/-- `cbm_parallel_extract` can lead from `g` to `g'`, on some number of threads; the files are
in the order of the sort by size. -/
def CbmParallelExtract (project : CStr) (ids : Int) (g g' : Gbuf) : Prop :=
  if files = [] then g' = g
  else ∃ threads, 0 < threads ∧ ∃ order : List (Fin threads),
    (∀ t, (extractRun files workerCount project ids order).2 t = .stopped) ∧
      g' = ((List.range workerCount).map
        (extractRun files workerCount project ids order).1.localGbuf).foldl cbmGbufMerge g

end Extract

/-- The nodes that a thread is still to make of its file. -/
def ExtractPc.rest : ExtractPc → List NodeCall
  | .defs _ relPath rest | .handles _ relPath _ _ _ rest =>
      rest.flatMap (Definition.nodes relPath)
  | .route _ relPath d _ path _ rest =>
      d.routeNode relPath path :: rest.flatMap (Definition.nodes relPath)
  | .pool | .claim _ | .stopped => []

/-- The worker number of the thread. -/
def ExtractPc.worker : ExtractPc → Option Nat
  | .claim w | .defs w _ _ | .route w _ _ _ _ _ _ | .handles w _ _ _ _ _ => some w
  | .pool | .stopped => none

theorem content_nodeCall {g : Gbuf} (h : Owned g) {u : NodeCall} (hprops : u.2.properties.isSome)
    (ids : Option Int) (qn : CStr) :
    content (u.run { g with sharedIds := ids }).1 qn =
      if qn = u.1 then some u.2 else content g qn := by
  have hsame : Owned { g with sharedIds := ids } := h.congr rfl
  obtain ⟨name, label, text, filePath, startLine, endLine, properties⟩ := u
  obtain ⟨p, rfl⟩ : ∃ p, properties = some p := Option.isSome_iff_exists.mp hprops
  rw [NodeCall.run, content_upsert hsame.named]
  rfl

theorem properties_nodes {relPath : CStr} {d : Definition} {u : NodeCall}
    (hu : u ∈ d.nodes relPath) : u.2.properties.isSome := by
  rw [Definition.nodes] at hu
  split at hu
  · rcases List.mem_cons.mp hu with rfl | hu
    · rfl
    · obtain ⟨path, -, rfl⟩ := Option.map_eq_some_iff.mp (Option.mem_toList.mp hu)
      rfl
  · exact absurd hu List.not_mem_nil

theorem nodes_of_named {relPath qn name : CStr} {d : Definition}
    (hqn : d.qualifiedName = some qn) (hname : d.name = some name) :
    d.nodes relPath = d.node relPath qn name :: (d.route.map (d.routeNode relPath)).toList := by
  rw [Definition.nodes, hqn, hname]

section Steps

variable {files : List SourceFile} {workerCount : Nat}

/-- What a step does: `claimed` are the nodes of a file that the thread takes, and `made` those
that are found in the buffer of its worker afterwards. -/
structure ExtractTurn (files : List SourceFile) (workerCount : Nat) (sh : ExtractShared)
    (p : ExtractPc) (sh' : ExtractShared) (p' : ExtractPc) : Prop where
  pool : sh.poolNext ≤ sh'.poolNext
  next : sh.nextFileIdx ≤ sh'.nextFileIdx
  ledger : ∃ claimed made : List NodeCall,
    allNodes (files.take sh'.nextFileIdx) = allNodes (files.take sh.nextFileIdx) ++ claimed ∧
    p.rest ++ claimed = made ++ p'.rest ∧
    (∀ u ∈ made, ∃ w, p.worker = some w ∧ (content (sh'.localGbuf w) u.1).isSome = true) ∧
    ∀ w qn, content (sh'.localGbuf w) qn = content (sh.localGbuf w) qn ∨
      ∃ u ∈ made, qn = u.1 ∧ content (sh'.localGbuf w) qn = some u.2
  owned : ∀ w, Owned (sh'.localGbuf w)
  started : p'.worker ≠ none ∨ files.length ≤ sh'.nextFileIdx ∨ p.worker = none ∧ 0 < sh.poolNext
  worker : ∀ w, p'.worker = some w → p.worker = some w ∨ w < workerCount
  stopped : p' = .stopped → workerCount ≤ sh'.poolNext

theorem ExtractTurn.of_nodePart {sh sh' : ExtractShared} {p p' : ExtractPc}
    (howned : ∀ w, Owned (sh.localGbuf w))
    (hpart : ∀ w, (sh'.localGbuf w).nodePart = (sh.localGbuf w).nodePart)
    (hpool : sh.poolNext ≤ sh'.poolNext) (hnext : sh.nextFileIdx ≤ sh'.nextFileIdx)
    {claimed : List NodeCall}
    (hclaim : allNodes (files.take sh'.nextFileIdx) =
      allNodes (files.take sh.nextFileIdx) ++ claimed)
    (hrest : p.rest ++ claimed = p'.rest)
    (hstarted : p'.worker ≠ none ∨ files.length ≤ sh'.nextFileIdx ∨
      p.worker = none ∧ 0 < sh.poolNext)
    (hworker : ∀ w, p'.worker = some w → p.worker = some w ∨ w < workerCount)
    (hstopped : p' = .stopped → workerCount ≤ sh'.poolNext) :
    ExtractTurn files workerCount sh p sh' p' where
  pool := hpool
  next := hnext
  ledger := ⟨claimed, [], hclaim, hrest, fun _ hu => absurd hu List.not_mem_nil,
    fun w qn => Or.inl (congrFun (content_of_nodePart (hpart w)) qn)⟩
  owned := fun w => (howned w).congr (hpart w)
  started := hstarted
  worker := hworker
  stopped := hstopped

theorem extractTurn_run {sh : ExtractShared} {p p' : ExtractPc} {w : Nat} {u : NodeCall}
    (howned : ∀ w, Owned (sh.localGbuf w)) (hprops : u.2.properties.isSome)
    (hrest : p.rest = u :: p'.rest) (hp : p.worker = some w) (hp' : p'.worker = some w) :
    ExtractTurn files workerCount sh p (sh.use w u.run).1 p' := by
  have hself : ∀ qn, content ((sh.use w u.run).1.localGbuf w) qn =
      if qn = u.1 then some u.2 else content (sh.localGbuf w) qn := by
    intro qn
    change content (Function.update sh.localGbuf w _ w) qn = _
    rw [Function.update_self, content_nodeCall (howned w) hprops]
  have hother : ∀ v, v ≠ w → (sh.use w u.run).1.localGbuf v = sh.localGbuf v := fun v hv =>
    Function.update_of_ne hv ..
  refine ⟨Nat.le_refl _, Nat.le_refl _, ⟨[], [u], (List.append_nil _).symm,
    by rw [hrest, List.append_nil]; rfl, fun v hv => ⟨w, hp, ?_⟩, fun v qn => ?_⟩, fun v => ?_,
    Or.inl (by simp [hp']), fun v hv => Or.inl (hp.trans (hp'.symm.trans hv)),
    fun h => by simp [h, ExtractPc.worker] at hp'⟩
  · rw [List.mem_singleton.mp hv, hself, if_pos rfl]
    rfl
  · by_cases hv : v = w
    · subst hv
      rw [hself]
      by_cases hqn : qn = u.1
      · exact Or.inr ⟨u, List.mem_singleton_self u, hqn, if_pos hqn⟩
      · exact Or.inl (if_neg hqn)
    · exact Or.inl (by rw [hother v hv])
  · by_cases hv : v = w
    · subst hv
      change Owned (Function.update sh.localGbuf v _ v)
      rw [Function.update_self]
      exact Owned.upsert (g := { sh.localGbuf v with sharedIds := some sh.sharedIds })
        ((howned v).congr rfl) ..
    · rw [hother v hv]
      exact howned v

theorem nodePart_use_cbmGbufInsertEdge (sh : ExtractShared) (w : Nat) (src tgt : Int)
    (type : CStr) (props : Option CStr) (v : Nat) :
    ((sh.use w fun g => cbmGbufInsertEdge g src tgt type props).1.localGbuf v).nodePart =
      (sh.localGbuf v).nodePart := by
  change (Function.update sh.localGbuf w _ v).nodePart = _
  rw [Function.update_apply]
  split
  · next hv =>
      subst hv
      exact nodePart_cbmGbufInsertEdge { sh.localGbuf v with sharedIds := some sh.sharedIds } ..
  · rfl

theorem extractTurn_extractStep (hworkers : 0 < workerCount) {sh : ExtractShared} {p : ExtractPc}
    (howned : ∀ w, Owned (sh.localGbuf w)) (hstopped : p = .stopped → workerCount ≤ sh.poolNext) :
    ExtractTurn files workerCount sh p (extractStep files workerCount sh p).1
      (extractStep files workerCount sh p).2 := by
  cases p with
  | pool =>
      rw [extractStep]
      by_cases hlt : sh.poolNext < workerCount
      · rw [if_pos hlt]
        refine .of_nodePart howned (fun _ => rfl) (Nat.le_succ _) (Nat.le_refl _)
          (List.append_nil _).symm rfl (Or.inl (Option.some_ne_none _)) (fun w hw => Or.inr ?_)
          (fun h => by simp at h)
        rwa [← Option.some.inj hw]
      · rw [if_neg hlt]
        exact .of_nodePart howned (fun _ => rfl) (Nat.le_succ _) (Nat.le_refl _)
          (List.append_nil _).symm rfl (Or.inr (Or.inr ⟨rfl, by omega⟩))
          (fun w hw => by simp [ExtractPc.worker] at hw)
          (fun _ => Nat.le_succ_of_le (Nat.not_lt.mp hlt))
  | claim w =>
      rw [extractStep]
      have htake : allNodes (files.take (sh.nextFileIdx + 1)) =
          allNodes (files.take sh.nextFileIdx) ++
            files[sh.nextFileIdx]?.toList.flatMap SourceFile.nodes := by
        rw [List.take_add_one, allNodes, List.flatMap_append]
        rfl
      cases hfile : files[sh.nextFileIdx]? with
      | none =>
          rw [hfile] at htake
          exact .of_nodePart howned (fun _ => rfl) (Nat.le_refl _) (Nat.le_succ _) htake rfl
            (Or.inr (Or.inl (Nat.le_succ_of_le (List.getElem?_eq_none_iff.mp hfile))))
            (fun v hv => by simp [ExtractPc.worker] at hv) (fun h => by simp at h)
      | some f =>
          rw [hfile, Option.toList_some, List.flatMap_singleton] at htake
          obtain ⟨relPath, _ | defs⟩ := f <;>
            exact .of_nodePart howned (fun _ => rfl) (Nat.le_refl _) (Nat.le_succ _) htake rfl
              (Or.inl (Option.some_ne_none w)) (fun v hv => Or.inl hv) (fun h => by simp at h)
  | defs w relPath rest =>
      cases rest with
      | nil =>
          exact .of_nodePart howned (fun _ => rfl) (Nat.le_refl _) (Nat.le_refl _)
            (List.append_nil _).symm rfl (Or.inl (Option.some_ne_none w))
            (fun v hv => Or.inl hv) (fun h => by simp [extractStep] at h)
      | cons d rest =>
          rw [extractStep]
          split
          · next qn name hqn hname =>
              have hnodes := @nodes_of_named relPath qn name d hqn hname
              refine extractTurn_run howned rfl ?_ rfl ?_
              · cases hroute : d.route <;>
                  simp [hnodes, hroute, ExtractPc.rest, List.flatMap_cons]
              · cases d.route <;> rfl
          · next hnone =>
              have hnodes : d.nodes relPath = [] := by
                rw [Definition.nodes]
                split
                · next qn name hqn hname => exact absurd hname (hnone qn name hqn)
                · rfl
              refine .of_nodePart howned (fun _ => rfl) (Nat.le_refl _) (Nat.le_refl _)
                (List.append_nil _).symm ?_ (Or.inl (Option.some_ne_none w))
                (fun v hv => Or.inl hv) (fun h => by simp at h)
              simp [ExtractPc.rest, List.flatMap_cons, hnodes]
  | route w relPath d qn path funcId rest =>
      exact extractTurn_run howned rfl rfl rfl rfl
  | handles w relPath qn funcId routeId rest =>
      exact .of_nodePart howned (fun v => nodePart_use_cbmGbufInsertEdge sh w _ _ _ _ v)
        (Nat.le_refl _) (Nat.le_refl _) (List.append_nil _).symm (List.append_nil _)
        (Or.inl (Option.some_ne_none w)) (fun v hv => Or.inl hv)
        (fun h => by simp [extractStep] at h)
  | stopped =>
      have hle := hstopped rfl
      exact .of_nodePart howned (fun _ => rfl) (Nat.le_refl _) (Nat.le_refl _)
        (List.append_nil _).symm rfl (Or.inr (Or.inr ⟨rfl, by omega⟩))
        (fun v hv => Or.inl hv) (fun _ => hle)

variable {threads : Nat}

/-- A node is found in the buffer of a worker, or a thread is still to make it. -/
def Placed (workerCount : Nat) (s : ExtractShared × (Fin threads → ExtractPc)) (u : NodeCall) :
    Prop :=
  (∃ w < workerCount, (content (s.1.localGbuf w) u.1).isSome = true) ∨ ∃ t, u ∈ (s.2 t).rest

/-- What the threads keep: the buffers have nodes of the files only, and all that were taken are
placed. -/
structure ExtractInv (files : List SourceFile) (workerCount : Nat)
    (s : ExtractShared × (Fin threads → ExtractPc)) : Prop where
  owned : ∀ w, Owned (s.1.localGbuf w)
  only : ∀ w qn x, content (s.1.localGbuf w) qn = some x → (qn, x) ∈ allNodes files
  taken : ∀ u ∈ allNodes (files.take s.1.nextFileIdx), Placed workerCount s u
  rest : ∀ t, ∀ u ∈ (s.2 t).rest, u ∈ allNodes files
  worker : ∀ t w, (s.2 t).worker = some w → w < workerCount
  started : s.1.poolNext = 0 ∨ files.length ≤ s.1.nextFileIdx ∨ ∃ t, (s.2 t).worker ≠ none
  stopped : ∀ t, s.2 t = .stopped → workerCount ≤ s.1.poolNext

theorem ExtractInv.turn (hworkers : 0 < workerCount)
    {s : ExtractShared × (Fin threads → ExtractPc)} (h : ExtractInv files workerCount s)
    (t : Fin threads) :
    ExtractInv files workerCount (takeTurn (extractStep files workerCount) s t) := by
  have hturn := @extractTurn_extractStep files _ hworkers _ _ h.owned (h.stopped t)
  obtain ⟨claimed, made, hclaim, hsplit, hmade, hcontent⟩ := hturn.ledger
  have hself : (takeTurn (extractStep files workerCount) s t).2 t =
      (extractStep files workerCount s.1 (s.2 t)).2 := Function.update_self ..
  have hother : ∀ u, u ≠ t → (takeTurn (extractStep files workerCount) s t).2 u = s.2 u :=
    fun u hu => Function.update_of_ne hu ..
  have hfiles : ∀ u ∈ (s.2 t).rest ++ claimed, u ∈ allNodes files := by
    refine List.forall_mem_append.mpr ⟨h.rest t, fun u hu => ?_⟩
    obtain ⟨f, hf, huf⟩ := List.mem_flatMap.mp (hclaim ▸ List.mem_append_right _ hu :
      u ∈ allNodes (files.take (extractStep files workerCount s.1 (s.2 t)).1.nextFileIdx))
    exact List.mem_flatMap.mpr ⟨f, List.mem_of_mem_take hf, huf⟩
  -- what the thread had and what it claims is made, or still to be made
  have hplaced : ∀ u ∈ (s.2 t).rest ++ claimed,
      Placed workerCount (takeTurn (extractStep files workerCount) s t) u := by
    intro u hu
    rcases List.mem_append.mp (hsplit ▸ hu) with hu | hu
    · obtain ⟨w, hw, hsome⟩ := hmade u hu
      exact Or.inl ⟨w, h.worker t w hw, hsome⟩
    · exact Or.inr ⟨t, by rwa [hself]⟩
  refine ⟨hturn.owned, fun w qn x hx => ?_, fun u hu => ?_, fun v u hu => ?_, fun v w hw => ?_, ?_,
    fun v hv => ?_⟩
  · rcases hcontent w qn with hsame | ⟨u, hu, rfl, hat⟩
    · exact h.only w qn x (hsame.symm.trans hx)
    · obtain rfl := Option.some.inj (hat.symm.trans hx)
      exact hfiles u (hsplit ▸ List.mem_append_left _ hu)
  · rcases List.mem_append.mp (hclaim ▸ hu) with hold | hnew
    · rcases h.taken u hold with ⟨w, hw, hsome⟩ | ⟨v, hv⟩
      · refine Or.inl ⟨w, hw, ?_⟩
        rcases hcontent w u.1 with hsame | ⟨u', -, -, hat⟩
        · exact (congrArg Option.isSome hsame).trans hsome
        · exact (congrArg Option.isSome hat).trans rfl
      · by_cases hvt : v = t
        · exact hplaced u (List.mem_append_left _ (hvt ▸ hv))
        · exact Or.inr ⟨v, by rwa [hother v hvt]⟩
    · exact hplaced u (List.mem_append_right _ hnew)
  · by_cases hvt : v = t
    · rw [hvt, hself] at hu
      exact hfiles u (hsplit ▸ List.mem_append_right _ hu)
    · rw [hother v hvt] at hu
      exact h.rest v u hu
  · by_cases hvt : v = t
    · rw [hvt, hself] at hw
      exact (hturn.worker w hw).elim (h.worker t w) id
    · rw [hother v hvt] at hw
      exact h.worker v w hw
  · rcases hturn.started with hworking | hall | ⟨hidle, hpool⟩
    · exact Or.inr (Or.inr ⟨t, by rwa [hself]⟩)
    · exact Or.inr (Or.inl hall)
    · rcases h.started with hzero | hall | ⟨v, hv⟩
      · omega
      · exact Or.inr (Or.inl (hall.trans hturn.next))
      · refine Or.inr (Or.inr ⟨v, ?_⟩)
        rwa [hother v]
        rintro rfl
        exact hv hidle
  · by_cases hvt : v = t
    · rw [hvt, hself] at hv
      exact hturn.stopped hv
    · rw [hother v hvt] at hv
      exact (h.stopped v hv).trans hturn.pool

theorem extractInv_run (hworkers : 0 < workerCount) (project : CStr) (ids : Int)
    (order : List (Fin threads)) :
    ExtractInv files workerCount (extractRun files workerCount project ids order) := by
  refine runTurns_invariant (fun s t hs => hs.turn hworkers t) ?_ order
  refine ⟨fun _ => owned_new _ _, fun _ qn x hx => ?_, fun u hu => ?_, fun _ u hu => ?_,
    fun _ _ hw => ?_, Or.inl rfl, fun _ ht => ?_⟩
  · exact absurd ((content_new project (some ids) qn).symm.trans hx) (by simp)
  · exact absurd hu List.not_mem_nil
  · exact absurd hu List.not_mem_nil
  · simp [ExtractPc.worker] at hw
  · simp at ht

/-- The steps that a thread can take without a further file. -/
def ExtractPc.measure : ExtractPc → Nat
  | .stopped => 0
  | .pool => 1
  | .claim _ => 2
  | .defs _ _ rest => 3 + 4 * rest.length
  | .handles _ _ _ _ _ rest => 4 + 4 * rest.length
  | .route _ _ _ _ _ _ rest => 5 + 4 * rest.length

def SourceFile.steps (f : SourceFile) : Nat :=
  2 + 4 * (f.defs.getD []).length

variable (files workerCount) in
/-- How many steps there can be. -/
def extractMeasure (s : ExtractShared × (Fin threads → ExtractPc)) : Nat :=
  2 * (workerCount - s.1.poolNext) + ((files.drop s.1.nextFileIdx).map SourceFile.steps).sum +
    ∑ t, (s.2 t).measure

theorem measure_extractStep (sh : ExtractShared) {p : ExtractPc} (hp : p ≠ .stopped) :
    2 * (workerCount - (extractStep files workerCount sh p).1.poolNext) +
        ((files.drop (extractStep files workerCount sh p).1.nextFileIdx).map
          SourceFile.steps).sum + (extractStep files workerCount sh p).2.measure <
      2 * (workerCount - sh.poolNext) +
        ((files.drop sh.nextFileIdx).map SourceFile.steps).sum + p.measure := by
  cases p with
  | pool =>
      rw [extractStep]
      dsimp only
      split <;> simp only [ExtractPc.measure] <;> omega
  | claim w =>
      rw [extractStep]
      cases hfile : files[sh.nextFileIdx]? with
      | none =>
          have hle := List.getElem?_eq_none_iff.mp hfile
          rw [List.drop_eq_nil_of_le hle]
          simp [ExtractPc.measure, List.drop_eq_nil_of_le (Nat.le_succ_of_le hle)]
      | some f =>
          obtain ⟨hlt, heq⟩ := List.getElem?_eq_some_iff.mp hfile
          rw [List.drop_eq_getElem_cons hlt, heq, List.map_cons, List.sum_cons, SourceFile.steps]
          obtain ⟨relPath, _ | defs⟩ := f <;>
            simp only [ExtractPc.measure, Option.getD_some, Option.getD_none, List.length_nil] <;>
            omega
  | defs w relPath rest =>
      cases rest with
      | nil => simp only [extractStep, ExtractPc.measure, List.length_nil]; omega
      | cons d rest =>
          rw [extractStep]
          split
          · cases d.route <;>
              simp only [ExtractShared.use, ExtractPc.measure, List.length_cons] <;> omega
          · simp only [ExtractPc.measure, List.length_cons]
            omega
  | route w relPath d qn path funcId rest =>
      simp only [extractStep, ExtractShared.use, ExtractPc.measure]
      omega
  | handles w relPath qn funcId routeId rest =>
      simp only [extractStep, ExtractShared.use, ExtractPc.measure]
      omega
  | stopped => exact absurd rfl hp

theorem extractMeasure_takeTurn (s : ExtractShared × (Fin threads → ExtractPc)) {t : Fin threads}
    (ht : s.2 t ≠ .stopped) :
    extractMeasure files workerCount (takeTurn (extractStep files workerCount) s t) <
      extractMeasure files workerCount s := by
  have hsum := sum_update_add ExtractPc.measure s.2 (Finset.mem_univ t)
    (extractStep files workerCount s.1 (s.2 t)).2
  have hstep := @measure_extractStep files workerCount s.1 _ ht
  rw [extractMeasure, extractMeasure, takeTurn]
  dsimp only
  omega

end Steps

theorem content_merge_owned {dst src : Gbuf} (hdst : Owned dst) (hsrc : Owned src) (qn : CStr) :
    content (cbmGbufMerge dst src) qn = (content src qn).or (content dst qn) := by
  rcases content_merge hdst.named src qn with ⟨s, hs, hname, hcontent⟩ | ⟨hno, hcontent⟩
  · have hlookup := hsrc.live s qn ((mem_foreachNode src s).mp hs).1 hname
    rw [hcontent, content, hlookup]
    rfl
  · have hnone : content src qn = none := by
      cases hlookup : src.nodeByQn.lookup qn with
      | none => rw [content, hlookup, Option.map_none]
      | some p =>
          obtain ⟨hlt, hname⟩ := hsrc.named qn p hlookup
          refine absurd hname (hno p ((mem_foreachNode src p).mpr ⟨hlt, ?_⟩))
          exact (isLive_iff src p).mpr ⟨qn, hname, p, hlookup⟩
    rw [hcontent, hnone, Option.none_or]

theorem content_merges {bs : List Gbuf} (hbs : ∀ b ∈ bs, Owned b) (qn : CStr) {g : Gbuf}
    (hg : Owned g) :
    (∃ b ∈ bs, (content b qn).isSome = true ∧
        content (bs.foldl cbmGbufMerge g) qn = content b qn) ∨
      (∀ b ∈ bs, content b qn = none) ∧ content (bs.foldl cbmGbufMerge g) qn = content g qn := by
  induction bs generalizing g with
  | nil => exact Or.inr ⟨fun b hb => absurd hb List.not_mem_nil, rfl⟩
  | cons b bs ih =>
      obtain ⟨hb, hbs⟩ := List.forall_mem_cons.mp hbs
      have hmerge := content_merge_owned hg hb qn
      rcases ih hbs (hg.merge b) with ⟨c, hc, hsome, hat⟩ | ⟨hnone, hat⟩
      · exact Or.inl ⟨c, List.mem_cons_of_mem b hc, hsome, hat⟩
      · rw [hmerge] at hat
        cases hcontent : content b qn with
        | none =>
            rw [hcontent, Option.none_or] at hat
            exact Or.inr ⟨List.forall_mem_cons.mpr ⟨hcontent, hnone⟩, hat⟩
        | some x =>
            rw [hcontent] at hat
            exact Or.inl ⟨b, List.mem_cons_self, by rw [hcontent]; rfl, hat.trans hcontent.symm⟩

/-- After the extraction a name that the files have is found with the fields of one of its
definitions, and other names as before. -/
structure Extracted (files : List SourceFile) (g g' : Gbuf) : Prop where
  named : ∀ u ∈ allNodes files, ∃ x, (u.1, x) ∈ allNodes files ∧ content g' u.1 = some x
  others : ∀ qn, (∀ x, (qn, x) ∉ allNodes files) → content g' qn = content g qn

/-- Parallel extraction ends, with the nodes of the files; and where the files agree about a
name, neither their order nor the workers, the ids or the schedule matter for it. -/
structure AnyExtraction (files : List SourceFile) (workerCount : Nat) (project : CStr) (ids : Int)
    (g : Gbuf) : Prop where
  ends : ∀ (threads : Nat) (order : List (Fin threads)),
    AllActive (extractStep files workerCount) (· = .stopped)
      (extractStart project ids, fun _ => .pool) order →
      order.length ≤ extractMeasure files workerCount
        (extractStart project ids, fun _ : Fin threads => .pool)
  result : ∃ g', CbmParallelExtract files workerCount project ids g g'
  extracted : ∀ g', CbmParallelExtract files workerCount project ids g g' → Extracted files g g'
  agrees : ∀ qn, (∀ x y, (qn, x) ∈ allNodes files → (qn, y) ∈ allNodes files → x = y) →
    ∀ files' workerCount' ids' g' g'', files'.Perm files → 0 < workerCount' →
      CbmParallelExtract files workerCount project ids g g' →
      CbmParallelExtract files' workerCount' project ids' g g'' → content g' qn = content g'' qn

theorem extracted_of_parallel {files : List SourceFile} {workerCount : Nat}
    (hworkers : 0 < workerCount) {project : CStr} {ids : Int} {g g' : Gbuf} (hg : Owned g)
    (h : CbmParallelExtract files workerCount project ids g g') : Extracted files g g' := by
  rw [CbmParallelExtract] at h
  split at h
  · next hnil =>
      subst hnil h
      exact ⟨fun u hu => absurd hu List.not_mem_nil, fun _ _ => rfl⟩
  · obtain ⟨threads, hthreads, order, hstopped, rfl⟩ := h
    have hinv := @extractInv_run files _ _ hworkers project ids order
    have hall : files.length ≤ (extractRun files workerCount project ids order).1.nextFileIdx := by
      have hpool := hinv.stopped ⟨0, hthreads⟩ (hstopped _)
      rcases hinv.started with hzero | hall | ⟨t, ht⟩
      · omega
      · exact hall
      · exact absurd (by rw [hstopped t]; rfl) ht
    have hfound : ∀ u ∈ allNodes files, ∃ w < workerCount,
        (content ((extractRun files workerCount project ids order).1.localGbuf w) u.1).isSome =
          true := by
      intro u hu
      rw [← List.take_of_length_le hall] at hu
      refine (hinv.taken u hu).resolve_right ?_
      rintro ⟨t, ht⟩
      rw [hstopped t] at ht
      exact absurd ht List.not_mem_nil
    have howned : ∀ b ∈ (List.range workerCount).map
        (extractRun files workerCount project ids order).1.localGbuf, Owned b := by
      intro b hb
      obtain ⟨w, -, rfl⟩ := List.mem_map.mp hb
      exact hinv.owned w
    refine ⟨fun u hu => ?_, fun qn hqn => ?_⟩
    · rcases content_merges howned u.1 hg with ⟨b, hb, hsome, hat⟩ | ⟨hnone, -⟩
      · obtain ⟨w, -, rfl⟩ := List.mem_map.mp hb
        obtain ⟨x, hx⟩ := Option.isSome_iff_exists.mp hsome
        exact ⟨x, hinv.only w u.1 x hx, hat.trans hx⟩
      · obtain ⟨w, hw, hsome⟩ := hfound u hu
        rw [hnone _ (List.mem_map_of_mem (List.mem_range.mpr hw))] at hsome
        simp at hsome
    · rcases content_merges howned qn hg with ⟨b, hb, hsome, -⟩ | ⟨-, hat⟩
      · obtain ⟨w, -, rfl⟩ := List.mem_map.mp hb
        obtain ⟨x, hx⟩ := Option.isSome_iff_exists.mp hsome
        exact absurd (hinv.only w qn x hx) (hqn x)
      · exact hat

theorem extract_any_schedule (files : List SourceFile) {workerCount : Nat}
    (hworkers : 0 < workerCount) (project : CStr) (ids : Int) {g : Gbuf} (hg : Owned g) :
    AnyExtraction files workerCount project ids g := by
  refine ⟨fun threads order horder => ?_, ?_, fun g' h => extracted_of_parallel hworkers hg h,
    fun qn hone files' workerCount' ids' g' g'' hperm hworkers' h h' => ?_⟩
  · exact length_le_of_measure (P := fun _ => True)
      (fun s _ _ ht => ⟨trivial, extractMeasure_takeTurn s ht⟩) trivial horder
  · by_cases hnil : files = []
    · exact ⟨g, by rw [CbmParallelExtract, if_pos hnil]⟩
    · obtain ⟨order, hstopped⟩ := @exists_all_stopped (Fin 1) _ _ _ (extractStep files workerCount)
        (fun _ => True) (· = .stopped) (extractMeasure files workerCount)
        (fun s _ _ ht => ⟨trivial, extractMeasure_takeTurn s ht⟩)
        (extractStart project ids, fun _ => .pool) trivial
      refine ⟨((List.range workerCount).map
        (extractRun files workerCount project ids order).1.localGbuf).foldl cbmGbufMerge g, ?_⟩
      rw [CbmParallelExtract, if_neg hnil]
      exact ⟨1, Nat.one_pos, order, hstopped, rfl⟩
  · have hex := extracted_of_parallel hworkers hg h
    have hex' := extracted_of_parallel hworkers' hg h'
    have hmem : ∀ u, u ∈ allNodes files' ↔ u ∈ allNodes files := fun u =>
      (hperm.flatMap_right _).mem_iff
    by_cases hqn : ∃ x, (qn, x) ∈ allNodes files
    · obtain ⟨x, hx⟩ := hqn
      obtain ⟨y, hy, hat⟩ := hex.named _ hx
      obtain ⟨z, hz, hat'⟩ := hex'.named _ ((hmem _).mpr hx)
      rw [hat, hat', hone y z hy ((hmem _).mp hz)]
    · push Not at hqn
      rw [hex.others qn hqn, hex'.others qn fun x hx => hqn x ((hmem _).mp hx)]

def handlerOf (qn : String) : Definition :=
  { name := some (bytesOf qn)
    qualifiedName := some (bytesOf qn)
    label := none
    filePath := none
    startLine := 1
    endLine := 2
    routePath := some (bytesOf "/")
    routeMethod := none
    props := [] }

theorem extract_any_schedule_routes :
    AnyExtraction [⟨bytesOf "a", some [handlerOf "a.f", handlerOf "a.g"]⟩,
      ⟨bytesOf "b", some [handlerOf "b.f"]⟩, ⟨bytesOf "c", none⟩] 2 [] 1 (cbmGbufNew [] none) :=
  extract_any_schedule _ (by decide) [] 1 (owned_new [] none)

end Pipeline
end CodebaseMemory
