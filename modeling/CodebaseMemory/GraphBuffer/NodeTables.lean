import CodebaseMemory.GraphBuffer.Gbuf

/-!
# The node tables

What each operation does to the nodes of a buffer and to the four tables over
them.  Nodes and edges do not depend on each other: the node fields are
collected in `Gbuf.nodePart`, and an operation on edges leaves it.

`Found g p` says that `cbm_gbuf_find_by_qn` finds the node `p`.  `Named` is the
invariant every run keeps: a node that is found has the name it is found by.
`Owned` says the converse as well, which every operation but
`cbm_gbuf_delete_by_label` keeps.
-/

namespace CodebaseMemory
namespace GraphBuffer

open Lib
open Sqlite (CStr bytesOf)

/-- The fields of a buffer that hold nodes. -/
structure NodePart where
  nodeCount : Nat
  nodeAt : Nat → Node
  nodeByQn : Table CStr Nat
  nodeById : Table CStr Nat
  nodesByLabel : Table CStr (List Nat)
  nodesByName : Table CStr (List Nat)

/-- The node fields of `g`. -/
def Gbuf.nodePart (g : Gbuf) : NodePart :=
  { nodeCount := g.nodeCount
    nodeAt := g.nodeAt
    nodeByQn := g.nodeByQn
    nodeById := g.nodeById
    nodesByLabel := g.nodesByLabel
    nodesByName := g.nodesByName }

section NodePart

variable {g g' : Gbuf}

theorem nodeCount_of_nodePart (h : g'.nodePart = g.nodePart) : g'.nodeCount = g.nodeCount :=
  congrArg NodePart.nodeCount h

theorem nodeAt_of_nodePart (h : g'.nodePart = g.nodePart) : g'.nodeAt = g.nodeAt :=
  congrArg NodePart.nodeAt h

theorem nodeByQn_of_nodePart (h : g'.nodePart = g.nodePart) : g'.nodeByQn = g.nodeByQn :=
  congrArg NodePart.nodeByQn h

theorem nodesByLabel_of_nodePart (h : g'.nodePart = g.nodePart) :
    g'.nodesByLabel = g.nodesByLabel :=
  congrArg NodePart.nodesByLabel h

theorem nodesByName_of_nodePart (h : g'.nodePart = g.nodePart) :
    g'.nodesByName = g.nodesByName :=
  congrArg NodePart.nodesByName h

end NodePart

@[simp] theorem nodePart_allocNextId (g : Gbuf) : (allocNextId g).2.nodePart = g.nodePart := by
  unfold allocNextId
  cases g.sharedIds <;> rfl

@[simp] theorem nodePart_cbmGbufInsertEdge (g : Gbuf) (src tgt : Int) (type : CStr)
    (properties : Option CStr) :
    (cbmGbufInsertEdge g src tgt type properties).1.nodePart = g.nodePart := by
  unfold cbmGbufInsertEdge
  cases g.edgeByKey.lookup (makeEdgeKey src tgt type) with
  | some p => rfl
  | none => exact nodePart_allocNextId g

theorem nodePart_cascadeLoop (deleted : Table CStr Unit) (ps : List Nat) :
    ∀ g : Gbuf, (cascadeLoop deleted g ps).1.nodePart = g.nodePart := by
  induction ps with
  | nil => exact fun g => rfl
  | cons p ps ih =>
      intro g
      rw [cascadeLoop]
      split
      · exact ih (unindexEdge g p)
      · exact ih g

@[simp] theorem nodePart_cascadeDeleteEdges (g : Gbuf) (deleted : Table CStr Unit) :
    (cascadeDeleteEdges g deleted).nodePart = g.nodePart :=
  nodePart_cascadeLoop deleted g.edges g

theorem nodePart_foldl {α : Type} {f : Gbuf → α → Gbuf}
    (hf : ∀ g x, (f g x).nodePart = g.nodePart) (xs : List α) :
    ∀ g : Gbuf, (xs.foldl f g).nodePart = g.nodePart := by
  induction xs with
  | nil => exact fun g => rfl
  | cons x xs ih =>
      intro g
      rw [List.foldl_cons, ih (f g x), hf g x]

@[simp] theorem nodePart_cbmGbufDeleteEdgesByType (g : Gbuf) (type : CStr) :
    (cbmGbufDeleteEdgesByType g type).nodePart = g.nodePart :=
  nodePart_foldl (f := registerEdgeInIndexes) (fun _ _ => rfl) _ _

@[simp] theorem nodePart_mergeRemapEdges (dst src : Gbuf) (remap : Table CStr Int) :
    (mergeRemapEdges dst src remap).nodePart = dst.nodePart :=
  nodePart_foldl (fun g _ => nodePart_cbmGbufInsertEdge g _ _ _ _) _ _

/-- `cbm_gbuf_find_by_qn` finds the node `p` under some name. -/
def Found (g : Gbuf) (p : Nat) : Prop :=
  ∃ qn, cbmGbufFindByQn g qn = some p

/-- A node that is found is in the array and has the name it is found by. -/
def Named (g : Gbuf) : Prop :=
  ∀ qn p, g.nodeByQn.lookup qn = some p →
    p < g.nodeCount ∧ (g.nodeAt p).qualifiedName = some qn

variable {qn : CStr}
variable {p : Nat}
variable {g : Gbuf}

theorem Named.congr {g' : Gbuf} (h : Named g) (hpart : g'.nodePart = g.nodePart) : Named g' := by
  intro qn p hp
  rw [nodeByQn_of_nodePart hpart] at hp
  rw [nodeCount_of_nodePart hpart, nodeAt_of_nodePart hpart]
  exact h qn p hp

theorem found_congr {g' : Gbuf} (hpart : g'.nodePart = g.nodePart) (p : Nat) :
    Found g' p ↔ Found g p := by
  unfold Found cbmGbufFindByQn
  rw [nodeByQn_of_nodePart hpart]

theorem Named.lt (h : Named g) (hp : Found g p) : p < g.nodeCount := by
  obtain ⟨qn, hqn⟩ := hp
  exact (h qn p hqn).1

theorem Named.lookup_eq (h : Named g) (hp : Found g p)
    (hname : (g.nodeAt p).qualifiedName = some qn) : g.nodeByQn.lookup qn = some p := by
  obtain ⟨qn', hqn'⟩ := hp
  have hname' := (h qn' p hqn').2
  rw [hname] at hname'
  rw [Option.some.inj hname']
  exact hqn'

theorem Named.ne_of_ne (h : Named g) {qn' : CStr} {p' : Nat} (hqn : qn' ≠ qn)
    (hp : g.nodeByQn.lookup qn = some p) (hp' : g.nodeByQn.lookup qn' = some p') : p' ≠ p := by
  rintro rfl
  have hname := (h qn p' hp).2
  rw [(h qn' p' hp').2] at hname
  exact hqn (Option.some.inj hname)

theorem isLive_iff (g : Gbuf) (p : Nat) :
    isLive g p = true ↔
      ∃ qn, (g.nodeAt p).qualifiedName = some qn ∧ ∃ q, g.nodeByQn.lookup qn = some q := by
  unfold isLive
  cases (g.nodeAt p).qualifiedName with
  | none => simp
  | some qn => simp [Option.isSome_iff_exists]

theorem mem_foreachNode (g : Gbuf) (p : Nat) :
    p ∈ cbmGbufForeachNode g ↔ p < g.nodeCount ∧ isLive g p = true := by
  rw [cbmGbufForeachNode, List.mem_filter, List.mem_range]

theorem Named.mem_foreachNode (h : Named g) (hp : Found g p) : p ∈ cbmGbufForeachNode g := by
  have hlt := h.lt hp
  obtain ⟨qn, hqn⟩ := hp
  rw [GraphBuffer.mem_foreachNode, isLive_iff]
  exact ⟨hlt, qn, (h qn p hqn).2, p, hqn⟩

/-- The node that is found under `qn` has the id `id`. -/
def NodeName (g : Gbuf) (id : Int) (qn : CStr) : Prop :=
  ∃ p, cbmGbufFindByQn g qn = some p ∧ (g.nodeAt p).id = id

theorem NodeName.id_eq {id id' : Int} (h : NodeName g id qn) (h' : NodeName g id' qn) :
    id = id' := by
  obtain ⟨p, hp, rfl⟩ := h
  obtain ⟨p', hp', rfl⟩ := h'
  rw [Option.some.inj (hp.symm.trans hp')]

/-- The endpoints of the edge have the names `a` and `b`; `name` says which
names an id has. -/
def Connects (name : Int → CStr → Prop) (e : Edge) (a b type : CStr) : Prop :=
  name e.sourceId a ∧ name e.targetId b ∧ e.type = type

theorem lookup_pushNode (g : Gbuf) (n : Node) (qn qn' : CStr) :
    (pushNode g n qn).nodeByQn.lookup qn' =
      if qn' = qn then some g.nodeCount else g.nodeByQn.lookup qn' := by
  by_cases hqn : qn' = qn
  · rw [if_pos hqn, hqn]
    exact AList.lookup_insert _
  · rw [if_neg hqn]
    exact AList.lookup_insert_ne hqn

theorem nodeAt_pushNode (g : Gbuf) (n : Node) (qn : CStr) (p : Nat) :
    (pushNode g n qn).nodeAt p =
      if p = g.nodeCount then { n with qualifiedName := some qn } else g.nodeAt p := by
  exact Function.update_apply g.nodeAt g.nodeCount _ p

theorem nodesByLabel_pushNode (g : Gbuf) (n : Node) (qn : CStr) :
    (pushNode g n qn).nodesByLabel = pushBucket g.nodesByLabel n.label g.nodeCount := by
  simp only [pushNode, registerNodeInIndexes, Function.update_self]

theorem nodesByName_pushNode (g : Gbuf) (n : Node) (qn : CStr) :
    (pushNode g n qn).nodesByName = pushBucket g.nodesByName n.name g.nodeCount := by
  simp only [pushNode, registerNodeInIndexes, Function.update_self]

theorem nodeAt_setNode (g : Gbuf) (p q : Nat) (n : Node) :
    (setNode g p n).nodeAt q = if q = p then n else g.nodeAt q :=
  Function.update_apply g.nodeAt p n q

theorem Named.pushNode (h : Named g) (n : Node) (qn : CStr) : Named (pushNode g n qn) := by
  intro qn' p hp
  rw [lookup_pushNode] at hp
  rw [nodeAt_pushNode]
  change p < g.nodeCount + 1 ∧ _
  by_cases hqn : qn' = qn
  · rw [if_pos hqn] at hp
    have hp' := (Option.some.inj hp).symm
    rw [if_pos hp', hqn, hp']
    exact ⟨Nat.lt_succ_self _, rfl⟩
  · rw [if_neg hqn] at hp
    obtain ⟨hlt, hname⟩ := h qn' p hp
    rw [if_neg (Nat.ne_of_lt hlt)]
    exact ⟨Nat.lt_succ_of_lt hlt, hname⟩

theorem found_pushNode (n : Node) (hnew : g.nodeByQn.lookup qn = none) (p : Nat) :
    Found (pushNode g n qn) p ↔ Found g p ∨ p = g.nodeCount := by
  unfold Found cbmGbufFindByQn
  constructor
  · rintro ⟨qn', hqn'⟩
    rw [lookup_pushNode] at hqn'
    by_cases hqn : qn' = qn
    · rw [if_pos hqn] at hqn'
      exact Or.inr (Option.some.inj hqn').symm
    · rw [if_neg hqn] at hqn'
      exact Or.inl ⟨qn', hqn'⟩
  · rintro (⟨qn', hqn'⟩ | rfl)
    · refine ⟨qn', ?_⟩
      rw [lookup_pushNode, if_neg ?_]
      · exact hqn'
      · rintro rfl
        rw [hnew] at hqn'
        exact absurd hqn' (by simp)
    · exact ⟨qn, by rw [lookup_pushNode, if_pos rfl]⟩

theorem qualifiedName_setNode (g : Gbuf) (p q : Nat) (x : NodeFields) :
    ((setNode g p ((g.nodeAt p).update x)).nodeAt q).qualifiedName =
      (g.nodeAt q).qualifiedName := by
  rw [nodeAt_setNode]
  by_cases hq : q = p
  · rw [if_pos hq, hq]
    rfl
  · rw [if_neg hq]

theorem id_setNode (g : Gbuf) (p q : Nat) (x : NodeFields) :
    ((setNode g p ((g.nodeAt p).update x)).nodeAt q).id = (g.nodeAt q).id := by
  rw [nodeAt_setNode]
  by_cases hq : q = p
  · rw [if_pos hq, hq]
    rfl
  · rw [if_neg hq]

theorem Named.setNode (h : Named g) (p : Nat) (x : NodeFields) :
    Named (setNode g p ((g.nodeAt p).update x)) := by
  intro qn q hq
  rw [qualifiedName_setNode]
  exact h qn q hq

theorem lookup_eraseQn (t : Table CStr Nat) (name : Option CStr) (qn : CStr) :
    (eraseQn t name).lookup qn = if name = some qn then none else t.lookup qn := by
  cases name with
  | none => rw [eraseQn, if_neg (by simp)]
  | some q =>
      by_cases hq : qn = q
      · rw [eraseQn, if_pos (by rw [hq]), hq, AList.lookup_erase]
      · rw [eraseQn, if_neg (fun h => hq (Option.some.inj h).symm), AList.lookup_erase_ne hq]

theorem Named.deleteNode (h : Named g) (p : Nat) : Named (deleteNode g p) := by
  intro qn q hq
  change (eraseQn g.nodeByQn (g.nodeAt p).qualifiedName).lookup qn = some q at hq
  rw [lookup_eraseQn] at hq
  by_cases hname : (g.nodeAt p).qualifiedName = some qn
  · rw [if_pos hname] at hq
    exact absurd hq (by simp)
  · rw [if_neg hname] at hq
    obtain ⟨hlt, hqn⟩ := h qn q hq
    refine ⟨hlt, ?_⟩
    have hne : q ≠ p := by
      rintro rfl
      exact hname hqn
    change (Function.update g.nodeAt p _ q).qualifiedName = some qn
    rw [Function.update_of_ne hne]
    exact hqn

theorem nodeAt_deleteNode (g : Gbuf) (p q : Nat) :
    (deleteNode g p).nodeAt q =
      if q = p then { g.nodeAt p with qualifiedName := none } else g.nodeAt q :=
  Function.update_apply g.nodeAt p _ q

theorem found_deleteNode (hnamed : Named g) (hp : Found g p) (q : Nat) :
    Found (deleteNode g p) q ↔ Found g q ∧ q ≠ p := by
  constructor
  · rintro ⟨qn, hqn⟩
    have hlookup : (eraseQn g.nodeByQn (g.nodeAt p).qualifiedName).lookup qn = some q := hqn
    rw [lookup_eraseQn] at hlookup
    by_cases hname : (g.nodeAt p).qualifiedName = some qn
    · rw [if_pos hname] at hlookup
      exact absurd hlookup (by simp)
    · rw [if_neg hname] at hlookup
      refine ⟨⟨qn, hlookup⟩, ?_⟩
      rintro rfl
      exact hname (hnamed qn q hlookup).2
  · rintro ⟨⟨qn, hqn⟩, hne⟩
    refine ⟨qn, ?_⟩
    change (eraseQn g.nodeByQn (g.nodeAt p).qualifiedName).lookup qn = some q
    rw [lookup_eraseQn, if_neg ?_]
    · exact hqn
    · intro hname
      have hlookup := hnamed.lookup_eq hp hname
      exact hne (Option.some.inj (hqn.symm.trans hlookup))

theorem lookup_deleteNode {q : Nat} (h : (deleteNode g p).nodeByQn.lookup qn = some q) :
    g.nodeByQn.lookup qn = some q := by
  change (eraseQn g.nodeByQn (g.nodeAt p).qualifiedName).lookup qn = some q at h
  rw [lookup_eraseQn] at h
  by_cases hname : (g.nodeAt p).qualifiedName = some qn
  · rw [if_pos hname] at h
    exact absurd h (by simp)
  · rwa [if_neg hname] at h

theorem deleteFileStep_cases (filePath : CStr) (st : Gbuf × Table CStr Unit) (p : Nat) :
    (deleteFileStep filePath st p = st ∧
      ¬ ((st.1.nodeAt p).filePath = filePath ∧ isLive st.1 p = true)) ∨
    (((st.1.nodeAt p).filePath = filePath ∧ isLive st.1 p = true) ∧
      deleteFileStep filePath st p =
        (deleteNode st.1 p, st.2.insert (makeIdKey (st.1.nodeAt p).id) ())) := by
  unfold deleteFileStep
  by_cases hfile : (st.1.nodeAt p).filePath = filePath
  · rw [if_neg (not_not.mpr hfile)]
    by_cases hlive : isLive st.1 p = true
    · rw [if_neg (by simp [hlive])]
      exact Or.inr ⟨⟨hfile, hlive⟩, rfl⟩
    · rw [if_pos (by simpa using hlive)]
      exact Or.inl ⟨rfl, fun h => hlive h.2⟩
  · rw [if_pos hfile]
    exact Or.inl ⟨rfl, fun h => hfile h.1⟩

section DeleteRules

variable {P : Gbuf → Prop}
variable (hcascade : ∀ {g : Gbuf} (deleted : Table CStr Unit), P g → P (cascadeDeleteEdges g deleted))

include hcascade in
theorem deleteByFile_of_loop {g : Gbuf} {filePath : CStr}
    (hloop : P ((List.range g.nodeCount).foldl (deleteFileStep filePath) (g, ∅)).1) :
    P (cbmGbufDeleteByFile g filePath) := by
  unfold cbmGbufDeleteByFile
  dsimp only
  split
  · exact hloop
  · exact hcascade _ hloop

include hcascade in
theorem deleteByFile_rule (hdelete : ∀ {g : Gbuf} (p : Nat), P g → P (deleteNode g p)) {g : Gbuf}
    (h : P g) (filePath : CStr) : P (cbmGbufDeleteByFile g filePath) := by
  have hloop : ∀ (ps : List Nat) (st : Gbuf × Table CStr Unit), P st.1 →
      P (ps.foldl (deleteFileStep filePath) st).1 := by
    intro ps
    induction ps with
    | nil => exact fun st hst => hst
    | cons p ps ih =>
        intro st hst
        rw [List.foldl_cons]
        rcases deleteFileStep_cases filePath st p with ⟨hskip, -⟩ | ⟨-, hdel⟩
        · rw [hskip]
          exact ih st hst
        · rw [hdel]
          exact ih _ (hdelete p hst)
  exact deleteByFile_of_loop hcascade (hloop (List.range g.nodeCount) (g, ∅) h)

include hcascade in
/-- What a round of its loop, a new array of a label and the cascade keep,
`cbm_gbuf_delete_by_label` keeps. -/
theorem deleteByLabel_rule
    (hround : ∀ (st : Gbuf × Table CStr Unit) (p : Nat), P st.1 → P (deleteLabelStep st p).1)
    (hbuckets : ∀ {g : Gbuf} (t : Table CStr (List Nat)), P g → P { g with nodesByLabel := t })
    {g : Gbuf} (h : P g) (label : CStr) : P (cbmGbufDeleteByLabel g label) := by
  have hloop : ∀ (ps : List Nat) (st : Gbuf × Table CStr Unit), P st.1 →
      P (ps.foldl deleteLabelStep st).1 := by
    intro ps
    induction ps with
    | nil => exact fun st hst => hst
    | cons p ps ih => exact fun st hst => ih _ (hround st p hst)
  unfold cbmGbufDeleteByLabel
  dsimp only
  split
  · exact h
  · exact hcascade _ (hbuckets _ (hloop _ (g, ∅) h))

end DeleteRules

/-- The loop of `cbm_gbuf_delete_by_label` takes the names of the listed nodes
out of `node_by_qn` and leaves the nodes as they are. -/
theorem deleteLabelStep_foldl (ps : List Nat) :
    ∀ st : Gbuf × Table CStr Unit,
      (ps.foldl deleteLabelStep st).1.nodeCount = st.1.nodeCount ∧
      (ps.foldl deleteLabelStep st).1.nodeAt = st.1.nodeAt ∧
      ∀ qn q, (ps.foldl deleteLabelStep st).1.nodeByQn.lookup qn = some q ↔
        st.1.nodeByQn.lookup qn = some q ∧
          ∀ p, p ∈ ps → (st.1.nodeAt p).qualifiedName ≠ some qn := by
  induction ps with
  | nil =>
      intro st
      exact ⟨rfl, rfl, fun qn q => by simp⟩
  | cons p ps ih =>
      intro st
      obtain ⟨hcount, hat, hlookup⟩ := ih (deleteLabelStep st p)
      have hat' : (deleteLabelStep st p).1.nodeAt = st.1.nodeAt := rfl
      have hqn' : (deleteLabelStep st p).1.nodeByQn =
        eraseQn st.1.nodeByQn (st.1.nodeAt p).qualifiedName := rfl
      refine ⟨hcount, hat, fun qn q => ?_⟩
      rw [List.foldl_cons, hlookup qn q, hat', hqn', lookup_eraseQn]
      by_cases hp : (st.1.nodeAt p).qualifiedName = some qn
      · rw [if_pos hp]
        constructor
        · rintro ⟨hnone, -⟩
          exact absurd hnone (by simp)
        · rintro ⟨-, hall⟩
          exact absurd hp (hall p List.mem_cons_self)
      · rw [if_neg hp, List.forall_mem_cons]
        constructor
        · rintro ⟨hq, hall⟩
          exact ⟨hq, hp, hall⟩
        · rintro ⟨hq, -, hall⟩
          exact ⟨hq, hall⟩

/-- `cbm_gbuf_delete_by_label` takes the names of the nodes in the bucket out of
`node_by_qn` and leaves the nodes as they are. -/
theorem deleteByLabel_nodes (g : Gbuf) (label : CStr) :
    (cbmGbufDeleteByLabel g label).nodeCount = g.nodeCount ∧
    (cbmGbufDeleteByLabel g label).nodeAt = g.nodeAt ∧
    ∀ qn q, (cbmGbufDeleteByLabel g label).nodeByQn.lookup qn = some q ↔
      g.nodeByQn.lookup qn = some q ∧
        ∀ p, p ∈ bucket g.nodesByLabel label → (g.nodeAt p).qualifiedName ≠ some qn := by
  unfold cbmGbufDeleteByLabel
  dsimp only
  split
  · next hnil => exact ⟨rfl, rfl, fun qn q => by simp [hnil]⟩
  · obtain ⟨hcount, hat, hlookup⟩ := deleteLabelStep_foldl (bucket g.nodesByLabel label) (g, ∅)
    generalize (bucket g.nodesByLabel label).foldl deleteLabelStep (g, ∅) = st
      at hcount hat hlookup ⊢
    have hpart := nodePart_cascadeDeleteEdges
      { st.1 with nodesByLabel := st.1.nodesByLabel.insert label [] } st.2
    refine ⟨(nodeCount_of_nodePart hpart).trans hcount, (nodeAt_of_nodePart hpart).trans hat,
      fun qn q => ?_⟩
    rw [nodeByQn_of_nodePart hpart]
    exact hlookup qn q

variable {g : Gbuf}

theorem Named.deleteByLabel (h : Named g) (label : CStr) :
    Named (cbmGbufDeleteByLabel g label) := by
  obtain ⟨hcount, hat, hlookup⟩ := deleteByLabel_nodes g label
  intro qn p hp
  rw [hcount, hat]
  exact h qn p ((hlookup qn p).mp hp).1

@[simp] theorem nodePart_mergeCopyNewNode (dst : Gbuf) (sn : Node) (qn : CStr) :
    (mergeCopyNewNode dst sn qn).nodePart =
      (pushNode dst (sn.fields.node sn.id) qn).nodePart := by
  unfold mergeCopyNewNode
  dsimp only
  split <;> rfl

theorem lookup_mergeCopyNewNode (dst : Gbuf) (sn : Node) (qn qn' : CStr) :
    (mergeCopyNewNode dst sn qn).nodeByQn.lookup qn' =
      if qn' = qn then some dst.nodeCount else dst.nodeByQn.lookup qn' := by
  rw [nodeByQn_of_nodePart (nodePart_mergeCopyNewNode dst sn qn)]
  exact lookup_pushNode dst _ qn qn'

theorem nodeAt_mergeCopyNewNode (dst : Gbuf) (sn : Node) (qn : CStr) (p : Nat) :
    (mergeCopyNewNode dst sn qn).nodeAt p =
      if p = dst.nodeCount then { sn with qualifiedName := some qn } else dst.nodeAt p := by
  rw [nodeAt_of_nodePart (nodePart_mergeCopyNewNode dst sn qn)]
  exact nodeAt_pushNode dst _ qn p

theorem nodeCount_mergeCopyNewNode (dst : Gbuf) (sn : Node) (qn : CStr) :
    (mergeCopyNewNode dst sn qn).nodeCount = dst.nodeCount + 1 :=
  nodeCount_of_nodePart (nodePart_mergeCopyNewNode dst sn qn)

theorem mergeNode_cases (src : Gbuf) (st : Gbuf × Table CStr Int) (s : Nat) :
    (isLive src s = false ∧ mergeNode src st s = st) ∨
    ∃ qn, (src.nodeAt s).qualifiedName = some qn ∧ isLive src s = true ∧
      ((∃ p, st.1.nodeByQn.lookup qn = some p ∧
          mergeNode src st s = mergeUpdateExisting st.1 p (src.nodeAt s) st.2) ∨
        (st.1.nodeByQn.lookup qn = none ∧
          mergeNode src st s = (mergeCopyNewNode st.1 (src.nodeAt s) qn, st.2))) := by
  unfold mergeNode isLive
  cases hqn : (src.nodeAt s).qualifiedName with
  | none => exact Or.inl ⟨rfl, rfl⟩
  | some qn =>
      cases hsrc : src.nodeByQn.lookup qn with
      | none => exact Or.inl ⟨by simp [hsrc], by simp [hsrc]⟩
      | some q =>
          refine Or.inr ⟨qn, rfl, by simp [hsrc], ?_⟩
          cases hdst : st.1.nodeByQn.lookup qn with
          | none => exact Or.inr ⟨rfl, by simp [hsrc, hdst]⟩
          | some p => exact Or.inl ⟨p, rfl, by simp [hsrc, hdst]⟩

theorem mergeLoop_rule {src : Gbuf} {P : Gbuf × Table CStr Int → Prop} {ps : List Nat}
    (hupdate : ∀ {st s qn p}, s ∈ ps → (src.nodeAt s).qualifiedName = some qn →
      isLive src s = true → st.1.nodeByQn.lookup qn = some p → P st →
      P (mergeUpdateExisting st.1 p (src.nodeAt s) st.2))
    (hcopy : ∀ {st s qn}, s ∈ ps → (src.nodeAt s).qualifiedName = some qn →
      isLive src s = true → st.1.nodeByQn.lookup qn = none → P st →
      P (mergeCopyNewNode st.1 (src.nodeAt s) qn, st.2)) {st : Gbuf × Table CStr Int}
    (h : P st) : P (ps.foldl (mergeNode src) st) := by
  induction ps generalizing st with
  | nil => exact h
  | cons s ps ih =>
      refine ih (fun hs => hupdate (List.mem_cons_of_mem _ hs))
        (fun hs => hcopy (List.mem_cons_of_mem _ hs)) ?_
      rcases mergeNode_cases src st s with
        ⟨-, hskip⟩ | ⟨qn, hqn, hlive, ⟨p, hp, heq⟩ | ⟨hnew, heq⟩⟩
      · rw [hskip]
        exact h
      · rw [heq]
        exact hupdate List.mem_cons_self hqn hlive hp h
      · rw [heq]
        exact hcopy List.mem_cons_self hqn hlive hnew h

theorem named_new (project : CStr) (shared : Option Int) : Named (cbmGbufNew project shared) :=
  fun _ _ hp => absurd hp (by simp [cbmGbufNew])

theorem Named.upsert (h : Named g) (label name : Option CStr) (qn : CStr) (filePath : Option CStr)
    (startLine endLine : Int) (properties : Option CStr) :
    Named (cbmGbufUpsertNode g label name qn filePath startLine endLine properties).1 := by
  unfold cbmGbufUpsertNode
  dsimp only
  cases g.nodeByQn.lookup qn with
  | some p => exact h.setNode p _
  | none => exact (h.congr (nodePart_allocNextId g)).pushNode _ qn

theorem Named.mergeLoop (src : Gbuf) (ps : List Nat) (st : Gbuf × Table CStr Int)
    (h : Named st.1) : Named (ps.foldl (mergeNode src) st).1 :=
  mergeLoop_rule (P := fun st => Named st.1) (fun _ _ _ _ h => h.setNode _ _)
    (fun _ _ _ _ h => (h.pushNode _ _).congr (nodePart_mergeCopyNewNode _ _ _)) h

theorem Named.step (h : Named g) (op : Op) : Named (g.step op) := by
  cases op with
  | upsert label name qn filePath startLine endLine properties =>
      exact h.upsert label name qn filePath startLine endLine properties
  | insertEdge src tgt type properties =>
      exact h.congr (nodePart_cbmGbufInsertEdge g src tgt type properties)
  | deleteEdgesByType type => exact h.congr (nodePart_cbmGbufDeleteEdgesByType g type)
  | deleteByLabel label => exact h.deleteByLabel label
  | deleteByFile filePath =>
      exact deleteByFile_rule (fun _ hg => hg.congr (nodePart_cascadeDeleteEdges _ _))
        (fun p hg => hg.deleteNode p) h filePath
  | merge src =>
      exact (Named.mergeLoop src (List.range src.nodeCount) (g, ∅) h).congr
        (nodePart_mergeRemapEdges _ _ _)
  | draw k => exact h.congr rfl

/-- A node of the array that has a name is found under it. -/
structure Owned (g : Gbuf) : Prop where
  named : Named g
  live : ∀ p qn, p < g.nodeCount → (g.nodeAt p).qualifiedName = some qn →
    g.nodeByQn.lookup qn = some p

theorem owned_new (project : CStr) (shared : Option Int) : Owned (cbmGbufNew project shared) where
  named := named_new project shared
  live := by
    intro p qn hp _
    exact absurd hp (Nat.not_lt_zero p)

theorem Owned.found (h : Owned g) {p : Nat} (hp : p ∈ cbmGbufForeachNode g) : Found g p := by
  obtain ⟨hlt, hlive⟩ := (GraphBuffer.mem_foreachNode g p).mp hp
  obtain ⟨qn, hqn, -⟩ := (isLive_iff g p).mp hlive
  exact ⟨qn, h.live p qn hlt hqn⟩

theorem Owned.congr {g' : Gbuf} (h : Owned g) (hpart : g'.nodePart = g.nodePart) : Owned g' := by
  refine ⟨h.named.congr hpart, ?_⟩
  rw [nodeCount_of_nodePart hpart, nodeAt_of_nodePart hpart, nodeByQn_of_nodePart hpart]
  exact h.live

theorem Owned.pushNode (h : Owned g) (n : Node) {qn : CStr} (hnew : g.nodeByQn.lookup qn = none) :
    Owned (pushNode g n qn) := by
  refine ⟨h.named.pushNode n qn, ?_⟩
  intro p qn' hp hname
  rw [lookup_pushNode]
  rw [nodeAt_pushNode] at hname
  by_cases hpc : p = g.nodeCount
  · rw [if_pos hpc] at hname
    rw [if_pos (Option.some.inj hname).symm, hpc]
  · rw [if_neg hpc] at hname
    have hlt : p < g.nodeCount := Nat.lt_of_le_of_ne (Nat.le_of_lt_succ hp) hpc
    have hlookup := h.live p qn' hlt hname
    rw [if_neg ?_, hlookup]
    rintro rfl
    rw [hnew] at hlookup
    exact absurd hlookup (by simp)

theorem Owned.setNode (h : Owned g) (p : Nat) (x : NodeFields) :
    Owned (setNode g p ((g.nodeAt p).update x)) := by
  refine ⟨h.named.setNode p x, ?_⟩
  intro q qn hq hqn
  rw [qualifiedName_setNode] at hqn
  exact h.live q qn hq hqn

theorem Owned.deleteNode (h : Owned g) {p : Nat} (hp : p < g.nodeCount) :
    Owned (deleteNode g p) := by
  refine ⟨h.named.deleteNode p, ?_⟩
  intro q qn hq hqn
  rw [nodeAt_deleteNode] at hqn
  by_cases hqp : q = p
  · rw [if_pos hqp] at hqn
    exact absurd hqn (by simp)
  · rw [if_neg hqp] at hqn
    have hlookup := h.live q qn hq hqn
    change (eraseQn g.nodeByQn (g.nodeAt p).qualifiedName).lookup qn = some q
    rw [lookup_eraseQn, if_neg ?_, hlookup]
    intro hname
    exact hqp (Option.some.inj (hlookup.symm.trans (h.live p qn hp hname)))

theorem Owned.upsert (h : Owned g) (label name : Option CStr) (qn : CStr) (filePath : Option CStr)
    (startLine endLine : Int) (properties : Option CStr) :
    Owned (cbmGbufUpsertNode g label name qn filePath startLine endLine properties).1 := by
  unfold cbmGbufUpsertNode
  dsimp only
  cases hlookup : g.nodeByQn.lookup qn with
  | some p => exact h.setNode p _
  | none =>
      have hpart := nodePart_allocNextId g
      exact (h.congr hpart).pushNode _ (by rw [nodeByQn_of_nodePart hpart, hlookup])

theorem nodeCount_deleteFileStep (filePath : CStr) (st : Gbuf × Table CStr Unit) (p : Nat) :
    (deleteFileStep filePath st p).1.nodeCount = st.1.nodeCount := by
  rcases deleteFileStep_cases filePath st p with ⟨hskip, -⟩ | ⟨-, hdelete⟩
  · rw [hskip]
  · rw [hdelete]
    rfl

theorem Owned.deleteFileLoop {filePath : CStr} (ps : List Nat) :
    ∀ st : Gbuf × Table CStr Unit, Owned st.1 → (∀ p, p ∈ ps → p < st.1.nodeCount) →
      Owned (ps.foldl (deleteFileStep filePath) st).1 := by
  induction ps with
  | nil => exact fun st h _ => h
  | cons p ps ih =>
      intro st h hlt
      rw [List.foldl_cons]
      refine ih _ ?_ ?_
      · rcases deleteFileStep_cases filePath st p with ⟨hskip, -⟩ | ⟨-, hdelete⟩
        · rw [hskip]
          exact h
        · rw [hdelete]
          exact h.deleteNode (hlt p List.mem_cons_self)
      · rw [nodeCount_deleteFileStep]
        exact fun q hq => hlt q (List.mem_cons_of_mem p hq)

theorem Owned.deleteByFile (h : Owned g) (filePath : CStr) :
    Owned (cbmGbufDeleteByFile g filePath) := by
  have hloop : Owned ((List.range g.nodeCount).foldl (deleteFileStep filePath) (g, ∅)).1 :=
    Owned.deleteFileLoop (List.range g.nodeCount) (g, ∅) h (fun p hp => List.mem_range.mp hp)
  exact deleteByFile_of_loop (fun _ hg => hg.congr (nodePart_cascadeDeleteEdges _ _)) hloop

theorem Owned.mergeLoop (src : Gbuf) (ps : List Nat) (st : Gbuf × Table CStr Int)
    (h : Owned st.1) : Owned (ps.foldl (mergeNode src) st).1 :=
  mergeLoop_rule (P := fun st => Owned st.1) (fun _ _ _ _ h => h.setNode _ _)
    (fun _ _ _ hnew h => (h.pushNode _ hnew).congr (nodePart_mergeCopyNewNode _ _ _)) h

theorem Owned.merge {dst : Gbuf} (h : Owned dst) (src : Gbuf) : Owned (cbmGbufMerge dst src) :=
  (Owned.mergeLoop src (List.range src.nodeCount) (dst, ∅) h).congr
    (nodePart_mergeRemapEdges _ _ _)

end GraphBuffer
end CodebaseMemory
