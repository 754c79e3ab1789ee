import CodebaseMemory.GraphBuffer.EdgeTables

/-!
# Edge queries and the cascade of node deletes

With edge types of at most 80 bytes the string keys are those of the triples
source, target and type, so the tables of `EdgeInv` answer the three queries
exactly (`EdgesExact`); this holds in every state of every run.

`cbm_gbuf_delete_by_label` and `cbm_gbuf_delete_by_file` should take the edges
of the deleted nodes with them (`NoDangling`).  They collect the ids of the
array entries they walk over, but delete by qualified name: where an entry
passes the liveness test and is not the node of its name any more, the node of
that name goes and its edges stay.
-/

namespace CodebaseMemory
namespace GraphBuffer

open Lib
open Sqlite (CStr bytesOf)

/-- The edge table and the queries are exact: no two edges of the array have
the same source, target and type; `edge_by_key` has each edge under its key and
nothing else; the queries return the edges of the array, each once. -/
structure EdgesExact (g : Gbuf) : Prop where
  distinct : g.edges.Pairwise (fun p q =>
    ((g.edgeAt p).sourceId, (g.edgeAt p).targetId, (g.edgeAt p).type) ≠
      ((g.edgeAt q).sourceId, (g.edgeAt q).targetId, (g.edgeAt q).type))
  byKey : ∀ key p, g.edgeByKey.lookup key = some p ↔
    p ∈ g.edges ∧ makeEdgeKey (g.edgeAt p).sourceId (g.edgeAt p).targetId (g.edgeAt p).type = key
  bySource : ∀ src type, (cbmGbufFindEdgesBySourceType g src type).Nodup ∧
    ∀ p, p ∈ cbmGbufFindEdgesBySourceType g src type ↔
      p ∈ g.edges ∧ (g.edgeAt p).sourceId = src ∧ (g.edgeAt p).type = type
  byTarget : ∀ tgt type, (cbmGbufFindEdgesByTargetType g tgt type).Nodup ∧
    ∀ p, p ∈ cbmGbufFindEdgesByTargetType g tgt type ↔
      p ∈ g.edges ∧ (g.edgeAt p).targetId = tgt ∧ (g.edgeAt p).type = type
  byType : ∀ type, (cbmGbufFindEdgesByType g type).Nodup ∧
    ∀ p, p ∈ cbmGbufFindEdgesByType g type ↔ p ∈ g.edges ∧ (g.edgeAt p).type = type

/-- No edge of `g'` has an endpoint that was found in `g` and is not found in
`g'`. -/
def NoDangling (g g' : Gbuf) : Prop :=
  ∀ p, Found g p → ¬ Found g' p → ∀ q, q ∈ g'.edges →
    (g'.edgeAt q).sourceId ≠ (g.nodeAt p).id ∧ (g'.edgeAt q).targetId ≠ (g.nodeAt p).id

/-- Every entry in the bucket of the label that passes the liveness test is the
node of its name. -/
def LabelOwnsNames (g : Gbuf) (label : CStr) : Prop :=
  ∀ p, p ∈ cbmGbufFindByLabel g label → isLive g p = true → Found g p

/-- Every node of the file that passes the liveness test is the node of its
name. -/
def FileOwnsNames (g : Gbuf) (filePath : CStr) : Prop :=
  ∀ p, p ∈ cbmGbufForeachNode g → (g.nodeAt p).filePath = filePath → Found g p

/-- An edge with a type of at most 80 bytes and endpoints of 64 bits. -/
structure EdgeOk (e : Edge) : Prop where
  type : e.type.length ≤ 80
  source : InI64 e.sourceId
  target : InI64 e.targetId

/-- The edges of a buffer, and the ids of its nodes, are in range. -/
structure TypedBuf (g : Gbuf) : Prop where
  edges : ∀ p, p ∈ g.edges → EdgeOk (g.edgeAt p)
  nodes : ∀ p, p < g.nodeCount → InI64 (g.nodeAt p).id

/-- The arguments are in range, and so is an id that is handed out. -/
def TypedOp (g : Gbuf) : Op → Prop
  | .upsert _ _ _ _ _ _ _ => InI64 g.idMark
  | .insertEdge src tgt type _ => InI64 src ∧ InI64 tgt ∧ type.length ≤ 80
  | .merge src => TypedBuf src
  | .deleteEdgesByType _ => True
  | .deleteByLabel _ => True
  | .deleteByFile _ => True
  | .draw _ => True

theorem typedBuf_new (project : CStr) (shared : Option Int) :
    TypedBuf (cbmGbufNew project shared) where
  edges := fun _ hp => absurd hp List.not_mem_nil
  nodes := fun p hp => absurd hp (Nat.not_lt_zero p)

variable {id : Int}
variable {g : Gbuf}

theorem TypedBuf.of_parts {ge gn : Gbuf} (he : ∀ p, p ∈ ge.edges → EdgeOk (ge.edgeAt p))
    (hn : ∀ p, p < gn.nodeCount → InI64 (gn.nodeAt p).id) (hedges : g.edges = ge.edges)
    (hat : g.edgeAt = ge.edgeAt) (hpart : g.nodePart = gn.nodePart) : TypedBuf g := by
  refine ⟨?_, ?_⟩
  · rw [hedges, hat]
    exact he
  · rw [nodeCount_of_nodePart hpart, nodeAt_of_nodePart hpart]
    exact hn

theorem TypedBuf.pushNode (h : TypedBuf g) {n : Node} (qn : CStr) (hid : InI64 n.id) :
    TypedBuf (pushNode g n qn) := by
  refine ⟨h.edges, fun p hp => ?_⟩
  rw [nodeAt_pushNode]
  by_cases hpc : p = g.nodeCount
  · rw [if_pos hpc]
    exact hid
  · rw [if_neg hpc]
    exact h.nodes p (Nat.lt_of_le_of_ne (Nat.le_of_lt_succ hp) hpc)

theorem TypedBuf.setNode (h : TypedBuf g) {p : Nat} {n : Node} (hid : n.id = (g.nodeAt p).id) :
    TypedBuf (setNode g p n) := by
  refine ⟨h.edges, fun q hq => ?_⟩
  rw [nodeAt_setNode]
  by_cases hqp : q = p
  · rw [if_pos hqp, hid, ← hqp]
    exact h.nodes q hq
  · rw [if_neg hqp]
    exact h.nodes q hq

theorem TypedBuf.deleteNode (h : TypedBuf g) (p : Nat) : TypedBuf (deleteNode g p) := by
  refine ⟨h.edges, fun q hq => ?_⟩
  rw [nodeAt_deleteNode]
  by_cases hqp : q = p
  · rw [if_pos hqp, ← hqp]
    exact h.nodes q hq
  · rw [if_neg hqp]
    exact h.nodes q hq

theorem TypedBuf.insertEdge (h : TypedBuf g) (hbound : ∀ p, p ∈ g.edges → p < g.edgeCount)
    {src tgt : Int} {type : CStr} (properties : Option CStr) (hsrc : InI64 src) (htgt : InI64 tgt)
    (htype : type.length ≤ 80) : TypedBuf (cbmGbufInsertEdge g src tgt type properties).1 := by
  have hpart := nodePart_cbmGbufInsertEdge g src tgt type properties
  refine ⟨?_, ?_⟩
  · rcases insertEdge_cases g src tgt type properties with ⟨p, -, hset⟩ | ⟨-, hadd⟩
    · rw [hset]
      intro q hq
      rw [edgeAt_setEdge]
      by_cases hqp : q = p
      · rw [if_pos hqp]
        have hp := h.edges p (hqp ▸ hq)
        exact ⟨hp.type, hp.source, hp.target⟩
      · rw [if_neg hqp]
        exact h.edges q hq
    · rw [hadd]
      intro q hq
      rw [edgeAt_addedEdge]
      rw [edges_addedEdge, List.mem_append, List.mem_singleton] at hq
      rcases hq with hq | hq
      · rw [if_neg (Nat.ne_of_lt (hbound q hq))]
        exact h.edges q hq
      · rw [if_pos hq]
        exact ⟨htype, hsrc, htgt⟩
  · rw [nodeCount_of_nodePart hpart, nodeAt_of_nodePart hpart]
    exact h.nodes

theorem TypedBuf.cascadeDeleteEdges (h : TypedBuf g) (deleted : Table CStr Unit) :
    TypedBuf (cascadeDeleteEdges g deleted) := by
  have hpart := nodePart_cascadeDeleteEdges g deleted
  refine ⟨?_, ?_⟩
  · intro p hp
    rw [edgeAt_cascadeDeleteEdges]
    exact h.edges p ((mem_cascadeDeleteEdges g deleted p).mp hp).1
  · rw [nodeCount_of_nodePart hpart, nodeAt_of_nodePart hpart]
    exact h.nodes

theorem TypedBuf.upsert (h : TypedBuf g) (label name : Option CStr) (qn : CStr)
    (filePath : Option CStr) (startLine endLine : Int) (properties : Option CStr)
    (hid : InI64 g.idMark) :
    TypedBuf (cbmGbufUpsertNode g label name qn filePath startLine endLine properties).1 := by
  unfold cbmGbufUpsertNode
  dsimp only
  cases g.nodeByQn.lookup qn with
  | some p => exact h.setNode rfl
  | none =>
      refine TypedBuf.pushNode ?_ qn hid
      exact TypedBuf.of_parts h.edges h.nodes (edges_allocNextId g) (edgeAt_allocNextId g)
        (nodePart_allocNextId g)

theorem TypedBuf.mergeCopyNewNode {dst : Gbuf} (h : TypedBuf dst) {sn : Node} (qn : CStr)
    (hid : InI64 sn.id) : TypedBuf (mergeCopyNewNode dst sn qn) := by
  have hpush := h.pushNode (n := sn.fields.node sn.id) qn hid
  unfold GraphBuffer.mergeCopyNewNode
  dsimp only
  split
  · exact ⟨hpush.edges, hpush.nodes⟩
  · exact hpush

theorem TypedBuf.mergeLoop {src : Gbuf} (hsrc : TypedBuf src) (ps : List Nat)
    (st : Gbuf × Table CStr Int) (h : TypedBuf st.1) (hnamed : Named st.1)
    (hlt : ∀ s, s ∈ ps → s < src.nodeCount)
    (hremap : ∀ key id, st.2.lookup key = some id → InI64 id) :
    TypedBuf (ps.foldl (mergeNode src) st).1 ∧
      ∀ key id, (ps.foldl (mergeNode src) st).2.lookup key = some id → InI64 id := by
  refine (mergeLoop_rule (P := fun st => Named st.1 ∧ TypedBuf st.1 ∧
    ∀ key id, st.2.lookup key = some id → InI64 id)
    (fun {st s qn p} _ _ _ hp h => ⟨h.1.setNode p _, h.2.1.setNode rfl, fun key id hid => ?_⟩)
    (fun hs _ _ _ h => ⟨(h.1.pushNode _ _).congr (nodePart_mergeCopyNewNode _ _ _),
      h.2.1.mergeCopyNewNode _ (hsrc.nodes _ (hlt _ hs)), h.2.2⟩) ⟨hnamed, h, hremap⟩).2
  have hexisting : InI64 (st.1.nodeAt p).id := h.2.1.nodes p (h.1 qn p hp).1
  unfold mergeUpdateExisting at hid
  dsimp only at hid
  split at hid
  · by_cases hkey : key = makeIdKey (src.nodeAt s).id
    · rw [hkey, AList.lookup_insert] at hid
      rw [← Option.some.inj hid]
      exact hexisting
    · rw [AList.lookup_insert_ne hkey] at hid
      exact h.2.2 key id hid
  · exact h.2.2 key id hid

theorem inI64_remapEndpoint {remap : Table CStr Int}
    (hremap : ∀ key id, remap.lookup key = some id → InI64 id) (hid : InI64 id) :
    InI64 (remapEndpoint remap id) := by
  unfold remapEndpoint
  cases hlookup : remap.lookup (makeIdKey id) with
  | none => exact hid
  | some id' => exact hremap _ id' hlookup

theorem TypedBuf.mergeRemapEdges {src : Gbuf} {remap : Table CStr Int}
    (hsrc : ∀ p, p ∈ src.edges → EdgeOk (src.edgeAt p))
    (hremap : ∀ key id, remap.lookup key = some id → InI64 id) (ps : List Nat) :
    ∀ dst : Gbuf, TypedBuf dst → EdgeInv dst → (∀ p, p ∈ ps → p ∈ src.edges) →
      TypedBuf (ps.foldl (mergeEdge src remap) dst) := by
  induction ps with
  | nil => exact fun dst h _ _ => h
  | cons p ps ih =>
      intro dst h hinv hps
      have hp := hsrc p (hps p List.mem_cons_self)
      refine ih _ ?_ (hinv.insertEdge _ _ _ _) (fun q hq => hps q (List.mem_cons_of_mem p hq))
      exact h.insertEdge hinv.bound _ (inI64_remapEndpoint hremap hp.source)
        (inI64_remapEndpoint hremap hp.target) hp.type

/-- What runs keep for `edges_exact`. -/
structure TypedInv (g : Gbuf) : Prop where
  named : Named g
  typed : TypedBuf g
  edges : EdgeInv g

theorem TypedBuf.step {op : Op} (h : TypedInv g) (hok : TypedOp g op) : TypedBuf (g.step op) := by
  have htyped := h.typed
  cases op with
  | upsert label name qn filePath startLine endLine properties =>
      exact htyped.upsert label name qn filePath startLine endLine properties hok
  | insertEdge src tgt type properties =>
      exact htyped.insertEdge h.edges.bound properties hok.1 hok.2.1 hok.2.2
  | deleteEdgesByType type =>
      have hpart := nodePart_cbmGbufDeleteEdgesByType g type
      refine ⟨fun p hp => ?_, ?_⟩
      · obtain ⟨hmem, hat⟩ := mem_deleteEdgesByType h.edges type hp
        rw [Gbuf.step, hat]
        exact htyped.edges p hmem
      · rw [Gbuf.step, nodeCount_of_nodePart hpart, nodeAt_of_nodePart hpart]
        exact htyped.nodes
  | deleteByLabel label =>
      exact deleteByLabel_rule (fun deleted hg => hg.cascadeDeleteEdges deleted)
        (fun _ _ hst => ⟨hst.edges, hst.nodes⟩) (fun _ hg => ⟨hg.edges, hg.nodes⟩) htyped label
  | deleteByFile filePath =>
      exact deleteByFile_rule (fun deleted hg => hg.cascadeDeleteEdges deleted)
        (fun p hg => hg.deleteNode p) htyped filePath
  | merge src =>
      obtain ⟨hnodes, hremap⟩ := TypedBuf.mergeLoop hok (List.range src.nodeCount) (g, ∅) htyped
        h.named (fun s hs => List.mem_range.mp hs) (fun key id hid => absurd hid (by simp))
      exact TypedBuf.mergeRemapEdges hok.edges hremap src.edges _ hnodes
        (EdgeInv.mergeLoop (List.range src.nodeCount) (g, ∅) h.edges) (fun _ hp => hp)
  | draw k => exact ⟨htyped.edges, htyped.nodes⟩

theorem typedInv_new (project : CStr) (shared : Option Int) :
    TypedInv (cbmGbufNew project shared) where
  named := named_new project shared
  typed := typedBuf_new project shared
  edges := edgeInv_new project shared

theorem TypedInv.step {op : Op} (h : TypedInv g) (hok : TypedOp g op) : TypedInv (g.step op) :=
  ⟨Named.step h.named op, TypedBuf.step h hok, h.edges.step op⟩

theorem TypedInv.exact (h : TypedInv g) : EdgesExact g := by
  have hindexed := h.edges.indexed
  have htyped := h.typed.edges
  refine ⟨?_, hindexed.byKey, ?_, ?_, hindexed.byType⟩
  · refine h.edges.nodup.imp_of_mem ?_
    intro p q hp hq hne htriple
    simp only [Prod.mk.injEq] at htriple
    refine hne (hindexed.byKey.injOn hp hq ?_)
    simp only [Edge.key, htriple]
  · intro src type
    refine ⟨(hindexed.bySource _).1, fun p => ?_⟩
    refine ((hindexed.bySource (makeSrcTypeKey src type)).2 p).trans (and_congr_right fun hp => ?_)
    constructor
    · exact srcTypeKey_inj (htyped p hp).source (htyped p hp).type
    · rintro ⟨rfl, rfl⟩
      rfl
  · intro tgt type
    refine ⟨(hindexed.byTarget _).1, fun p => ?_⟩
    refine ((hindexed.byTarget (makeSrcTypeKey tgt type)).2 p).trans (and_congr_right fun hp => ?_)
    constructor
    · exact srcTypeKey_inj (htyped p hp).target (htyped p hp).type
    · rintro ⟨rfl, rfl⟩
      rfl

theorem not_endpoint_of_cascade {deleted : Table CStr Unit} {q : Nat}
    (hq : q ∈ (cascadeDeleteEdges g deleted).edges)
    (hid : (deleted.lookup (makeIdKey id)).isSome = true) :
    ((cascadeDeleteEdges g deleted).edgeAt q).sourceId ≠ id ∧
      ((cascadeDeleteEdges g deleted).edgeAt q).targetId ≠ id := by
  rw [edgeAt_cascadeDeleteEdges]
  have hno := ((mem_cascadeDeleteEdges g deleted q).mp hq).2
  rw [touches, Bool.or_eq_false_iff] at hno
  constructor
  · rintro rfl
    rw [hid] at hno
    exact absurd hno.1 (by simp)
  · rintro rfl
    rw [hid] at hno
    exact absurd hno.2 (by simp)

theorem deleteLabelLoop_ids (ps : List Nat) :
    ∀ st : Gbuf × Table CStr Unit,
      (∀ key, (st.2.lookup key).isSome = true →
        ((ps.foldl deleteLabelStep st).2.lookup key).isSome = true) ∧
      ∀ p, p ∈ ps →
        ((ps.foldl deleteLabelStep st).2.lookup (makeIdKey (st.1.nodeAt p).id)).isSome = true := by
  induction ps with
  | nil => exact fun st => ⟨fun _ h => h, fun p hp => absurd hp List.not_mem_nil⟩
  | cons p ps ih =>
      intro st
      obtain ⟨hkeep, hids⟩ := ih (deleteLabelStep st p)
      refine ⟨fun key hkey => hkeep key (isSome_lookup_insert hkey), fun q hq => ?_⟩
      rcases List.mem_cons.mp hq with rfl | hq
      · exact hkeep _ (by simp [deleteLabelStep])
      · exact hids q hq

theorem noDangling_deleteByLabel {g : Gbuf} (hnamed : Named g) {label : CStr}
    (howns : LabelOwnsNames g label) : NoDangling g (cbmGbufDeleteByLabel g label) := by
  obtain ⟨-, -, hlookup⟩ := deleteByLabel_nodes g label
  intro p hp hgone q hq
  -- the removed node is in the bucket itself
  have hmem : p ∈ bucket g.nodesByLabel label := by
    obtain ⟨qn, hqn⟩ := hp
    by_contra hout
    refine hgone ⟨qn, (hlookup qn p).mpr ⟨hqn, fun r hr hname => ?_⟩⟩
    have hlive : isLive g r = true := (isLive_iff g r).mpr ⟨qn, hname, p, hqn⟩
    have hr' := hnamed.lookup_eq (howns r hr hlive) hname
    exact hout ((Option.some.inj (hqn.symm.trans hr')) ▸ hr)
  have hne : bucket g.nodesByLabel label ≠ [] := List.ne_nil_of_mem hmem
  have hid := (deleteLabelLoop_ids (bucket g.nodesByLabel label) (g, ∅)).2 p hmem
  unfold cbmGbufDeleteByLabel at hq ⊢
  dsimp only at hq ⊢
  rw [if_neg hne] at hq ⊢
  exact not_endpoint_of_cascade hq hid

theorem deleteFileLoop_ids (filePath : CStr) (ps : List Nat) :
    ∀ st : Gbuf × Table CStr Unit, Named st.1 →
      (∀ p, p ∈ ps → isLive st.1 p = true → (st.1.nodeAt p).filePath = filePath →
        Found st.1 p) →
      (∀ key, (st.2.lookup key).isSome = true →
        ((ps.foldl (deleteFileStep filePath) st).2.lookup key).isSome = true) ∧
      ∀ p, Found st.1 p → ¬ Found (ps.foldl (deleteFileStep filePath) st).1 p →
        ((ps.foldl (deleteFileStep filePath) st).2.lookup
          (makeIdKey (st.1.nodeAt p).id)).isSome = true := by
  induction ps with
  | nil => exact fun st _ _ => ⟨fun _ h => h, fun p hp hgone => absurd hp hgone⟩
  | cons p ps ih =>
      intro st hnamed howns
      rw [List.foldl_cons]
      rcases deleteFileStep_cases filePath st p with ⟨hskip, -⟩ | ⟨⟨hfile, hlive⟩, hdelete⟩
      · rw [hskip]
        exact ih st hnamed (fun q hq => howns q (List.mem_cons_of_mem p hq))
      · have hp : Found st.1 p := howns p List.mem_cons_self hlive hfile
        rw [hdelete]
        obtain ⟨hkeep, hids⟩ := ih
          (deleteNode st.1 p, st.2.insert (makeIdKey (st.1.nodeAt p).id) ())
          (hnamed.deleteNode p) (by
            intro q hq hqlive hqfile
            obtain ⟨qn, hname, r, hr⟩ := (isLive_iff _ q).mp hqlive
            dsimp only at hname hr hqfile
            rw [nodeAt_deleteNode] at hname hqfile
            by_cases hqp : q = p
            · rw [if_pos hqp] at hname
              exact absurd hname (by simp)
            · rw [if_neg hqp] at hname hqfile
              have hqlive' : isLive st.1 q = true :=
                (isLive_iff st.1 q).mpr ⟨qn, hname, r, lookup_deleteNode hr⟩
              exact (found_deleteNode hnamed hp q).mpr
                ⟨howns q (List.mem_cons_of_mem p hq) hqlive' hqfile, hqp⟩)
        refine ⟨fun key hkey => hkeep key (isSome_lookup_insert hkey), fun q hq hgone => ?_⟩
        by_cases hqp : q = p
        · rw [hqp]
          exact hkeep _ (by simp)
        · have hq' := hids q ((found_deleteNode hnamed hp q).mpr ⟨hq, hqp⟩) hgone
          dsimp only at hq'
          rwa [nodeAt_deleteNode, if_neg hqp] at hq'

theorem noDangling_deleteByFile (hnamed : Named g) {filePath : CStr}
    (howns : FileOwnsNames g filePath) : NoDangling g (cbmGbufDeleteByFile g filePath) := by
  obtain ⟨-, hids⟩ := deleteFileLoop_ids filePath (List.range g.nodeCount) (g, ∅) hnamed (by
    intro p hp hlive hfile
    exact howns p ((mem_foreachNode g p).mpr ⟨List.mem_range.mp hp, hlive⟩) hfile)
  intro p hp hgone q hq
  unfold cbmGbufDeleteByFile at hgone hq ⊢
  dsimp only at hgone hq hids ⊢
  generalize (List.range g.nodeCount).foldl (deleteFileStep filePath) (g, ∅) = st
    at hids hgone hq ⊢
  by_cases hempty : st.2.keys = []
  · -- nothing was collected, so nothing was removed
    rw [if_pos hempty] at hgone
    have hid := hids p hp hgone
    have hmem := AList.mem_keys.mp (AList.lookup_isSome.mp hid)
    rw [hempty] at hmem
    exact absurd hmem List.not_mem_nil
  · rw [if_neg hempty] at hgone hq ⊢
    have hgone' : ¬ Found st.1 p := fun hfound =>
      hgone ((found_congr (nodePart_cascadeDeleteEdges st.1 st.2) p).mpr hfound)
    exact not_endpoint_of_cascade hq (hids p hp hgone')

/-- In every state of every run, the edge tables and the queries are exact.  A
delete by label or by file from such a state leaves no edge with a removed
endpoint, provided that every array entry it takes for live is the node of its
name. -/
theorem edges_exact {g : Gbuf} (h : Reachable TypedOp g) :
    EdgesExact g ∧
      (∀ label, LabelOwnsNames g label → NoDangling g (cbmGbufDeleteByLabel g label)) ∧
      (∀ filePath, FileOwnsNames g filePath → NoDangling g (cbmGbufDeleteByFile g filePath)) := by
  have hinv : TypedInv g := h.invariant typedInv_new (fun _ _ => TypedInv.step)
  exact ⟨hinv.exact, fun _ => noDangling_deleteByLabel hinv.named,
    fun _ => noDangling_deleteByFile hinv.named⟩

/-- An upsert of the class `q` of the file `f`. -/
def upsertTwin : Op :=
  .upsert (some (bytesOf "Class")) (some (bytesOf "A")) (bytesOf "q") (some (bytesOf "f")) 1 2 none

/-- A buffer with this class only; it has the id `id`. -/
def twin (id : Int) : Gbuf :=
  (cbmGbufNew [] (some id)).step upsertTwin

/-- The class is merged, and calls itself. -/
def merged : Gbuf :=
  ((cbmGbufNew [] none).step (.merge (twin 1))).step (.insertEdge 1 1 (bytesOf "CALLS") none)

/-- The class is merged, deleted by label, merged again with another id, and
calls itself. -/
def twins : Gbuf :=
  ((((cbmGbufNew [] none).step (.merge (twin 1))).step (.deleteByLabel (bytesOf "Class"))).step
    (.merge (twin 2))).step (.insertEdge 2 2 (bytesOf "CALLS") none)

theorem typedBuf_twin (hid : InI64 id) : TypedBuf (twin id) :=
  TypedBuf.step (typedInv_new [] (some id)) hid

theorem typedOp_calls (g : Gbuf) (hid : InI64 id) :
    TypedOp g (.insertEdge id id (bytesOf "CALLS") none) :=
  ⟨hid, hid, by decide⟩

theorem reachable_merged : Reachable TypedOp merged :=
  Reachable.step (Reachable.step ⟨[], none, Run.refl⟩ (typedBuf_twin (by decide)))
    (typedOp_calls _ (by decide))

theorem edgesExact_merged : Reachable TypedOp merged ∧ EdgesExact merged ∧
    NoDangling merged (cbmGbufDeleteByFile merged (bytesOf "f")) := by
  obtain ⟨hexact, -, hfile⟩ := edges_exact reachable_merged
  refine ⟨reachable_merged, hexact, hfile _ ?_⟩
  intro p hp _
  have hone : p < 1 := ((mem_foreachNode merged p).mp hp).1
  have hzero : p = 0 := Nat.lt_one_iff.mp hone
  subst hzero
  exact ⟨bytesOf "q", by decide +kernel⟩

/-- The delete by file walks over the dead twin and removes the live one, whose
call stays. -/
theorem not_noDangling_twins : Reachable TypedOp twins ∧
    ¬ NoDangling twins (cbmGbufDeleteByFile twins (bytesOf "f")) := by
  refine ⟨Reachable.step (Reachable.step (Reachable.step (Reachable.step ⟨[], none, Run.refl⟩
    (typedBuf_twin (by decide))) trivial) (typedBuf_twin (by decide)))
    (typedOp_calls _ (by decide)), ?_⟩
  intro h
  have hfound : Found twins 1 := ⟨bytesOf "q", by decide +kernel⟩
  have hgone : ¬ Found (cbmGbufDeleteByFile twins (bytesOf "f")) 1 := by
    rintro ⟨qn, hqn⟩
    have hkeys : (cbmGbufDeleteByFile twins (bytesOf "f")).nodeByQn.keys = [] := by decide +kernel
    have hmem := AList.mem_keys.mp (AList.lookup_isSome.mp (Option.isSome_of_eq_some hqn))
    rw [hkeys] at hmem
    exact absurd hmem List.not_mem_nil
  have hedge := (h 1 hfound hgone 0 (by decide +kernel)).1
  exact hedge (by decide +kernel)

end GraphBuffer
end CodebaseMemory
