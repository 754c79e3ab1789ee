import CodebaseMemory.GraphBuffer.EdgeProps

/-!
# Edges between nodes that are found

A buffer is *closed* if both endpoints of every edge are ids of nodes that are
found.  Creating and updating nodes keeps nodes under their names and ids
(`KeepsNodes`), and so keeps a buffer closed; a delete by file does, because of
the cascade.
-/

namespace CodebaseMemory
namespace GraphBuffer

open Lib
open Sqlite (CStr bytesOf)

/-- Both endpoints of every edge have names. -/
def Closed (g : Gbuf) : Prop :=
  ∀ p, p ∈ g.edges → ∃ a b, Connects (NodeName g) (g.edgeAt p) a b (g.edgeAt p).type

/-- Every node that is found in `g` is found in `g'` under the same name and has
the same id. -/
def KeepsNodes (g g' : Gbuf) : Prop :=
  ∀ qn p, g.nodeByQn.lookup qn = some p →
    g'.nodeByQn.lookup qn = some p ∧ (g'.nodeAt p).id = (g.nodeAt p).id

theorem KeepsNodes.refl (g : Gbuf) : KeepsNodes g g :=
  fun _ _ hp => ⟨hp, rfl⟩

variable {qn : CStr}
variable {g g' : Gbuf}

theorem KeepsNodes.trans {g'' : Gbuf} (h : KeepsNodes g g') (h' : KeepsNodes g' g'') :
    KeepsNodes g g'' := by
  intro qn p hp
  obtain ⟨hp', hid⟩ := h qn p hp
  obtain ⟨hp'', hid'⟩ := h' qn p hp'
  exact ⟨hp'', hid'.trans hid⟩

theorem keepsNodes_of_nodePart (hpart : g'.nodePart = g.nodePart) : KeepsNodes g g' := by
  intro qn p hp
  rw [nodeByQn_of_nodePart hpart, nodeAt_of_nodePart hpart]
  exact ⟨hp, rfl⟩

theorem KeepsNodes.nodeName (h : KeepsNodes g g') {id : Int} (hname : NodeName g id qn) :
    NodeName g' id qn := by
  obtain ⟨p, hp, rfl⟩ := hname
  exact ⟨p, h qn p hp⟩

theorem keepsNodes_setNode (g : Gbuf) (p : Nat) (x : NodeFields) :
    KeepsNodes g (setNode g p ((g.nodeAt p).update x)) :=
  fun _ q hq => ⟨hq, id_setNode g p q x⟩

theorem keepsNodes_pushNode (hnamed : Named g) (n : Node) (hnew : g.nodeByQn.lookup qn = none) :
    KeepsNodes g (pushNode g n qn) := by
  intro qn' p hp
  have hne : qn' ≠ qn := by
    rintro rfl
    rw [hnew] at hp
    exact absurd hp (by simp)
  rw [lookup_pushNode, if_neg hne, nodeAt_pushNode, if_neg (Nat.ne_of_lt (hnamed qn' p hp).1)]
  exact ⟨hp, rfl⟩

theorem keepsNodes_upsert (hnamed : Named g) (label name : Option CStr) (qn : CStr)
    (filePath : Option CStr) (startLine endLine : Int) (properties : Option CStr) :
    KeepsNodes g (cbmGbufUpsertNode g label name qn filePath startLine endLine properties).1 := by
  unfold cbmGbufUpsertNode
  dsimp only
  cases hlookup : g.nodeByQn.lookup qn with
  | some p => exact keepsNodes_setNode g p _
  | none =>
      have hpart := nodePart_allocNextId g
      refine (keepsNodes_of_nodePart hpart).trans (keepsNodes_pushNode (hnamed.congr hpart) _ ?_)
      rw [nodeByQn_of_nodePart hpart, hlookup]

theorem keepsNodes_mergeLoop (src : Gbuf) (ps : List Nat) (st : Gbuf × Table CStr Int)
    (hnamed : Named st.1) : KeepsNodes st.1 (ps.foldl (mergeNode src) st).1 := by
  refine (mergeLoop_rule (P := fun st' => Named st'.1 ∧ KeepsNodes st.1 st'.1)
    (fun _ _ _ _ h => ⟨h.1.setNode _ _, h.2.trans (keepsNodes_setNode _ _ _)⟩)
    (fun {st s qn} _ _ _ hnew h => ?_) ⟨hnamed, KeepsNodes.refl st.1⟩).2
  have hpart := nodePart_mergeCopyNewNode st.1 (src.nodeAt s) qn
  exact ⟨(h.1.pushNode _ qn).congr hpart,
    h.2.trans ((keepsNodes_pushNode h.1 _ hnew).trans (keepsNodes_of_nodePart hpart))⟩

theorem keepsNodes_merge {dst : Gbuf} (hnamed : Named dst) (src : Gbuf) :
    KeepsNodes dst (cbmGbufMerge dst src) :=
  (keepsNodes_mergeLoop src (List.range src.nodeCount) (dst, ∅) hnamed).trans
    (keepsNodes_of_nodePart (nodePart_mergeRemapEdges _ _ _))

theorem closed_new (project : CStr) (shared : Option Int) : Closed (cbmGbufNew project shared) :=
  fun _ hp => absurd hp List.not_mem_nil

theorem Closed.keepsNodes (h : Closed g) (hkeeps : KeepsNodes g g')
    (hpart : g'.edgePart = g.edgePart) : Closed g' := by
  have hedges : g'.edges = g.edges := congrArg EdgePart.edges hpart
  have hat : g'.edgeAt = g.edgeAt := congrArg EdgePart.edgeAt hpart
  intro p hp
  rw [hedges] at hp
  rw [hat]
  obtain ⟨a, b, ha, hb, htype⟩ := h p hp
  exact ⟨a, b, hkeeps.nodeName ha, hkeeps.nodeName hb, htype⟩

theorem edgePart_upsert (g : Gbuf) (label name : Option CStr) (qn : CStr)
    (filePath : Option CStr) (startLine endLine : Int) (properties : Option CStr) :
    (cbmGbufUpsertNode g label name qn filePath startLine endLine properties).1.edgePart =
      g.edgePart := by
  unfold cbmGbufUpsertNode
  dsimp only
  cases g.nodeByQn.lookup qn with
  | some p => rfl
  | none => exact edgePart_allocNextId g

theorem Closed.upsert (h : Closed g) (hnamed : Named g) (label name : Option CStr) (qn : CStr)
    (filePath : Option CStr) (startLine endLine : Int) (properties : Option CStr) :
    Closed (cbmGbufUpsertNode g label name qn filePath startLine endLine properties).1 :=
  h.keepsNodes (keepsNodes_upsert hnamed label name qn filePath startLine endLine properties)
    (edgePart_upsert g label name qn filePath startLine endLine properties)

theorem Closed.insertEdge (h : Closed g) (hkey : KeyInv g) {src tgt : Int} {a b : CStr}
    (type : CStr) (properties : Option CStr) (hsrc : NodeName g src a) (htgt : NodeName g tgt b) :
    Closed (cbmGbufInsertEdge g src tgt type properties).1 := by
  have hname : ∀ id qn, NodeName g id qn →
      NodeName (cbmGbufInsertEdge g src tgt type properties).1 id qn := fun _ _ =>
    (keepsNodes_of_nodePart (nodePart_cbmGbufInsertEdge g src tgt type properties)).nodeName
  intro p hp
  rcases insertEdge_cases g src tgt type properties with ⟨q, -, hset⟩ | ⟨-, hadd⟩
  · rw [hset] at hp hname ⊢
    obtain ⟨a', b', ha, hb, -⟩ := h p hp
    refine ⟨a', b', ?_, ?_, rfl⟩
    · rw [edgeField_setEdge Edge.sourceId (fun _ _ => rfl)]
      exact hname _ _ ha
    · rw [edgeField_setEdge Edge.targetId (fun _ _ => rfl)]
      exact hname _ _ hb
  · rw [hadd] at hp hname ⊢
    rw [edges_addedEdge, List.mem_append, List.mem_singleton] at hp
    rw [edgeAt_addedEdge]
    rcases hp with hp | hp
    · rw [if_neg (Nat.ne_of_lt (hkey.bound p hp))]
      obtain ⟨a', b', ha, hb, -⟩ := h p hp
      exact ⟨a', b', hname _ _ ha, hname _ _ hb, rfl⟩
    · rw [if_pos hp]
      exact ⟨a, b, hname _ _ hsrc, hname _ _ htgt, rfl⟩

/-- What is found after the loop of `cbm_gbuf_delete_by_file` was found before,
and is unchanged. -/
theorem lookup_deleteFileLoop (filePath : CStr) (ps : List Nat) :
    ∀ st : Gbuf × Table CStr Unit, Named st.1 →
      ∀ qn p, (ps.foldl (deleteFileStep filePath) st).1.nodeByQn.lookup qn = some p →
        st.1.nodeByQn.lookup qn = some p ∧
          (ps.foldl (deleteFileStep filePath) st).1.nodeAt p = st.1.nodeAt p := by
  induction ps with
  | nil => exact fun st _ _ _ hp => ⟨hp, rfl⟩
  | cons r ps ih =>
      intro st hnamed qn p hp
      rw [List.foldl_cons] at hp ⊢
      rcases deleteFileStep_cases filePath st r with ⟨hskip, -⟩ | ⟨-, hdelete⟩
      · rw [hskip] at hp ⊢
        exact ih st hnamed qn p hp
      · rw [hdelete] at hp ⊢
        obtain ⟨hlookup, hat⟩ := ih _ (hnamed.deleteNode r) qn p hp
        refine ⟨lookup_deleteNode hlookup, hat.trans ?_⟩
        have hname := (hnamed.deleteNode r qn p hlookup).2
        rw [nodeAt_deleteNode] at hname ⊢
        by_cases hpr : p = r
        · rw [if_pos hpr] at hname
          exact absurd hname (by simp)
        · rw [if_neg hpr]

theorem filePath_ne_of_deleteFileLoop (filePath : CStr) (ps : List Nat) :
    ∀ st : Gbuf × Table CStr Unit, Named st.1 → ∀ p, p ∈ ps →
      Found (ps.foldl (deleteFileStep filePath) st).1 p → (st.1.nodeAt p).filePath ≠ filePath := by
  induction ps with
  | nil => exact fun st _ p hp => absurd hp List.not_mem_nil
  | cons r ps ih =>
      intro st hnamed p hp hfound hfile
      rw [List.foldl_cons] at hfound
      rcases deleteFileStep_cases filePath st r with ⟨hskip, hno⟩ | ⟨-, hdelete⟩
      · rw [hskip] at hfound
        rcases List.mem_cons.mp hp with rfl | hp
        · obtain ⟨qn, hqn⟩ := hfound
          have hlookup := (lookup_deleteFileLoop filePath ps st hnamed qn p hqn).1
          refine hno ⟨hfile, (isLive_iff st.1 p).mpr ⟨qn, (hnamed qn p hlookup).2, p, hlookup⟩⟩
        · exact ih st hnamed p hp hfound hfile
      · rw [hdelete] at hfound
        obtain ⟨qn, hqn⟩ := hfound
        have hlookup := (lookup_deleteFileLoop filePath ps _ (hnamed.deleteNode r) qn p hqn).1
        have hname := (hnamed.deleteNode r qn p hlookup).2
        rw [nodeAt_deleteNode] at hname
        by_cases hpr : p = r
        · rw [if_pos hpr] at hname
          exact absurd hname (by simp)
        · rcases List.mem_cons.mp hp with rfl | hp
          · exact hpr rfl
          · refine ih _ (hnamed.deleteNode r) p hp ⟨qn, hqn⟩ ?_
            rw [nodeAt_deleteNode, if_neg hpr]
            exact hfile

theorem nodePart_deleteByFile (g : Gbuf) (filePath : CStr) :
    (cbmGbufDeleteByFile g filePath).nodePart =
      ((List.range g.nodeCount).foldl (deleteFileStep filePath) (g, ∅)).1.nodePart := by
  unfold cbmGbufDeleteByFile
  dsimp only
  split
  · rfl
  · exact nodePart_cascadeDeleteEdges _ _

theorem lookup_deleteByFile (hnamed : Named g) {filePath : CStr} {p : Nat}
    (hp : (cbmGbufDeleteByFile g filePath).nodeByQn.lookup qn = some p) :
    g.nodeByQn.lookup qn = some p ∧ (cbmGbufDeleteByFile g filePath).nodeAt p = g.nodeAt p := by
  have hpart := nodePart_deleteByFile g filePath
  rw [nodeByQn_of_nodePart hpart] at hp
  rw [nodeAt_of_nodePart hpart]
  exact lookup_deleteFileLoop filePath (List.range g.nodeCount) (g, ∅) hnamed qn p hp

theorem filePath_ne_of_deleteByFile (hnamed : Named g) {filePath : CStr} {p : Nat}
    (hp : (cbmGbufDeleteByFile g filePath).nodeByQn.lookup qn = some p) :
    (g.nodeAt p).filePath ≠ filePath := by
  have hlt := (hnamed qn p (lookup_deleteByFile hnamed hp).1).1
  have hpart := nodePart_deleteByFile g filePath
  refine filePath_ne_of_deleteFileLoop filePath (List.range g.nodeCount) (g, ∅) hnamed p
    (List.mem_range.mpr hlt) ?_
  exact (found_congr hpart p).mp ⟨qn, hp⟩

theorem edges_deleteByFile (filePath : CStr) {q : Nat}
    (hq : q ∈ (cbmGbufDeleteByFile g filePath).edges) :
    q ∈ g.edges ∧ (cbmGbufDeleteByFile g filePath).edgeAt q = g.edgeAt q := by
  have hpart := edgePart_deleteFileLoop filePath (List.range g.nodeCount) (g, ∅)
  have hedges : ((List.range g.nodeCount).foldl (deleteFileStep filePath) (g, ∅)).1.edges =
    g.edges := congrArg EdgePart.edges hpart
  have hat : ((List.range g.nodeCount).foldl (deleteFileStep filePath) (g, ∅)).1.edgeAt =
    g.edgeAt := congrArg EdgePart.edgeAt hpart
  unfold cbmGbufDeleteByFile at hq ⊢
  dsimp only at hq ⊢
  split at hq
  · next hnone =>
      rw [if_pos hnone, hat]
      rw [hedges] at hq
      exact ⟨hq, rfl⟩
  · next hsome =>
      rw [if_neg hsome, edgeAt_cascadeDeleteEdges, hat]
      have hmem := ((mem_cascadeDeleteEdges _ _ q).mp hq).1
      rw [hedges] at hmem
      exact ⟨hmem, rfl⟩

theorem Closed.deleteByFile (h : Closed g) (howned : Owned g) (filePath : CStr) :
    Closed (cbmGbufDeleteByFile g filePath) := by
  have hnamed := howned.named
  have hdangling : NoDangling g (cbmGbufDeleteByFile g filePath) :=
    noDangling_deleteByFile hnamed (fun p hp _ => howned.found hp)
  intro q hq
  obtain ⟨hmem, hat⟩ := edges_deleteByFile filePath hq
  obtain ⟨a, b, ⟨p, hp, hsource⟩, ⟨r, hr, htarget⟩, -⟩ := h q hmem
  -- an endpoint that was removed would have taken the edge with it
  have hkept : ∀ s qn, g.nodeByQn.lookup qn = some s →
      (Found (cbmGbufDeleteByFile g filePath) s ∨
        ((cbmGbufDeleteByFile g filePath).edgeAt q).sourceId ≠ (g.nodeAt s).id ∧
        ((cbmGbufDeleteByFile g filePath).edgeAt q).targetId ≠ (g.nodeAt s).id) := by
    intro s qn hs
    by_cases hfound : Found (cbmGbufDeleteByFile g filePath) s
    · exact Or.inl hfound
    · exact Or.inr (hdangling s ⟨qn, hs⟩ hfound q hq)
  have hname : ∀ s qn, g.nodeByQn.lookup qn = some s →
      Found (cbmGbufDeleteByFile g filePath) s →
      NodeName (cbmGbufDeleteByFile g filePath) (g.nodeAt s).id qn := by
    rintro s qn hs ⟨qn', hs'⟩
    obtain ⟨hlookup, hnode⟩ := lookup_deleteByFile hnamed hs'
    have hqn := (hnamed qn' s hlookup).2
    rw [(hnamed qn s hs).2] at hqn
    obtain rfl : qn = qn' := Option.some.inj hqn
    exact ⟨s, hs', by rw [hnode]⟩
  rw [hat] at hkept ⊢
  refine ⟨a, b, ?_, ?_, rfl⟩
  · rcases hkept p a hp with hfound | ⟨hne, -⟩
    · rw [← hsource]
      exact hname p a hp hfound
    · exact absurd hsource.symm hne
  · rcases hkept r b hr with hfound | ⟨-, hne⟩
    · rw [← htarget]
      exact hname r b hr hfound
    · exact absurd htarget.symm hne

end GraphBuffer
end CodebaseMemory
