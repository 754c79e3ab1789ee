import CodebaseMemory.GraphBuffer.Dump

/-!
# Liveness of nodes

A node of the array counts as live if its qualified name is not NULL and in
`node_by_qn`.  `cbm_gbuf_delete_by_file` sets the name to NULL;
`cbm_gbuf_delete_by_label` does not, so a node it has deleted is live again as
soon as a node with the same name is created.  `Ghost g qn` says that such a
dead node is waiting for `qn`.
-/

namespace CodebaseMemory
namespace GraphBuffer

open Lib
open Sqlite (CStr bytesOf DumpNode)

/-- The nodes visited and dumped are the values of `node_by_qn`: as many as
`cbm_gbuf_node_count` says, no two with one name. -/
structure EmittedExact (g : Gbuf) : Prop where
  visited : ∀ p, p ∈ cbmGbufForeachNode g ↔ Found g p
  dumped : ∀ maxTempId p, p ∈ (buildDumpNodes g maxTempId).src ↔ Found g p
  count : (cbmGbufForeachNode g).length = cbmGbufNodeCount g
  rows : ∀ maxTempId, (buildDumpNodes g maxTempId).rows.length = cbmGbufNodeCount g
  distinct : ∀ maxTempId,
    ((buildDumpNodes g maxTempId).rows.map DumpNode.qualifiedName).Nodup

/-- A dead node of the array still has the name `qn`. -/
def Ghost (g : Gbuf) (qn : CStr) : Prop :=
  g.nodeByQn.lookup qn = none ∧
    ∃ p, p < g.nodeCount ∧ (g.nodeAt p).qualifiedName = some qn

/-- The operation creates no node under the name of a dead one. -/
def NoRevival (g : Gbuf) : Op → Prop
  | .upsert _ _ qn _ _ _ _ => ¬ Ghost g qn
  | .merge src =>
      ∀ s qn, s ∈ cbmGbufForeachNode src → (src.nodeAt s).qualifiedName = some qn → ¬ Ghost g qn
  | .insertEdge _ _ _ _ => True
  | .deleteEdgesByType _ => True
  | .deleteByLabel _ => True
  | .deleteByFile _ => True
  | .draw _ => True

/-- The invariant: a name in use belongs to one node of the array. -/
structure LiveInv (g : Gbuf) : Prop where
  named : Named g
  unique : ∀ p q qn, p < g.nodeCount → (g.nodeAt p).qualifiedName = some qn →
    g.nodeByQn.lookup qn = some q → q = p

variable {qn : CStr}
variable {g g' : Gbuf}

theorem LiveInv.found_iff (h : LiveInv g) (p : Nat) : p ∈ cbmGbufForeachNode g ↔ Found g p := by
  constructor
  · intro hp
    obtain ⟨hlt, hlive⟩ := (mem_foreachNode g p).mp hp
    obtain ⟨qn, hqn, q, hq⟩ := (isLive_iff g p).mp hlive
    obtain rfl := h.unique p q qn hlt hqn hq
    exact ⟨qn, hq⟩
  · exact h.named.mem_foreachNode

theorem nodup_foreachNode (g : Gbuf) : (cbmGbufForeachNode g).Nodup :=
  List.nodup_range.filter _

theorem LiveInv.names_perm (h : LiveInv g) :
    ((cbmGbufForeachNode g).map (fun p => (g.nodeAt p).qualifiedName)).Perm
      (g.nodeByQn.keys.map some) := by
  have hleft : ((cbmGbufForeachNode g).map (fun p => (g.nodeAt p).qualifiedName)).Nodup := by
    refine (nodup_foreachNode g).map_on ?_
    intro p hp q hq hname
    obtain ⟨qn, hqn⟩ := (h.found_iff p).mp hp
    have hq' := h.named.lookup_eq ((h.found_iff q).mp hq)
      (hname.symm.trans (h.named qn p hqn).2)
    exact Option.some.inj (hqn.symm.trans hq')
  have hright : (g.nodeByQn.keys.map some).Nodup :=
    g.nodeByQn.keys_nodup.map (Option.some_injective _)
  rw [List.perm_ext_iff_of_nodup hleft hright]
  intro name
  constructor
  · intro hname
    obtain ⟨p, hp, rfl⟩ := List.mem_map.mp hname
    obtain ⟨qn, hqn⟩ := (h.found_iff p).mp hp
    have hsome : (g.nodeByQn.lookup qn).isSome = true := Option.isSome_of_eq_some hqn
    rw [(h.named qn p hqn).2]
    exact List.mem_map_of_mem (AList.mem_keys.mp (AList.lookup_isSome.mp hsome))
  · intro hname
    obtain ⟨qn, hqn, rfl⟩ := List.mem_map.mp hname
    obtain ⟨p, hp⟩ := Option.isSome_iff_exists.mp (AList.lookup_isSome.mpr (AList.mem_keys.mpr hqn))
    rw [← (h.named qn p hp).2]
    exact List.mem_map_of_mem ((h.found_iff p).mpr ⟨qn, hp⟩)

theorem LiveInv.exact (h : LiveInv g) : EmittedExact g := by
  have hlen : (cbmGbufForeachNode g).length = cbmGbufNodeCount g := by
    have hperm := h.names_perm.length_eq
    rwa [List.length_map, List.length_map] at hperm
  refine ⟨h.found_iff, ?_, hlen, ?_, ?_⟩
  · intro maxTempId p
    rw [src_buildDumpNodes]
    exact h.found_iff p
  · intro maxTempId
    have hnames := congrArg List.length (names_buildDumpNodes g maxTempId)
    rw [List.length_map, List.length_map] at hnames
    exact hnames.trans hlen
  · intro maxTempId
    rw [names_buildDumpNodes]
    exact h.names_perm.nodup_iff.mpr (g.nodeByQn.keys_nodup.map (Option.some_injective _))

theorem liveInv_new (project : CStr) (shared : Option Int) :
    LiveInv (cbmGbufNew project shared) where
  named := named_new project shared
  unique := by
    intro p q qn hp
    exact absurd hp (Nat.not_lt_zero p)

theorem LiveInv.congr (h : LiveInv g) (hpart : g'.nodePart = g.nodePart) : LiveInv g' := by
  refine ⟨h.named.congr hpart, ?_⟩
  rw [nodeCount_of_nodePart hpart, nodeAt_of_nodePart hpart, nodeByQn_of_nodePart hpart]
  exact h.unique

theorem LiveInv.pushNode (h : LiveInv g) (n : Node)
    (hghost : ∀ p, p < g.nodeCount → (g.nodeAt p).qualifiedName ≠ some qn) :
    LiveInv (pushNode g n qn) := by
  refine ⟨h.named.pushNode n qn, ?_⟩
  intro p q qn' hp hname hq
  rw [nodeAt_pushNode] at hname
  rw [lookup_pushNode] at hq
  by_cases hpc : p = g.nodeCount
  · rw [if_pos hpc] at hname
    rw [if_pos (Option.some.inj hname).symm] at hq
    rw [hpc, Option.some.inj hq]
  · rw [if_neg hpc] at hname
    have hlt : p < g.nodeCount := Nat.lt_of_le_of_ne (Nat.le_of_lt_succ hp) hpc
    have hne : qn' ≠ qn := by
      rintro rfl
      exact hghost p hlt hname
    rw [if_neg hne] at hq
    exact h.unique p q qn' hlt hname hq

theorem LiveInv.setNode (h : LiveInv g) (p : Nat) (x : NodeFields) :
    LiveInv (setNode g p ((g.nodeAt p).update x)) := by
  refine ⟨h.named.setNode p x, ?_⟩
  intro q r qn hq hname hr
  rw [qualifiedName_setNode] at hname
  exact h.unique q r qn hq hname hr

theorem LiveInv.shrink (h : LiveInv g) (hnamed : Named g') (hcount : g'.nodeCount = g.nodeCount)
    (hname : ∀ p qn, (g'.nodeAt p).qualifiedName = some qn →
      (g.nodeAt p).qualifiedName = some qn)
    (hlookup : ∀ qn p, g'.nodeByQn.lookup qn = some p → g.nodeByQn.lookup qn = some p) :
    LiveInv g' := by
  refine ⟨hnamed, ?_⟩
  intro p q qn hp hqn hq
  rw [hcount] at hp
  exact h.unique p q qn hp (hname p qn hqn) (hlookup qn q hq)

theorem LiveInv.deleteNode (h : LiveInv g) (p : Nat) : LiveInv (deleteNode g p) := by
  refine h.shrink (h.named.deleteNode p) rfl ?_ (fun _ _ => lookup_deleteNode)
  intro q qn hqn
  rw [nodeAt_deleteNode] at hqn
  by_cases hq : q = p
  · rw [if_pos hq] at hqn
    exact absurd hqn (by simp)
  · rwa [if_neg hq] at hqn

theorem LiveInv.deleteByLabel (h : LiveInv g) (label : CStr) :
    LiveInv (cbmGbufDeleteByLabel g label) := by
  obtain ⟨hcount, hat, hlookup⟩ := deleteByLabel_nodes g label
  refine h.shrink (h.named.deleteByLabel label) hcount ?_ (fun qn p hp => ((hlookup qn p).mp hp).1)
  intro p qn hqn
  rwa [hat] at hqn

theorem LiveInv.upsert (h : LiveInv g) (label name : Option CStr) (filePath : Option CStr)
    (startLine endLine : Int) (properties : Option CStr) (hghost : ¬ Ghost g qn) :
    LiveInv (cbmGbufUpsertNode g label name qn filePath startLine endLine properties).1 := by
  unfold cbmGbufUpsertNode
  dsimp only
  cases hlookup : g.nodeByQn.lookup qn with
  | some p => exact h.setNode p _
  | none =>
      have hpart := nodePart_allocNextId g
      refine (h.congr hpart).pushNode _ ?_
      rw [nodeCount_of_nodePart hpart, nodeAt_of_nodePart hpart]
      intro p hp hname
      exact hghost ⟨hlookup, p, hp, hname⟩

theorem LiveInv.mergeLoop {src : Gbuf} (ps : List Nat) (st : Gbuf × Table CStr Int)
    (h : LiveInv st.1) (hlt : ∀ s, s ∈ ps → s < src.nodeCount)
    (hghost : ∀ s qn, s ∈ cbmGbufForeachNode src → (src.nodeAt s).qualifiedName = some qn →
      ¬ Ghost st.1 qn) :
    LiveInv (ps.foldl (mergeNode src) st).1 := by
  refine (mergeLoop_rule (P := fun st => LiveInv st.1 ∧ ∀ s qn, s ∈ cbmGbufForeachNode src →
    (src.nodeAt s).qualifiedName = some qn → ¬ Ghost st.1 qn)
    (fun {st s qn p} _ _ _ _ h => ⟨h.1.setNode p _, ?_⟩) (fun {st s qn} hs hqn hlive hnew h => ?_)
    ⟨h, hghost⟩).1
  · rintro s' qn' hs' hqn' ⟨hnone, q, hq, hname⟩
    exact h.2 s' qn' hs' hqn' ⟨hnone, q, hq, (qualifiedName_setNode st.1 p q _) ▸ hname⟩
  · have hpart := nodePart_mergeCopyNewNode st.1 (src.nodeAt s) qn
    have hfree : ∀ p, p < st.1.nodeCount → (st.1.nodeAt p).qualifiedName ≠ some qn :=
      fun p hp hname => h.2 s qn ((mem_foreachNode src s).mpr ⟨hlt s hs, hlive⟩) hqn
        ⟨hnew, p, hp, hname⟩
    refine ⟨(h.1.pushNode _ hfree).congr hpart, ?_⟩
    rintro s' qn' hs' hqn' ⟨hnone, q, hq, hname⟩
    dsimp only at hnone hq hname
    rw [lookup_mergeCopyNewNode] at hnone
    rw [nodeCount_mergeCopyNewNode] at hq
    rw [nodeAt_mergeCopyNewNode] at hname
    by_cases hqq : qn' = qn
    · rw [if_pos hqq] at hnone
      exact absurd hnone (by simp)
    · rw [if_neg hqq] at hnone
      by_cases hqc : q = st.1.nodeCount
      · rw [if_pos hqc] at hname
        exact hqq (Option.some.inj hname).symm
      · rw [if_neg hqc] at hname
        exact h.2 s' qn' hs' hqn'
          ⟨hnone, q, Nat.lt_of_le_of_ne (Nat.le_of_lt_succ hq) hqc, hname⟩

theorem LiveInv.merge {dst src : Gbuf} (h : LiveInv dst) (hok : NoRevival dst (.merge src)) :
    LiveInv (cbmGbufMerge dst src) := by
  have hnodes : LiveInv (mergeNodes dst src).1 :=
    LiveInv.mergeLoop (List.range src.nodeCount) (dst, ∅) h
      (fun s hs => List.mem_range.mp hs) hok
  exact hnodes.congr (nodePart_mergeRemapEdges _ _ _)

theorem LiveInv.step {op : Op} (h : LiveInv g) (hok : NoRevival g op) : LiveInv (g.step op) := by
  cases op with
  | upsert label name qn filePath startLine endLine properties =>
      exact h.upsert label name filePath startLine endLine properties hok
  | insertEdge src tgt type properties =>
      exact h.congr (nodePart_cbmGbufInsertEdge g src tgt type properties)
  | deleteEdgesByType type => exact h.congr (nodePart_cbmGbufDeleteEdgesByType g type)
  | deleteByLabel label => exact h.deleteByLabel label
  | deleteByFile filePath =>
      exact deleteByFile_rule (fun _ hg => hg.congr (nodePart_cascadeDeleteEdges _ _))
        (fun p hg => hg.deleteNode p) h filePath
  | merge src => exact h.merge hok
  | draw k => exact h.congr rfl

/-- From `g` to `g'`, only nodes that are new have become found. -/
def Grows (g g' : Gbuf) : Prop :=
  g.nodeCount ≤ g'.nodeCount ∧ ∀ p, Found g' p → Found g p ∨ g.nodeCount ≤ p

theorem Grows.refl (g : Gbuf) : Grows g g :=
  ⟨le_rfl, fun _ => Or.inl⟩

theorem Grows.trans {g'' : Gbuf} (h : Grows g g') (h' : Grows g' g'') : Grows g g'' := by
  refine ⟨le_trans h.1 h'.1, fun p hp => ?_⟩
  rcases h'.2 p hp with hp | hp
  · exact h.2 p hp
  · exact Or.inr (le_trans h.1 hp)

theorem grows_of_nodePart (h : g'.nodePart = g.nodePart) : Grows g g' :=
  ⟨(nodeCount_of_nodePart h).ge, fun p hp => Or.inl ((found_congr h p).mp hp)⟩

theorem grows_pushNode (g : Gbuf) (n : Node) (hnew : g.nodeByQn.lookup qn = none) :
    Grows g (pushNode g n qn) := by
  refine ⟨Nat.le_succ _, fun p hp => ?_⟩
  rcases (found_pushNode n hnew p).mp hp with hp | hp
  · exact Or.inl hp
  · exact Or.inr hp.ge

theorem grows_of_lookup (hcount : g'.nodeCount = g.nodeCount)
    (hlookup : ∀ qn p, g'.nodeByQn.lookup qn = some p → g.nodeByQn.lookup qn = some p) :
    Grows g g' :=
  ⟨hcount.ge, fun p ⟨qn, hqn⟩ => Or.inl ⟨qn, hlookup qn p hqn⟩⟩

theorem grows_deleteFileLoop (filePath : CStr) (ps : List Nat) :
    ∀ st : Gbuf × Table CStr Unit, Grows st.1 (ps.foldl (deleteFileStep filePath) st).1 := by
  induction ps with
  | nil => exact fun st => Grows.refl st.1
  | cons p ps ih =>
      intro st
      rw [List.foldl_cons]
      rcases deleteFileStep_cases filePath st p with ⟨hskip, -⟩ | ⟨-, hdelete⟩
      · rw [hskip]
        exact ih st
      · have hnode : Grows st.1 (deleteNode st.1 p) :=
          grows_of_lookup rfl (fun _ _ => lookup_deleteNode)
        rw [hdelete]
        exact hnode.trans (ih (deleteNode st.1 p, _))

theorem grows_mergeLoop (src : Gbuf) (ps : List Nat) (st : Gbuf × Table CStr Int) :
    Grows st.1 (ps.foldl (mergeNode src) st).1 :=
  mergeLoop_rule (P := fun st' => Grows st.1 st'.1)
    (fun _ _ _ _ h => h.trans (grows_of_lookup rfl (fun _ _ h => h)))
    (fun _ _ _ hnew h => h.trans ((grows_pushNode _ _ hnew).trans
      (grows_of_nodePart (nodePart_mergeCopyNewNode _ _ _)))) (Grows.refl st.1)

theorem Grows.step (g : Gbuf) (op : Op) : Grows g (g.step op) := by
  cases op with
  | upsert label name qn filePath startLine endLine properties =>
      unfold Gbuf.step cbmGbufUpsertNode
      dsimp only
      cases hlookup : g.nodeByQn.lookup qn with
      | some p => exact grows_of_lookup rfl (fun _ _ h => h)
      | none =>
          have hpart := nodePart_allocNextId g
          refine (grows_of_nodePart hpart).trans (grows_pushNode _ _ ?_)
          rw [nodeByQn_of_nodePart hpart, hlookup]
  | insertEdge src tgt type properties =>
      exact grows_of_nodePart (nodePart_cbmGbufInsertEdge g src tgt type properties)
  | deleteEdgesByType type => exact grows_of_nodePart (nodePart_cbmGbufDeleteEdgesByType g type)
  | deleteByLabel label =>
      obtain ⟨hcount, -, hlookup⟩ := deleteByLabel_nodes g label
      exact grows_of_lookup hcount (fun qn p hp => ((hlookup qn p).mp hp).1)
  | deleteByFile filePath =>
      have hloop := grows_deleteFileLoop filePath (List.range g.nodeCount) (g, ∅)
      unfold Gbuf.step cbmGbufDeleteByFile
      dsimp only
      split
      · exact hloop
      · exact hloop.trans (grows_of_nodePart (nodePart_cascadeDeleteEdges _ _))
  | merge src =>
      exact (grows_mergeLoop src (List.range src.nodeCount) (g, ∅)).trans
        (grows_of_nodePart (nodePart_mergeRemapEdges _ _ _))
  | draw k => exact grows_of_nodePart rfl

theorem Run.not_found {ok : Gbuf → Op → Prop} {p : Nat} (h : Run ok g g') (hlt : p < g.nodeCount)
    (hp : ¬ Found g p) : ¬ Found g' p := by
  have hgrows : Grows g g' :=
    h.invariant (P := Grows g) (fun g' op hg _ => hg.trans (Grows.step g' op)) (Grows.refl g)
  intro hfound
  rcases hgrows.2 p hfound with hold | hnew
  · exact hp hold
  · exact absurd hlt (not_lt.mpr hnew)

/-- In every state of a run that creates no node under the name of a dead one,
the nodes visited and dumped are the values of `node_by_qn`; a node that some
operation of the run has removed is not among them. -/
theorem emitted_exact {g : Gbuf} (h : Reachable NoRevival g) :
    EmittedExact g ∧
      ∀ g₀ op p, Reachable NoRevival g₀ → Run NoRevival (g₀.step op) g →
        Found g₀ p → ¬ Found (g₀.step op) p →
        p ∉ cbmGbufForeachNode g ∧ ∀ maxTempId, p ∉ (buildDumpNodes g maxTempId).src := by
  have hexact := (h.invariant liveInv_new (fun _ _ => LiveInv.step)).exact
  refine ⟨hexact, ?_⟩
  intro g₀ op p h₀ hrun hfound hremoved
  have hlive₀ := h₀.invariant liveInv_new (fun _ _ => LiveInv.step)
  have hlt : p < (g₀.step op).nodeCount := lt_of_lt_of_le (hlive₀.named.lt hfound) (Grows.step g₀ op).1
  have hgone : ¬ Found g p := hrun.not_found hlt hremoved
  refine ⟨fun hp => hgone ((hexact.visited p).mp hp), fun maxTempId hp => ?_⟩
  exact hgone ((hexact.dumped maxTempId p).mp hp)

/-- An upsert of a class `q` of the file `f`. -/
def upsertClass : Op :=
  .upsert (some (bytesOf "Class")) (some (bytesOf "A")) (bytesOf "q") (some (bytesOf "f")) 1 2 none

/-- The class is created, deleted by file and created again. -/
def recreated : Gbuf :=
  (((cbmGbufNew [] none).step upsertClass).step (.deleteByFile (bytesOf "f"))).step upsertClass

/-- The class is created, deleted by label and created again. -/
def revived : Gbuf :=
  (((cbmGbufNew [] none).step upsertClass).step (.deleteByLabel (bytesOf "Class"))).step upsertClass

theorem emittedExact_recreated : Reachable NoRevival recreated ∧ EmittedExact recreated ∧
    0 ∉ cbmGbufForeachNode recreated := by
  have hfirst : Reachable NoRevival ((cbmGbufNew [] none).step upsertClass) := by
    refine Reachable.step ⟨[], none, Run.refl⟩ ?_
    rintro ⟨-, p, hp, -⟩
    exact absurd hp (Nat.not_lt_zero p)
  have hlast : NoRevival
      (((cbmGbufNew [] none).step upsertClass).step (.deleteByFile (bytesOf "f"))) upsertClass := by
    rintro ⟨-, p, hp, hname⟩
    have hone : p = 0 := Nat.lt_one_iff.mp hp
    subst hone
    exact absurd hname (by decide +kernel)
  have hdelete : NoRevival ((cbmGbufNew [] none).step upsertClass)
    (.deleteByFile (bytesOf "f")) := trivial
  have hreach : Reachable NoRevival recreated := (hfirst.step hdelete).step hlast
  have hremoved : ¬ Found
      (((cbmGbufNew [] none).step upsertClass).step (.deleteByFile (bytesOf "f"))) 0 := by
    rintro ⟨qn, hqn⟩
    have hkeys : (((cbmGbufNew [] none).step upsertClass).step
      (.deleteByFile (bytesOf "f"))).nodeByQn.keys = [] := by decide +kernel
    have hmem := AList.mem_keys.mp (AList.lookup_isSome.mp (Option.isSome_of_eq_some hqn))
    rw [hkeys] at hmem
    exact absurd hmem List.not_mem_nil
  obtain ⟨hexact, hgone⟩ := emitted_exact hreach
  exact ⟨hreach, hexact, (hgone _ _ 0 hfirst (Run.refl.step hlast)
    ⟨bytesOf "q", by decide +kernel⟩ hremoved).1⟩

/-- The node deleted first is visited again, beside the new one. -/
theorem not_emittedExact_revived : Reachable anyOp revived ∧ ¬ EmittedExact revived := by
  refine ⟨Reachable.step (Reachable.step (Reachable.step ⟨[], none, Run.refl⟩ trivial) trivial)
    trivial, ?_⟩
  intro h
  have htwo : (cbmGbufForeachNode revived).length = 2 := by decide +kernel
  have hone : cbmGbufNodeCount revived = 1 := by decide +kernel
  have hcount := h.count
  omega

end GraphBuffer
end CodebaseMemory
