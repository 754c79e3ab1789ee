import CodebaseMemory.GraphBuffer.NodeTables

/-!
# Lookups by label and by name

`cbm_gbuf_find_by_label` and `cbm_gbuf_find_by_name` should return the nodes
that `cbm_gbuf_find_by_qn` finds and that have the label or the name.  They do
as long as a run keeps to `KeepsLookups`:

* an update in place, by upsert or by merge, does not change the label or the
  name of a node, for the node stays in its old buckets;
* `cbm_gbuf_delete_by_label` has nothing to delete, for it leaves the deleted
  nodes in the buckets of their names;
* `cbm_gbuf_delete_by_file` deletes no node that shares its id with another
  one, for it takes nodes out of the buckets by their ids.
-/

namespace CodebaseMemory
namespace GraphBuffer

open Lib
open Sqlite (CStr bytesOf)

/-- The lookups by label and by name return the nodes that are found and have
the label or the name, each once. -/
structure LookupsExact (g : Gbuf) : Prop where
  byLabel : ∀ label, (cbmGbufFindByLabel g label).Nodup ∧
    ∀ p, p ∈ cbmGbufFindByLabel g label ↔ Found g p ∧ (g.nodeAt p).label = label
  byName : ∀ name, (cbmGbufFindByName g name).Nodup ∧
    ∀ p, p ∈ cbmGbufFindByName g name ↔ Found g p ∧ (g.nodeAt p).name = name

/-- Two nodes have the same label and the same name. -/
def SameBuckets (n m : Node) : Prop :=
  n.label = m.label ∧ n.name = m.name

/-- The operation leaves every node in the right buckets. -/
def KeepsLookups (g : Gbuf) : Op → Prop
  | .upsert label name qn _ _ _ _ =>
      ∀ p, cbmGbufFindByQn g qn = some p →
        (g.nodeAt p).label = heapStrdup label ∧ (g.nodeAt p).name = heapStrdup name
  | .deleteByLabel label => ∀ p, Found g p → (g.nodeAt p).label ≠ label
  | .deleteByFile filePath =>
      ∀ p q, Found g p → Found g q → (g.nodeAt p).filePath = filePath →
        (g.nodeAt p).id = (g.nodeAt q).id → p = q
  | .merge src =>
      ∀ s, s ∈ cbmGbufForeachNode src →
        (∀ qn p, (src.nodeAt s).qualifiedName = some qn → cbmGbufFindByQn g qn = some p →
          SameBuckets (g.nodeAt p) (src.nodeAt s)) ∧
        ∀ s', s' ∈ cbmGbufForeachNode src →
          (src.nodeAt s').qualifiedName = (src.nodeAt s).qualifiedName →
          SameBuckets (src.nodeAt s') (src.nodeAt s)
  | .insertEdge _ _ _ _ => True
  | .deleteEdgesByType _ => True
  | .draw _ => True

/-- The invariant: names and nodes belong to each other, and both secondary
tables index the nodes that are found. -/
structure LookupInv (g : Gbuf) : Prop extends Owned g where
  byLabel : Indexes g.nodesByLabel (fun p => (g.nodeAt p).label) (Found g)
  byName : Indexes g.nodesByName (fun p => (g.nodeAt p).name) (Found g)

theorem LookupInv.exact {g : Gbuf} (h : LookupInv g) : LookupsExact g :=
  ⟨h.byLabel, h.byName⟩

section OneTable

variable {g : Gbuf} {t : Table CStr (List Nat)} {key : Node → CStr}

theorem not_found_new (project : CStr) (shared : Option Int) (p : Nat) :
    ¬ Found (cbmGbufNew project shared) p := by
  rintro ⟨qn, hqn⟩
  exact absurd hqn (by simp [cbmGbufFindByQn, cbmGbufNew])

theorem indexes_new (project : CStr) (shared : Option Int) (key : Nat → CStr) :
    Indexes (∅ : Table CStr (List Nat)) key (Found (cbmGbufNew project shared)) :=
  (Indexes.empty key).congr (fun p => iff_of_false (not_found_new project shared p) not_false)
    (fun _ _ => rfl)

theorem indexes_pushNode (hnamed : Named g)
    (ht : Indexes t (fun p => key (g.nodeAt p)) (Found g)) (n : Node) {qn : CStr}
    (hnew : g.nodeByQn.lookup qn = none)
    (hkey : key { n with qualifiedName := some qn } = key n) :
    Indexes (pushBucket t (key n) g.nodeCount) (fun p => key ((pushNode g n qn).nodeAt p))
      (Found (pushNode g n qn)) := by
  have hfresh : ¬ Found g g.nodeCount := fun hp => Nat.lt_irrefl _ (hnamed.lt hp)
  have hself : key ((pushNode g n qn).nodeAt g.nodeCount) = key n := by
    rw [nodeAt_pushNode, if_pos rfl, hkey]
  have hold : ∀ p, Found g p → key ((pushNode g n qn).nodeAt p) = key (g.nodeAt p) := by
    intro p hp
    rw [nodeAt_pushNode, if_neg (Nat.ne_of_lt (hnamed.lt hp))]
  have hpush := (ht.congr (fun _ => Iff.rfl) hold).push hfresh
  rw [hself] at hpush
  exact hpush.congr (found_pushNode n hnew) (fun _ _ => rfl)

theorem indexes_setNode (ht : Indexes t (fun p => key (g.nodeAt p)) (Found g)) (p : Nat)
    (n : Node) (hkey : key n = key (g.nodeAt p)) :
    Indexes t (fun q => key ((setNode g p n).nodeAt q)) (Found (setNode g p n)) := by
  refine ht.congr (fun _ => Iff.rfl) (fun q _ => ?_)
  rw [nodeAt_setNode]
  by_cases hq : q = p
  · rw [if_pos hq, hq, hkey]
  · rw [if_neg hq]

theorem indexes_deleteNode (hnamed : Named g)
    (ht : Indexes t (fun p => key (g.nodeAt p)) (Found g)) {p : Nat} (hp : Found g p)
    (hid : ∀ q, Found g q → (g.nodeAt p).id = (g.nodeAt q).id → p = q)
    (hkey : key { g.nodeAt p with qualifiedName := none } = key (g.nodeAt p)) :
    Indexes (removeNode g t (key (g.nodeAt p)) (g.nodeAt p).id)
      (fun q => key ((deleteNode g p).nodeAt q)) (Found (deleteNode g p)) := by
  have hremove := ht.remove (x := p) (f := fun q => decide ((g.nodeAt q).id = (g.nodeAt p).id))
    (by
      intro q hq _
      rw [decide_eq_true_iff]
      constructor
      · exact fun h => (hid q hq h.symm).symm
      · exact fun h => by rw [h])
  refine hremove.congr (found_deleteNode hnamed hp) (fun q _ => ?_)
  rw [nodeAt_deleteNode]
  by_cases hq : q = p
  · rw [if_pos hq, hq, hkey]
  · rw [if_neg hq]

end OneTable

theorem lookupInv_new (project : CStr) (shared : Option Int) :
    LookupInv (cbmGbufNew project shared) where
  toOwned := owned_new project shared
  byLabel := indexes_new project shared _
  byName := indexes_new project shared _

theorem LookupInv.congr {g g' : Gbuf} (h : LookupInv g) (hpart : g'.nodePart = g.nodePart) :
    LookupInv g' := by
  refine ⟨h.toOwned.congr hpart, ?_, ?_⟩
  · rw [nodesByLabel_of_nodePart hpart, nodeAt_of_nodePart hpart]
    exact h.byLabel.congr (found_congr hpart) (fun _ _ => rfl)
  · rw [nodesByName_of_nodePart hpart, nodeAt_of_nodePart hpart]
    exact h.byName.congr (found_congr hpart) (fun _ _ => rfl)

theorem LookupInv.pushNode {g : Gbuf} (h : LookupInv g) (n : Node) {qn : CStr}
    (hnew : g.nodeByQn.lookup qn = none) : LookupInv (pushNode g n qn) := by
  refine ⟨h.toOwned.pushNode n hnew, ?_, ?_⟩
  · rw [nodesByLabel_pushNode]
    exact indexes_pushNode h.named h.byLabel n hnew rfl
  · rw [nodesByName_pushNode]
    exact indexes_pushNode h.named h.byName n hnew rfl

theorem LookupInv.setNode {g : Gbuf} (h : LookupInv g) (p : Nat) (x : NodeFields)
    (hlabel : x.label = (g.nodeAt p).label) (hname : x.name = (g.nodeAt p).name) :
    LookupInv (setNode g p ((g.nodeAt p).update x)) :=
  ⟨h.toOwned.setNode p x, indexes_setNode h.byLabel p _ hlabel,
    indexes_setNode h.byName p _ hname⟩

theorem LookupInv.deleteNode {g : Gbuf} (h : LookupInv g) {p : Nat} (hp : Found g p)
    (hid : ∀ q, Found g q → (g.nodeAt p).id = (g.nodeAt q).id → p = q) :
    LookupInv (deleteNode g p) :=
  ⟨h.toOwned.deleteNode (h.named.lt hp), indexes_deleteNode h.named h.byLabel hp hid rfl,
    indexes_deleteNode h.named h.byName hp hid rfl⟩

theorem LookupInv.upsert {g : Gbuf} (h : LookupInv g) {label name : Option CStr} {qn : CStr}
    (filePath : Option CStr) (startLine endLine : Int) (properties : Option CStr)
    (hkeep : ∀ p, cbmGbufFindByQn g qn = some p →
      (g.nodeAt p).label = heapStrdup label ∧ (g.nodeAt p).name = heapStrdup name) :
    LookupInv (cbmGbufUpsertNode g label name qn filePath startLine endLine properties).1 := by
  unfold cbmGbufUpsertNode
  dsimp only
  cases hlookup : g.nodeByQn.lookup qn with
  | some p =>
      obtain ⟨hlabel, hname⟩ := hkeep p hlookup
      exact h.setNode p _ hlabel.symm hname.symm
  | none =>
      have hpart := nodePart_allocNextId g
      exact (h.congr hpart).pushNode _ (by rw [nodeByQn_of_nodePart hpart, hlookup])

theorem LookupInv.deleteFileLoop {filePath : CStr} (ps : List Nat) :
    ∀ st : Gbuf × Table CStr Unit, LookupInv st.1 →
      (∀ p, p ∈ ps → p < st.1.nodeCount) →
      (∀ p q, Found st.1 p → Found st.1 q → (st.1.nodeAt p).filePath = filePath →
        (st.1.nodeAt p).id = (st.1.nodeAt q).id → p = q) →
      LookupInv (ps.foldl (deleteFileStep filePath) st).1 := by
  induction ps with
  | nil => exact fun st h _ _ => h
  | cons p ps ih =>
      intro st h hlt hid
      have hps : ∀ q, q ∈ ps → q < st.1.nodeCount :=
        fun q hq => hlt q (List.mem_cons_of_mem p hq)
      rw [List.foldl_cons]
      rcases deleteFileStep_cases filePath st p with ⟨hskip, -⟩ | ⟨⟨hfile, hlive⟩, hdelete⟩
      · rw [hskip]
        exact ih st h hps hid
      · obtain ⟨qn, hqn, -⟩ := (isLive_iff st.1 p).mp hlive
        have hp : Found st.1 p := ⟨qn, h.live p qn (hlt p List.mem_cons_self) hqn⟩
        have hinv := h.deleteNode hp (fun q hq => hid p q hp hq hfile)
        rw [hdelete]
        refine ih _ hinv hps ?_
        intro a b ha hb
        obtain ⟨ha', hap⟩ := (found_deleteNode h.named hp a).mp ha
        obtain ⟨hb', hbp⟩ := (found_deleteNode h.named hp b).mp hb
        rw [nodeAt_deleteNode, if_neg hap, nodeAt_deleteNode, if_neg hbp]
        exact hid a b ha' hb'

theorem LookupInv.deleteByFile {g : Gbuf} (h : LookupInv g) {filePath : CStr}
    (hid : ∀ p q, Found g p → Found g q → (g.nodeAt p).filePath = filePath →
      (g.nodeAt p).id = (g.nodeAt q).id → p = q) :
    LookupInv (cbmGbufDeleteByFile g filePath) := by
  have hloop := LookupInv.deleteFileLoop (List.range g.nodeCount) (g, ∅) h
    (fun p hp => List.mem_range.mp hp) hid
  exact deleteByFile_of_loop (fun _ hg => hg.congr (nodePart_cascadeDeleteEdges _ _)) hloop

theorem LookupInv.mergeLoop {src : Gbuf}
    (hsrc : ∀ s s', s ∈ cbmGbufForeachNode src → s' ∈ cbmGbufForeachNode src →
      (src.nodeAt s').qualifiedName = (src.nodeAt s).qualifiedName →
      SameBuckets (src.nodeAt s') (src.nodeAt s)) (ps : List Nat) (st : Gbuf × Table CStr Int)
    (h : LookupInv st.1) (hlt : ∀ p, p ∈ ps → p < src.nodeCount)
    (hagree : ∀ s qn p, s ∈ cbmGbufForeachNode src → (src.nodeAt s).qualifiedName = some qn →
      cbmGbufFindByQn st.1 qn = some p → SameBuckets (st.1.nodeAt p) (src.nodeAt s)) :
    LookupInv (ps.foldl (mergeNode src) st).1 := by
  have hlive : ∀ {s}, s ∈ ps → isLive src s = true → s ∈ cbmGbufForeachNode src :=
    fun hs hlive => (mem_foreachNode src _).mpr ⟨hlt _ hs, hlive⟩
  refine (mergeLoop_rule (P := fun st => LookupInv st.1 ∧
    ∀ s qn p, s ∈ cbmGbufForeachNode src → (src.nodeAt s).qualifiedName = some qn →
      cbmGbufFindByQn st.1 qn = some p → SameBuckets (st.1.nodeAt p) (src.nodeAt s))
    (fun {st s qn p} hs hqn hl hp h => ?_) (fun {st s qn} hs hqn hl hnew h => ?_) ⟨h, hagree⟩).1
  · -- the node keeps its label and its name
    obtain ⟨hlabel, hname⟩ := h.2 s qn p (hlive hs hl) hqn hp
    refine ⟨h.1.setNode p _ hlabel.symm hname.symm, ?_⟩
    intro s' qn' p' hs' hqn' hp'
    have hold := h.2 s' qn' p' hs' hqn' hp'
    change SameBuckets ((GraphBuffer.setNode st.1 p _).nodeAt p') _
    rw [nodeAt_setNode]
    by_cases hpp : p' = p
    · rw [if_pos hpp]
      rw [hpp] at hold
      exact ⟨hlabel.symm.trans hold.1, hname.symm.trans hold.2⟩
    · rw [if_neg hpp]
      exact hold
  · -- a node of the same name that comes later agrees with the new one
    refine ⟨(h.1.pushNode _ hnew).congr (nodePart_mergeCopyNewNode _ _ _), ?_⟩
    intro s' qn' p' hs' hqn' hp'
    rw [cbmGbufFindByQn, lookup_mergeCopyNewNode] at hp'
    change SameBuckets ((mergeCopyNewNode st.1 (src.nodeAt s) qn).nodeAt p') _
    rw [nodeAt_mergeCopyNewNode]
    by_cases hqq : qn' = qn
    · rw [if_pos hqq] at hp'
      rw [if_pos (Option.some.inj hp').symm]
      exact hsrc s' s hs' (hlive hs hl) (by rw [hqn, hqn', hqq])
    · rw [if_neg hqq] at hp'
      have hne : p' ≠ st.1.nodeCount := Nat.ne_of_lt (h.1.named.lt ⟨qn', hp'⟩)
      rw [if_neg hne]
      exact h.2 s' qn' p' hs' hqn' hp'

theorem LookupInv.merge {dst src : Gbuf} (h : LookupInv dst)
    (hkeep : KeepsLookups dst (.merge src)) : LookupInv (cbmGbufMerge dst src) := by
  have hnodes := LookupInv.mergeLoop (fun s s' hs hs' => (hkeep s hs).2 s' hs')
    (List.range src.nodeCount) (dst, ∅) h (fun p hp => List.mem_range.mp hp)
    (fun s qn p hs => (hkeep s hs).1 qn p)
  exact hnodes.congr (nodePart_mergeRemapEdges _ _ _)

theorem LookupInv.step {g : Gbuf} {op : Op} (h : LookupInv g) (hkeep : KeepsLookups g op) :
    LookupInv (g.step op) := by
  cases op with
  | upsert label name qn filePath startLine endLine properties =>
      exact h.upsert filePath startLine endLine properties hkeep
  | insertEdge src tgt type properties =>
      exact h.congr (nodePart_cbmGbufInsertEdge g src tgt type properties)
  | deleteEdgesByType type => exact h.congr (nodePart_cbmGbufDeleteEdgesByType g type)
  | deleteByLabel label =>
      have hempty : bucket g.nodesByLabel label = [] := by
        rw [List.eq_nil_iff_forall_not_mem]
        intro p hp
        obtain ⟨hfound, hlabel⟩ := ((h.byLabel label).2 p).mp hp
        exact hkeep p hfound hlabel
      have hnothing : cbmGbufDeleteByLabel g label = g := if_pos hempty
      rw [Gbuf.step, hnothing]
      exact h
  | deleteByFile filePath => exact h.deleteByFile hkeep
  | merge src => exact h.merge hkeep
  | draw k => exact h.congr rfl

/-- In every state of a run that keeps to `KeepsLookups`, the lookups by label
and by name return exactly the nodes that are found and have the label or the
name, each once. -/
theorem lookups_exact {g : Gbuf} (h : Reachable KeepsLookups g) : LookupsExact g :=
  (h.invariant lookupInv_new (fun _ _ => LookupInv.step)).exact

/-- An upsert of the node `q` of the file `f`. -/
def upsertQ (label name : String) : Op :=
  .upsert (some (bytesOf label)) (some (bytesOf name)) (bytesOf "q") (some (bytesOf "f")) 1 2 none

/-- The node is created and then updated as it is. -/
def updated : Gbuf :=
  ((cbmGbufNew [] none).step (upsertQ "Class" "A")).step (upsertQ "Class" "A")

/-- The node is created and then updated with another label. -/
def relabelled : Gbuf :=
  ((cbmGbufNew [] none).step (upsertQ "Class" "A")).step (upsertQ "Interface" "A")

theorem lookupsExact_updated : Reachable KeepsLookups updated ∧ LookupsExact updated := by
  have hreach : Reachable KeepsLookups updated := by
    refine Reachable.step (Reachable.step ⟨[], none, Run.refl⟩ ?_) ?_
    · intro p hp
      exact absurd ⟨_, hp⟩ (not_found_new [] none p)
    · intro p hp
      have hfirst : cbmGbufFindByQn ((cbmGbufNew [] none).step (upsertQ "Class" "A"))
        (bytesOf "q") = some 0 := by decide +kernel
      obtain rfl : 0 = p := Option.some.inj (hfirst.symm.trans hp)
      decide +kernel
  exact ⟨hreach, lookups_exact hreach⟩

/-- The relabelled node is still in the bucket of its old label. -/
theorem not_lookupsExact_relabelled : Reachable anyOp relabelled ∧ ¬ LookupsExact relabelled := by
  refine ⟨Reachable.step (Reachable.step ⟨[], none, Run.refl⟩ trivial) trivial, ?_⟩
  intro h
  have hmem : 0 ∈ cbmGbufFindByLabel relabelled (bytesOf "Class") := by decide +kernel
  have hlabel := (((h.byLabel (bytesOf "Class")).2 0).mp hmem).2
  exact absurd hlabel (by decide +kernel)

end GraphBuffer
end CodebaseMemory
