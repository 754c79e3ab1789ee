import CodebaseMemory.GraphBuffer.Edges

/-!
# The ids of a buffer

Without a merge, the nodes of a buffer have ids from its own id source, which
only grows.  No two nodes of the array have the same id then, dead ones
included.
-/

namespace CodebaseMemory
namespace GraphBuffer

open Lib
open Sqlite (CStr bytesOf)

/-- Upserts, edge inserts and deletes, with arguments in range. -/
def BuiltOp (g : Gbuf) (op : Op) : Prop :=
  TypedOp g op ∧ ∀ src, op ≠ .merge src

/-- The ids of the nodes are distinct and have been handed out. -/
structure IdInv (g : Gbuf) : Prop where
  below : ∀ p, p < g.nodeCount → (g.nodeAt p).id < g.idMark
  inj : ∀ p q, p < g.nodeCount → q < g.nodeCount → (g.nodeAt p).id = (g.nodeAt q).id → p = q

theorem idInv_new (project : CStr) (shared : Option Int) : IdInv (cbmGbufNew project shared) where
  below := fun p hp => absurd hp (Nat.not_lt_zero p)
  inj := fun p _ hp => absurd hp (Nat.not_lt_zero p)

variable {g g' : Gbuf}

theorem IdInv.congr (h : IdInv g) (hcount : g'.nodeCount = g.nodeCount)
    (hid : ∀ p, (g'.nodeAt p).id = (g.nodeAt p).id) (hmark : g.idMark ≤ g'.idMark) : IdInv g' where
  below := by
    intro p hp
    rw [hid p]
    exact lt_of_lt_of_le (h.below p (hcount ▸ hp)) hmark
  inj := by
    intro p q hp hq hpq
    rw [hid p, hid q] at hpq
    exact h.inj p q (hcount ▸ hp) (hcount ▸ hq) hpq

theorem IdInv.of_nodePart (h : IdInv g) (hpart : g'.nodePart = g.nodePart)
    (hmark : g.idMark ≤ g'.idMark) : IdInv g' :=
  h.congr (nodeCount_of_nodePart hpart) (fun p => by rw [nodeAt_of_nodePart hpart]) hmark

theorem idMark_le_of_ids (hnext : g'.nextId = g.nextId) (hshared : g'.sharedIds = g.sharedIds) :
    g.idMark ≤ g'.idMark :=
  (idMark_of_ids hnext hshared).ge

theorem idMark_insertEdge_le (g : Gbuf) (src tgt : Int) (type : CStr) (properties : Option CStr) :
    g.idMark ≤ (cbmGbufInsertEdge g src tgt type properties).1.idMark := by
  rcases insertEdge_cases g src tgt type properties with ⟨p, -, hset⟩ | ⟨-, hadd⟩
  · rw [hset]
    exact idMark_le_of_ids rfl rfl
  · rw [hadd]
    calc
      g.idMark ≤ g.idMark + 1 := Int.le_add_one le_rfl
      _ = (allocNextId g).2.idMark := (idMark_allocNextId g).symm
      _ ≤ (pushEdge (allocNextId g).2 (newEdge g src tgt type properties)).idMark :=
        idMark_le_of_ids rfl rfl

theorem idMark_cascadeDeleteEdges (g : Gbuf) (deleted : Table CStr Unit) :
    (cascadeDeleteEdges g deleted).idMark = g.idMark := by
  obtain ⟨-, -, -, hmark⟩ := cascadeLoop_kept deleted g.edges g
  have hsame : (cascadeDeleteEdges g deleted).idMark = (cascadeLoop deleted g g.edges).1.idMark :=
    idMark_of_ids rfl rfl
  exact hsame.trans hmark

theorem idMark_deleteEdgesByType (g : Gbuf) (type : CStr) :
    (cbmGbufDeleteEdgesByType g type).idMark = g.idMark := by
  obtain ⟨-, -, -, -, hmark⟩ := registerLoop_frame
    (deleteTypeLoop g.edgeAt type g.edgeByKey g.edges).2
    { g with edgeByKey := (deleteTypeLoop g.edgeAt type g.edgeByKey g.edges).1
             edges := (deleteTypeLoop g.edgeAt type g.edgeByKey g.edges).2
             edgesBySourceType := ∅, edgesByTargetType := ∅, edgesByType := ∅ }
  exact hmark.trans (idMark_of_ids rfl rfl)

theorem IdInv.setNode (h : IdInv g) (p : Nat) (x : NodeFields) :
    IdInv (setNode g p ((g.nodeAt p).update x)) :=
  h.congr rfl (fun q => id_setNode g p q x) (idMark_le_of_ids rfl rfl)

theorem IdInv.pushNode (h : IdInv g) {n : Node} (qn : CStr) (hid : n.id = g.idMark) :
    IdInv (pushNode (allocNextId g).2 n qn) := by
  have hpart := nodePart_allocNextId g
  have hcount := nodeCount_of_nodePart hpart
  have hat := nodeAt_of_nodePart hpart
  have hmark : (GraphBuffer.pushNode (allocNextId g).2 n qn).idMark = g.idMark + 1 := by
    rw [← idMark_allocNextId g]
    exact idMark_of_ids rfl rfl
  have hcount' : (GraphBuffer.pushNode (allocNextId g).2 n qn).nodeCount = g.nodeCount + 1 :=
    congrArg (· + 1) hcount
  have hnode : ∀ p, ((GraphBuffer.pushNode (allocNextId g).2 n qn).nodeAt p).id =
      if p = g.nodeCount then g.idMark else (g.nodeAt p).id := by
    intro p
    rw [nodeAt_pushNode, hcount, hat]
    by_cases hp : p = g.nodeCount
    · rw [if_pos hp, if_pos hp]
      exact hid
    · rw [if_neg hp, if_neg hp]
  have hlt : ∀ r, r < (GraphBuffer.pushNode (allocNextId g).2 n qn).nodeCount →
      r ≠ g.nodeCount → r < g.nodeCount := by
    intro r hr hne
    rw [hcount'] at hr
    exact Nat.lt_of_le_of_ne (Nat.le_of_lt_succ hr) hne
  refine ⟨?_, ?_⟩
  · intro p hp
    rw [hnode p, hmark]
    by_cases hpc : p = g.nodeCount
    · rw [if_pos hpc]
      exact Int.lt_succ g.idMark
    · rw [if_neg hpc]
      exact lt_trans (h.below p (hlt p hp hpc)) (Int.lt_succ g.idMark)
  · intro p q hp hq hpq
    rw [hnode p, hnode q] at hpq
    by_cases hpc : p = g.nodeCount
    · by_cases hqc : q = g.nodeCount
      · exact hpc.trans hqc.symm
      · rw [if_pos hpc, if_neg hqc] at hpq
        exact absurd hpq.symm (ne_of_lt (h.below q (hlt q hq hqc)))
    · by_cases hqc : q = g.nodeCount
      · rw [if_neg hpc, if_pos hqc] at hpq
        exact absurd hpq (ne_of_lt (h.below p (hlt p hp hpc)))
      · rw [if_neg hpc, if_neg hqc] at hpq
        exact h.inj p q (hlt p hp hpc) (hlt q hq hqc) hpq

theorem IdInv.upsert (h : IdInv g) (label name : Option CStr) (qn : CStr) (filePath : Option CStr)
    (startLine endLine : Int) (properties : Option CStr) :
    IdInv (cbmGbufUpsertNode g label name qn filePath startLine endLine properties).1 := by
  unfold cbmGbufUpsertNode
  dsimp only
  cases g.nodeByQn.lookup qn with
  | some p => exact h.setNode p _
  | none => exact h.pushNode qn rfl

theorem IdInv.deleteNode (h : IdInv g) (p : Nat) : IdInv (deleteNode g p) := by
  refine h.congr rfl ?_ (idMark_le_of_ids rfl rfl)
  intro q
  rw [nodeAt_deleteNode]
  by_cases hq : q = p
  · rw [if_pos hq, hq]
  · rw [if_neg hq]

theorem IdInv.cascadeDeleteEdges (h : IdInv g) (deleted : Table CStr Unit) :
    IdInv (cascadeDeleteEdges g deleted) :=
  h.of_nodePart (nodePart_cascadeDeleteEdges _ _) (idMark_cascadeDeleteEdges _ _).ge

theorem IdInv.step {op : Op} (h : IdInv g) (hok : BuiltOp g op) : IdInv (g.step op) := by
  cases op with
  | upsert label name qn filePath startLine endLine properties =>
      exact h.upsert label name qn filePath startLine endLine properties
  | insertEdge src tgt type properties =>
      exact h.of_nodePart (nodePart_cbmGbufInsertEdge g src tgt type properties)
        (idMark_insertEdge_le g src tgt type properties)
  | deleteEdgesByType type =>
      exact h.of_nodePart (nodePart_cbmGbufDeleteEdgesByType g type)
        (idMark_deleteEdgesByType g type).ge
  | deleteByLabel label =>
      exact deleteByLabel_rule (fun deleted hg => hg.cascadeDeleteEdges deleted)
        (fun _ _ hst => hst.congr rfl (fun _ => rfl) (idMark_le_of_ids rfl rfl))
        (fun _ hg => hg.congr rfl (fun _ => rfl) (idMark_le_of_ids rfl rfl)) h label
  | deleteByFile filePath =>
      exact deleteByFile_rule (fun deleted hg => hg.cascadeDeleteEdges deleted)
        (fun p hg => hg.deleteNode p) h filePath
  | merge src => exact absurd rfl (hok.2 src)
  | draw k =>
      refine h.of_nodePart rfl ?_
      unfold Gbuf.step Gbuf.idMark allocNextId
      dsimp only
      cases g.sharedIds with
      | none => exact le_rfl
      | some id => exact Int.le_add_of_nonneg_right (Int.natCast_nonneg k)

/-- What upserts, edge inserts and deletes keep. -/
structure BuiltInv (g : Gbuf) : Prop extends TypedInv g where
  ids : IdInv g

theorem BuiltInv.step {op : Op} (h : BuiltInv g) (hok : BuiltOp g op) : BuiltInv (g.step op) :=
  ⟨h.toTypedInv.step hok.1, h.ids.step hok⟩

theorem builtInv_new (project : CStr) (shared : Option Int) :
    BuiltInv (cbmGbufNew project shared) :=
  ⟨typedInv_new project shared, idInv_new project shared⟩

theorem builtInv_of_reachable (h : Reachable BuiltOp g) : BuiltInv g :=
  h.invariant builtInv_new (fun _ _ => BuiltInv.step)

end GraphBuffer
end CodebaseMemory
