import CodebaseMemory.GraphBuffer.Dump
import CodebaseMemory.GraphBuffer.Merge
import CodebaseMemory.Lib.Distinct

/-!
# A dump is the graph, renumbered

Nodes, edges and vectors go through one array, `temp_to_final`.  The vectors
are compacted in place, sorted by node and freed of repetitions with a look at
the next entry; the page writer relies on their ids being strictly increasing.

`qsort` is a parameter: it sorts, and the order of entries with equal ids is
not known.
-/

namespace CodebaseMemory
namespace GraphBuffer

open Lib
open Sqlite (CStr bytesOf DumpNode DumpEdge DumpVector)

/-- One round of the first loop of `remap_sort_dedup_vectors`. -/
def remapVector (tempToFinal : Int → Int) (maxTempId : Int) (v : DumpVector) :
    Option DumpVector :=
  let newId := if v.nodeId > 0 ∧ v.nodeId < maxTempId then tempToFinal v.nodeId else 0
  if newId > 0 then some { v with nodeId := newId } else none

def remapSortDedupVectors (qsort : List DumpVector → List DumpVector)
    (tempToFinal : Int → Int) (maxTempId : Int) (vectors : List DumpVector) : List DumpVector :=
  let remapped := vectors.filterMap (remapVector tempToFinal maxTempId)
  if remapped.length ≥ 2 then dropRepeats DumpVector.nodeId (qsort remapped) else remapped

/-- What `qsort` with `cmp_dump_vectors_by_id` does. -/
structure SortsById (qsort : List DumpVector → List DumpVector) : Prop where
  perm : ∀ l, (qsort l).Perm l
  sorted : ∀ l, (qsort l).Pairwise fun v w => v.nodeId ≤ w.nodeId

def isLiveId (g : Gbuf) (id : Int) : Bool :=
  (cbmGbufForeachNode g).any fun p => (g.nodeAt p).id = id

/-- The edges between live nodes, in the order of the array. -/
def liveEdges (g : Gbuf) : List Nat :=
  g.edges.filter fun p => isLiveId g (g.edgeAt p).sourceId && isLiveId g (g.edgeAt p).targetId

structure RowOf (g : Gbuf) (nodes : List DumpNode) (e : Edge) (row : DumpEdge) : Prop where
  source : ∀ a, RowName nodes row.sourceId a ↔ NodeName g e.sourceId a
  target : ∀ b, RowName nodes row.targetId b ↔ NodeName g e.targetId b
  type : row.type = some e.type
  properties : row.properties = some e.propertiesJson

/-- The rows are those of the graph, renumbered. -/
structure DumpExact (g : Gbuf) (vectors : List DumpVector) (nodes : List DumpNode)
    (edges : List DumpEdge) (out : List DumpVector) : Prop where
  /-- the live nodes in the order of the array, numbered from 1 -/
  nodeRows : ∀ i : Nat, nodes[i]? = (cbmGbufForeachNode g)[i]?.map fun p => dumpNode g p (i + 1)
  edgeCount : edges.length = (liveEdges g).length
  edgeRows : ∀ (i : Nat) p row, (liveEdges g)[i]? = some p → edges[i]? = some row →
    row.id = i + 1 ∧ RowOf g nodes (g.edgeAt p) row
  increasing : out.Pairwise fun v w => v.nodeId < w.nodeId
  /-- a live node has a vector if one was added for it -/
  complete : ∀ (i : Nat) p, (cbmGbufForeachNode g)[i]? = some p →
    ((∃ v, v ∈ out ∧ v.nodeId = i + 1) ↔ ∃ v, v ∈ vectors ∧ v.nodeId = (g.nodeAt p).id)
  /-- every vector was added for the node it belongs to -/
  origin : ∀ w, w ∈ out → ∃ (i : Nat) (p : Nat), (cbmGbufForeachNode g)[i]? = some p ∧
    ∃ v, v ∈ vectors ∧ v.nodeId = (g.nodeAt p).id ∧ w = { v with nodeId := i + 1 }

section Exact

variable {g : Gbuf}

theorem isLiveId_iff {id : Int} :
    isLiveId g id = true ↔ ∃ p, p ∈ cbmGbufForeachNode g ∧ (g.nodeAt p).id = id := by
  rw [isLiveId, List.any_eq_true]
  constructor
  · rintro ⟨p, hp, hid⟩
    exact ⟨p, hp, of_decide_eq_true hid⟩
  · rintro ⟨p, hp, hid⟩
    exact ⟨p, hp, decide_eq_true hid⟩

theorem Dumpable.remapId_ne_zero (h : Dumpable g) (id : Int) :
    remapId (buildDumpNodes g g.nextId).tempToFinal g.nextId id ≠ 0 ↔ isLiveId g id = true := by
  rw [isLiveId_iff]
  constructor
  · intro hne
    by_contra hno
    refine hne (remapId_of_miss fun p hp hid => hno ⟨p, hp, hid⟩)
  · rintro ⟨p, hp, rfl⟩
    obtain ⟨i, hi⟩ := List.mem_iff_getElem?.mp hp
    rw [h.remapId_of_hit hi]
    omega

theorem Dumpable.resolved_eq (h : Dumpable g) :
    g.edges.filter (resolved g (buildDumpNodes g g.nextId).tempToFinal g.nextId) = liveEdges g := by
  refine List.filter_congr fun p _ => ?_
  rw [Bool.eq_iff_iff, resolved_iff, h.remapId_ne_zero, h.remapId_ne_zero, Bool.and_eq_true]

theorem Dumpable.remapVector_eq_some (h : Dumpable g) (hpos : ∀ p, Found g p → 0 < (g.nodeAt p).id)
    (v w : DumpVector) :
    remapVector (buildDumpNodes g g.nextId).tempToFinal g.nextId v = some w ↔
      ∃ (i : Nat) (p : Nat), (cbmGbufForeachNode g)[i]? = some p ∧ v.nodeId = (g.nodeAt p).id ∧
        w = { v with nodeId := i + 1 } := by
  unfold remapVector
  dsimp only
  constructor
  · intro hsome
    by_cases hrange : v.nodeId > 0 ∧ v.nodeId < g.nextId
    · rw [if_pos hrange] at hsome
      have hremap : remapId (buildDumpNodes g g.nextId).tempToFinal g.nextId v.nodeId =
          (buildDumpNodes g g.nextId).tempToFinal v.nodeId := if_pos hrange.2
      split at hsome
      · next hnew =>
          have hlive := (h.remapId_ne_zero v.nodeId).mp (by rw [hremap]; exact ne_of_gt hnew)
          obtain ⟨p, hp, hid⟩ := isLiveId_iff.mp hlive
          obtain ⟨i, hi⟩ := List.mem_iff_getElem?.mp hp
          refine ⟨i, p, hi, hid.symm, ?_⟩
          have hhit := h.remapId_of_hit hi
          rw [hid, hremap] at hhit
          rw [hhit] at hsome
          exact (Option.some.inj hsome).symm
      · exact absurd hsome (by simp)
    · rw [if_neg hrange, if_neg (lt_irrefl 0)] at hsome
      exact absurd hsome (by simp)
  · rintro ⟨i, p, hi, hid, rfl⟩
    have hfound := h.visited p (List.mem_of_getElem? hi)
    have hrange : (g.nodeAt p).id > 0 ∧ (g.nodeAt p).id < g.nextId :=
      ⟨hpos p hfound, h.below p hfound⟩
    have hhit := h.remapId_of_hit hi
    rw [remapId, if_pos hrange.2] at hhit
    rw [hid, if_pos hrange, hhit]
    exact if_pos (by omega)

theorem SortsById.nodeIds {qsort : List DumpVector → List DumpVector} (hsort : SortsById qsort)
    (remapped : List DumpVector) :
    let out := if remapped.length ≥ 2 then dropRepeats DumpVector.nodeId (qsort remapped)
      else remapped
    (out.Pairwise fun v w => v.nodeId < w.nodeId) ∧ (∀ w, w ∈ out → w ∈ remapped) ∧
      ∀ k, k ∈ out.map DumpVector.nodeId ↔ k ∈ remapped.map DumpVector.nodeId := by
  dsimp only
  split
  · refine ⟨pairwise_dropRepeats _ (hsort.sorted remapped), ?_, ?_⟩
    · intro w hw
      exact (hsort.perm remapped).subset ((dropRepeats_sublist _ _).subset hw)
    · intro k
      rw [mem_keys_dropRepeats]
      exact ((hsort.perm remapped).map DumpVector.nodeId).mem_iff
  · next hshort =>
      refine ⟨?_, fun w hw => hw, fun k => Iff.rfl⟩
      match remapped, hshort with
      | [], _ => exact List.Pairwise.nil
      | [v], _ => exact List.pairwise_singleton _ v
      | _ :: _ :: _, hshort => exact absurd (by simp) hshort

end Exact

/-- `qsort` by merge sort. -/
def mergeSortById (l : List DumpVector) : List DumpVector :=
  l.mergeSort fun v w => v.nodeId ≤ w.nodeId

theorem sortsById_mergeSort : SortsById mergeSortById where
  perm l := List.mergeSort_perm l _
  sorted l := by
    have hsorted : (mergeSortById l).Pairwise fun v w => decide (v.nodeId ≤ w.nodeId) = true := by
      refine List.pairwise_mergeSort ?_ ?_ l
      · intro a b c hab hbc
        rw [decide_eq_true_iff] at hab hbc ⊢
        exact hab.trans hbc
      · intro a b
        rw [Bool.or_eq_true, decide_eq_true_iff, decide_eq_true_iff]
        exact le_total a.nodeId b.nodeId
    exact hsorted.imp fun h => of_decide_eq_true h

/-- The function `a`, with the id 1, calls `b`, with the id 2. -/
def called : Gbuf :=
  (((cbmGbufNew (bytesOf "p") none).step (upsertFunction "a")).step (upsertFunction "b")).step
    (insertCall 1 2)

theorem owned_called : Owned called :=
  (((owned_new (bytesOf "p") none).upsert _ _ _ _ _ _ _).upsert _ _ _ _ _ _ _).congr
    (nodePart_cbmGbufInsertEdge _ _ _ _ _)

theorem dumpable_called : Dumpable called := by
  have hlt : ∀ p, Found called p → p < 2 := fun p hp => owned_called.named.lt hp
  have hids : ∀ p, p < 2 → (called.nodeAt p).id = p + 1 := by decide +kernel
  refine ⟨owned_called.named, fun _ => owned_called.found, ?_, ?_⟩
  · intro p q hp hq hid
    rw [hids p (hlt p hp), hids q (hlt q hq)] at hid
    omega
  · intro p hp
    have hnext : called.nextId = 4 := by decide +kernel
    rw [hids p (hlt p hp), hnext]
    have := hlt p hp
    omega

def vectorFor (nodeId : Int) (byte : UInt8) : DumpVector :=
  { nodeId := nodeId, project := none, vector := some [byte], vectorLen := 1 }

/-- Two buffers that number their nodes from 1 are merged; then a node with the
id 1 calls itself. -/
def collided : Gbuf :=
  (((cbmGbufNew (bytesOf "p") none).step (upsertFunction "a")).step
    (.merge ((cbmGbufNew (bytesOf "p") none).step (upsertFunction "b")))).step (insertCall 1 1)

theorem owned_collided : Owned collided :=
  (((owned_new (bytesOf "p") none).upsert _ _ _ _ _ _ _).merge _).congr
    (nodePart_cbmGbufInsertEdge _ _ _ _ _)

end GraphBuffer
end CodebaseMemory
