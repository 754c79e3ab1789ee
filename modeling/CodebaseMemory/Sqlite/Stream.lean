import CodebaseMemory.Sqlite.Database

/-!
# The streaming writer

`cbm_gbuf_dump_to_sqlite` hands the node table to `cbm_writer_append_nodes` in
partitions.  Under memory pressure it frees the properties of the nodes that are
already on a leaf, and `cbm_writer_finalize` builds the node indexes from what
is left of the table.

A stream is the caller's node table, how far it has been appended, and the
writer.  `Streamed` is what every append and every release keep: the writer has
seen the table as it was given, up to `off`, and the table has lost properties
only.
-/

namespace CodebaseMemory
namespace Sqlite

/-- `nodes[j].properties = NULL`. -/
def DumpNode.freeProperties (n : DumpNode) : DumpNode :=
  { n with properties := none }

/-- The caller's node table, the number of nodes appended, and the writer. -/
structure NodeStream where
  writer : DbWriter
  nodes : List DumpNode
  off : Nat

/-- A table of which nothing is appended yet. -/
def NodeStream.start (nodes : List DumpNode) : NodeStream :=
  { writer := cbmWriterOpen, nodes := nodes, off := 0 }

/-- Appends the next `count` nodes. -/
def NodeStream.append (count : Nat) (s : NodeStream) : NodeStream :=
  { s with
    writer := cbmWriterAppendNodes s.writer ((s.nodes.drop s.off).take count)
    off := min (s.off + count) s.nodes.length }

/-- Frees the properties of the nodes from `lo` up to the last one appended that
`freed` names. -/
def NodeStream.release (lo : Nat) (freed : Nat → Bool) (s : NodeStream) : NodeStream :=
  { s with
    nodes := s.nodes.mapIdx fun j n =>
      if lo ≤ j ∧ j < s.off ∧ freed j then n.freeProperties else n }

/-- What a caller does between `cbm_writer_open` and `cbm_writer_finalize`. -/
inductive StreamStep
  | append (count : Nat)
  | release (freed : Nat → Bool)

def NodeStream.step (s : NodeStream) : StreamStep → NodeStream
  | .append count => s.append count
  | .release freed => s.release 0 freed

/-- `cbm_writer_finalize` with the table as it is at the end. -/
def NodeStream.finalize (s : NodeStream) (input : DbInput) : DbResult :=
  cbmWriterFinalize s.writer { input with nodes := s.nodes }

def dumpPartitionNodes : Nat := 1 <<< 16

/-- The append loop of `cbm_gbuf_dump_to_sqlite`.  `pressed off` is the answer of
the memory budget in the round that starts at `off`. -/
def appendPartitions (pressed : Nat → Bool) (freeHeavy : Bool) (s : NodeStream) : NodeStream :=
  if s.off < s.nodes.length then
    let chunk := min (s.nodes.length - s.off) dumpPartitionNodes
    let freeHeavy := freeHeavy || pressed s.off
    let appended := s.append chunk
    appendPartitions pressed freeHeavy
      (if freeHeavy then appended.release s.off (fun _ => true) else appended)
  else s
termination_by s.nodes.length - s.off
decreasing_by
  simp only [NodeStream.append, NodeStream.release, dumpPartitionNodes]
  split <;> simp only [List.length_mapIdx] <;> omega

section SameColumns

variable {nodes nodes' : List DumpNode}

/-- Two tables that differ in properties only. -/
def SameColumns (nodes nodes' : List DumpNode) : Prop :=
  nodes.map DumpNode.freeProperties = nodes'.map DumpNode.freeProperties

theorem SameColumns.length_eq (h : SameColumns nodes nodes') : nodes.length = nodes'.length := by
  simpa using congrArg List.length h

theorem SameColumns.sortedCells {β : Type} (h : SameColumns nodes nodes')
    {cmp : DumpNode → DumpNode → Ordering} {cell : DumpNode → β}
    (hcmp : ∀ a b, cmp a.freeProperties b.freeProperties = cmp a b)
    (hcell : ∀ n, cell n.freeProperties = cell n) :
    (sortRows cmp nodes).map cell = (sortRows cmp nodes').map cell := by
  have hsort : ∀ rows : List DumpNode, (sortRows cmp rows).map cell =
      (sortRows cmp (rows.map DumpNode.freeProperties)).map cell := by
    intro rows
    have hfree : (sortRows cmp rows).map DumpNode.freeProperties =
        sortRows cmp (rows.map DumpNode.freeProperties) := by
      refine List.map_insertionSort _ _ DumpNode.freeProperties rows fun a _ b _ => ?_
      rw [hcmp]
    rw [← hfree, List.map_map]
    exact List.map_congr_left fun n _ => (hcell n).symm
  rw [hsort nodes, hsort nodes', h]

theorem SameColumns.buildIndexSorted_eq (h : SameColumns nodes nodes') (f : File) (next : Nat)
    {cmp : DumpNode → DumpNode → Ordering} {cell : DumpNode → List UInt8}
    (hcmp : ∀ a b, cmp a.freeProperties b.freeProperties = cmp a b)
    (hcell : ∀ n, cell n.freeProperties = cell n) :
    buildIndexSorted f next nodes cmp cell = buildIndexSorted f next nodes' cmp cell := by
  rw [buildIndexSorted, buildIndexSorted, h.sortedCells hcmp hcell]

theorem SameColumns.buildNodeIndexes_eq (h : SameColumns nodes nodes') (f : File) (next : Nat) :
    buildNodeIndexes f next nodes = buildNodeIndexes f next nodes' := by
  have hcolumn : ∀ (f : File) (next : Nat) (col col' : DumpNode → Option CStr),
      (∀ n, col n.freeProperties = col n) → (∀ n, col' n.freeProperties = col' n) →
        buildIndexSorted f next nodes (cmpNodeBy col) (nodeCell col') =
          buildIndexSorted f next nodes' (cmpNodeBy col) (nodeCell col') := by
    intro f next col col' hcol hcol'
    refine h.buildIndexSorted_eq f next (fun a b => ?_) fun n => ?_
    · rw [cmpNodeBy, hcol, hcol]
      rfl
    · rw [nodeCell, hcol']
      rfl
  have hlabel := hcolumn f next DumpNode.label DumpNode.label (fun _ => rfl) fun _ => rfl
  have hname := fun f next => hcolumn f next DumpNode.name DumpNode.name (fun _ => rfl) fun _ => rfl
  have hfile := fun f next => hcolumn f next DumpNode.filePath ncolFile (fun _ => rfl) fun _ => rfl
  have hqn := fun f next => hcolumn f next DumpNode.qualifiedName DumpNode.qualifiedName
    (fun _ => rfl) fun _ => rfl
  simp only [buildNodeIndexes, cmpNodeByLabel, cmpNodeByName, cmpNodeByFile, cmpNodeByQn, hlabel,
    hname, hfile, hqn]

theorem SameColumns.lastId_eq (h : SameColumns nodes nodes') :
    lastId DumpNode.id nodes = lastId DumpNode.id nodes' := by
  have hmap : ∀ rows : List DumpNode,
      lastId DumpNode.id (rows.map DumpNode.freeProperties) = lastId DumpNode.id rows := by
    intro rows
    rw [lastId, lastId, List.getLast?_map, Option.map_map]
    rfl
  rw [← hmap nodes, h, hmap nodes']

theorem afterNodes_of_sameColumns {input : DbInput} (h : SameColumns nodes input.nodes)
    (f : File) (next nodesRoot : Nat) :
    writeDbAfterNodes f next { input with nodes := nodes } nodesRoot =
      writeDbAfterNodes f next input nodesRoot := by
  have hmetadata : ∀ (f : File) (next : Nat),
      writeMetadataTables f next { input with nodes := nodes } =
        writeMetadataTables f next input := by
    intro f next
    simp only [writeMetadataTables, h.lastId_eq]
  have hdata : writeDataTables f next { input with nodes := nodes } =
      writeDataTables f next input := rfl
  have hauto : ∀ (f : File) (next : Nat),
      writeAutoIndexes f next { input with nodes := nodes } = writeAutoIndexes f next input := by
    intro f next
    simp only [writeAutoIndexes]
  rw [writeDbAfterNodes, writeDbAfterNodes, hdata]
  simp only [hmetadata, h.buildNodeIndexes_eq, h.length_eq, hauto]

end SameColumns

/-- The writer has seen the first `off` nodes as they were given, and the table
has lost properties of these nodes only. -/
structure Streamed (given : List DumpNode) (s : NodeStream) : Prop where
  writer : s.writer = cbmWriterAppendNodes cbmWriterOpen (given.take s.off)
  columns : SameColumns s.nodes given
  rest : s.nodes.drop s.off = given.drop s.off
  bound : s.off ≤ s.nodes.length

section Runs

variable {given : List DumpNode} {s : NodeStream}

theorem streamed_start (given : List DumpNode) : Streamed given (NodeStream.start given) :=
  ⟨rfl, rfl, rfl, Nat.zero_le _⟩

theorem Streamed.append (h : Streamed given s) (count : Nat) :
    Streamed given (s.append count) := by
  have hlength := h.columns.length_eq
  refine ⟨?_, h.columns, ?_, Nat.min_le_right _ _⟩
  · -- the batch continues the nodes that the writer has seen
    have hbatch : given.take (min (s.off + count) s.nodes.length) =
        given.take s.off ++ (s.nodes.drop s.off).take count := by
      rw [h.rest, ← List.take_add, hlength]
      rw [List.take_eq_take_iff]
      omega
    simp only [NodeStream.append]
    rw [hbatch, h.writer]
    exact (List.foldl_append ..).symm
  · simp only [NodeStream.append]
    have hsplit : min (s.off + count) s.nodes.length =
        s.off + (min (s.off + count) s.nodes.length - s.off) := by
      have := h.bound
      omega
    rw [hsplit, ← List.drop_drop, ← List.drop_drop, h.rest]

theorem Streamed.release (h : Streamed given s) (lo : Nat) (freed : Nat → Bool) :
    Streamed given (s.release lo freed) := by
  refine ⟨h.writer, ?_, ?_, by simpa [NodeStream.release] using h.bound⟩
  · rw [SameColumns, ← h.columns]
    refine List.ext_getElem? fun j => ?_
    simp only [NodeStream.release, List.getElem?_map, List.getElem?_mapIdx]
    cases s.nodes[j]? with
    | none => rfl
    | some n =>
        by_cases hfreed : lo ≤ j ∧ j < s.off ∧ freed j
        · simp only [Option.map_some, if_pos hfreed]
          rfl
        · simp only [Option.map_some, if_neg hfreed]
  · refine Eq.trans (List.ext_getElem? fun j => ?_) h.rest
    have hkept : ¬ (lo ≤ s.off + j ∧ s.off + j < s.off ∧ freed (s.off + j)) := by omega
    simp only [NodeStream.release, List.getElem?_drop, List.getElem?_mapIdx, if_neg hkept]
    exact Option.map_id'

theorem Streamed.step (h : Streamed given s) (step : StreamStep) : Streamed given (s.step step) := by
  cases step with
  | append count => exact h.append count
  | release freed => exact h.release 0 freed

theorem Streamed.run (h : Streamed given s) (steps : List StreamStep) :
    Streamed given (steps.foldl NodeStream.step s) := by
  induction steps generalizing s with
  | nil => exact h
  | cons step steps ih => exact ih (h.step step)

theorem Streamed.finalize_eq {input : DbInput} (h : Streamed input.nodes s)
    (hoff : s.off = input.nodes.length) : s.finalize input = cbmWriteDb input := by
  have hwriter : s.writer = cbmWriterAppendNodes cbmWriterOpen input.nodes := by
    rw [h.writer, hoff, List.take_length]
  rw [NodeStream.finalize, cbmWriteDb, hwriter, cbmWriterFinalize, cbmWriterFinalize]
  dsimp only
  split
  · exact afterNodes_of_sameColumns h.columns _ _ _
  · exact afterNodes_of_sameColumns h.columns _ _ _

theorem Streamed.appendPartitions (h : Streamed given s) (pressed : Nat → Bool)
    (freeHeavy : Bool) :
    Streamed given (appendPartitions pressed freeHeavy s) ∧
      (Sqlite.appendPartitions pressed freeHeavy s).off = given.length := by
  fun_induction Sqlite.appendPartitions pressed freeHeavy s with
  | case1 freeHeavy s hlt chunk freeHeavy' appended ih =>
      refine ih ?_
      have happended : Streamed given appended := h.append chunk
      split
      · exact happended.release s.off fun _ => true
      · exact happended
  | case2 freeHeavy s hge =>
      refine ⟨h, ?_⟩
      have hlength := h.columns.length_eq
      have hbound := h.bound
      omega

end Runs

/-- Streaming writes the file of the one call: in any batches, with any releases
between them, and as `cbm_gbuf_dump_to_sqlite` does it. -/
theorem streamed_file_eq (input : DbInput) :
    (∀ steps : List StreamStep,
      (steps.foldl NodeStream.step (NodeStream.start input.nodes)).off = input.nodes.length →
        (steps.foldl NodeStream.step (NodeStream.start input.nodes)).finalize input =
          cbmWriteDb input) ∧
      ∀ pressed : Nat → Bool,
        (appendPartitions pressed false (NodeStream.start input.nodes)).finalize input =
          cbmWriteDb input := by
  refine ⟨fun steps hoff => ((streamed_start input.nodes).run steps).finalize_eq hoff, ?_⟩
  intro pressed
  obtain ⟨hstreamed, hoff⟩ := (streamed_start input.nodes).appendPartitions pressed false
  exact hstreamed.finalize_eq hoff

def threeNodes : DbInput :=
  let node (id : Int) : DumpNode :=
    ⟨id, some (bytesOf "p"), none, none, none, none, 1, 1, some (bytesOf "x")⟩
  ⟨some (bytesOf "p"), none, none, [node 1, node 2, node 3], [], [], []⟩

theorem streamed_file_eq_threeNodes :
    ([.append 2, .release (fun j => j = 0), .append 1].foldl NodeStream.step
        (NodeStream.start threeNodes.nodes)).finalize threeNodes = cbmWriteDb threeNodes :=
  (streamed_file_eq threeNodes).1 _ rfl

end Sqlite
end CodebaseMemory
