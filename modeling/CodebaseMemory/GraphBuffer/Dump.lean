import CodebaseMemory.GraphBuffer.NodeTables

/-!
# Dumping a graph buffer

`build_dump_nodes` and `build_dump_edges`: the rows that
`cbm_gbuf_dump_to_sqlite` hands to the page writer.  Nodes get the ids 1, 2, ...
in the order of the node array; `temp_to_final` takes the ids of the buffer to
these, and is zero where nothing was stored.

`extract_url_path` parses JSON with a vendored library; it is a parameter.
-/

namespace CodebaseMemory
namespace GraphBuffer

open Lib
open Sqlite (CStr DumpNode DumpEdge)

/-- What `build_dump_nodes` leaves: the rows, the id map, and the nodes the
rows were made from. -/
structure DumpNodes where
  rows : List DumpNode
  tempToFinal : Int → Int
  src : List Nat

def dumpNode (g : Gbuf) (p : Nat) (finalId : Int) : DumpNode :=
  let n := g.nodeAt p
  { id := finalId
    project := some g.project
    label := some n.label
    name := some n.name
    qualifiedName := n.qualifiedName
    filePath := some n.filePath
    startLine := n.startLine
    endLine := n.endLine
    properties := some n.propertiesJson }

/-- The loop of `build_dump_nodes`, from `idx` rows on. -/
def buildDumpNodesLoop (g : Gbuf) (maxTempId : Int) :
    List Nat → Nat → (Int → Int) → DumpNodes
  | [], _, tempToFinal => { rows := [], tempToFinal := tempToFinal, src := [] }
  | p :: ps, idx, tempToFinal =>
      if isLive g p then
        let finalId : Int := idx + 1
        let id := (g.nodeAt p).id
        let tempToFinal :=
          if id < maxTempId then Function.update tempToFinal id finalId else tempToFinal
        let rest := buildDumpNodesLoop g maxTempId ps (idx + 1) tempToFinal
        { rest with rows := dumpNode g p finalId :: rest.rows, src := p :: rest.src }
      else buildDumpNodesLoop g maxTempId ps idx tempToFinal

def buildDumpNodes (g : Gbuf) (maxTempId : Int) : DumpNodes :=
  buildDumpNodesLoop g maxTempId (List.range g.nodeCount) 0 (fun _ => 0)

def remapId (tempToFinal : Int → Int) (maxTempId tempId : Int) : Int :=
  if tempId < maxTempId then tempToFinal tempId else 0

def dumpEdge (extractUrlPath : CStr → Option CStr) (g : Gbuf) (e : Edge) (id src tgt : Int) :
    DumpEdge :=
  { id := id
    project := some g.project
    sourceId := src
    targetId := tgt
    type := some e.type
    properties := some e.propertiesJson
    urlPath := some ((extractUrlPath e.propertiesJson).getD []) }

/-- The loop of `build_dump_edges`, from `idx` rows on. -/
def buildDumpEdgesLoop (extractUrlPath : CStr → Option CStr) (g : Gbuf)
    (tempToFinal : Int → Int) (maxTempId : Int) : List Nat → Nat → List DumpEdge
  | [], _ => []
  | p :: ps, idx =>
      let e := g.edgeAt p
      let src := remapId tempToFinal maxTempId e.sourceId
      let tgt := remapId tempToFinal maxTempId e.targetId
      if src = 0 ∨ tgt = 0 then
        buildDumpEdgesLoop extractUrlPath g tempToFinal maxTempId ps idx
      else
        dumpEdge extractUrlPath g e (idx + 1) src tgt ::
          buildDumpEdgesLoop extractUrlPath g tempToFinal maxTempId ps (idx + 1)

def buildDumpEdges (extractUrlPath : CStr → Option CStr) (g : Gbuf)
    (tempToFinal : Int → Int) (maxTempId : Int) : List DumpEdge :=
  buildDumpEdgesLoop extractUrlPath g tempToFinal maxTempId g.edges 0

theorem src_buildDumpNodesLoop (g : Gbuf) (maxTempId : Int) (ps : List Nat) :
    ∀ idx tempToFinal, (buildDumpNodesLoop g maxTempId ps idx tempToFinal).src =
      ps.filter (isLive g) := by
  induction ps with
  | nil => exact fun _ _ => rfl
  | cons p ps ih =>
      intro idx tempToFinal
      rw [buildDumpNodesLoop]
      by_cases hlive : isLive g p = true
      · rw [if_pos hlive, List.filter_cons_of_pos hlive]
        exact congrArg (p :: ·) (ih _ _)
      · rw [if_neg hlive, List.filter_cons_of_neg hlive]
        exact ih _ _

theorem src_buildDumpNodes (g : Gbuf) (maxTempId : Int) :
    (buildDumpNodes g maxTempId).src = cbmGbufForeachNode g :=
  src_buildDumpNodesLoop g maxTempId (List.range g.nodeCount) 0 (fun _ => 0)

theorem names_buildDumpNodesLoop (g : Gbuf) (maxTempId : Int) (ps : List Nat) :
    ∀ idx tempToFinal,
      (buildDumpNodesLoop g maxTempId ps idx tempToFinal).rows.map DumpNode.qualifiedName =
        (ps.filter (isLive g)).map (fun p => (g.nodeAt p).qualifiedName) := by
  induction ps with
  | nil => exact fun _ _ => rfl
  | cons p ps ih =>
      intro idx tempToFinal
      rw [buildDumpNodesLoop]
      by_cases hlive : isLive g p = true
      · rw [if_pos hlive, List.filter_cons_of_pos hlive]
        exact congrArg ((g.nodeAt p).qualifiedName :: ·) (ih _ _)
      · rw [if_neg hlive, List.filter_cons_of_neg hlive]
        exact ih _ _

theorem names_buildDumpNodes (g : Gbuf) (maxTempId : Int) :
    (buildDumpNodes g maxTempId).rows.map DumpNode.qualifiedName =
      (cbmGbufForeachNode g).map (fun p => (g.nodeAt p).qualifiedName) :=
  names_buildDumpNodesLoop g maxTempId (List.range g.nodeCount) 0 (fun _ => 0)

/-!
## The rows of a dump

What the rows of `build_dump_nodes` and `build_dump_edges` say about the buffer
they were made from.  The node rows are numbered in the order of the array, and
`temp_to_final` takes an id of the buffer to the number of its row; an edge
whose endpoints have no row is left out.
-/

def RowName (nodes : List DumpNode) (id : Int) (qn : CStr) : Prop :=
  ∃ n, n ∈ nodes ∧ n.id = id ∧ n.qualifiedName = some qn

/-- An edge row of type `type` joins the node rows of `a` and `b`. -/
def RowEdge (nodes : List DumpNode) (edges : List DumpEdge) (a b type : CStr) : Prop :=
  ∃ e, e ∈ edges ∧ e.type = some type ∧ RowName nodes e.sourceId a ∧ RowName nodes e.targetId b

/-- What a dump relies on: a name in use belongs to one node of the array, and
the nodes have different ids, which have been handed out. -/
structure Dumpable (g : Gbuf) : Prop where
  named : Named g
  visited : ∀ p, p ∈ cbmGbufForeachNode g → Found g p
  inj : ∀ p q, Found g p → Found g q → (g.nodeAt p).id = (g.nodeAt q).id → p = q
  below : ∀ p, Found g p → (g.nodeAt p).id < g.nextId

theorem length_eq_of_getElem?_map {α β : Type} {l : List α} {l' : List β} {f : Nat → β → α}
    (h : ∀ i : Nat, l[i]? = l'[i]?.map (f i)) : l.length = l'.length := by
  have hnone : ∀ i : Nat, l.length ≤ i ↔ l'.length ≤ i := by
    intro i
    rw [← List.getElem?_eq_none_iff, ← List.getElem?_eq_none_iff, h i, Option.map_eq_none_iff]
  exact Nat.le_antisymm ((hnone l'.length).mpr le_rfl) ((hnone l.length).mp le_rfl)

section Nodes

variable {g : Gbuf} {maxTempId : Int}

theorem rows_buildDumpNodesLoop (ps : List Nat) :
    ∀ (idx : Nat) (tempToFinal : Int → Int) (i : Nat),
      (buildDumpNodesLoop g maxTempId ps idx tempToFinal).rows[i]? =
        (ps.filter (isLive g))[i]?.map (fun p => dumpNode g p (idx + i + 1)) := by
  induction ps with
  | nil => exact fun _ _ _ => rfl
  | cons p ps ih =>
      intro idx tempToFinal i
      rw [buildDumpNodesLoop]
      by_cases hlive : isLive g p = true
      · rw [if_pos hlive, List.filter_cons_of_pos hlive]
        cases i with
        | zero => simp
        | succ i =>
            dsimp only
            rw [List.getElem?_cons_succ, List.getElem?_cons_succ, ih]
            congr 2
            funext q
            congr 1
            omega
      · rw [if_neg hlive, List.filter_cons_of_neg hlive]
        exact ih idx tempToFinal i

theorem tempToFinal_of_miss {id : Int} (ps : List Nat) :
    ∀ (idx : Nat) (tempToFinal : Int → Int),
      (∀ p, p ∈ ps.filter (isLive g) → (g.nodeAt p).id ≠ id) →
      (buildDumpNodesLoop g maxTempId ps idx tempToFinal).tempToFinal id = tempToFinal id := by
  induction ps with
  | nil => exact fun _ _ _ => rfl
  | cons p ps ih =>
      intro idx tempToFinal hmiss
      rw [buildDumpNodesLoop]
      by_cases hlive : isLive g p = true
      · rw [List.filter_cons_of_pos hlive, List.forall_mem_cons] at hmiss
        rw [if_pos hlive]
        dsimp only
        rw [ih _ _ hmiss.2]
        split
        · exact Function.update_of_ne (Ne.symm hmiss.1) _ _
        · rfl
      · rw [List.filter_cons_of_neg hlive] at hmiss
        rw [if_neg hlive]
        exact ih idx tempToFinal hmiss

theorem tempToFinal_of_hit {p : Nat} (hp : (g.nodeAt p).id < maxTempId) (ps : List Nat) :
    ∀ (idx : Nat) (tempToFinal : Int → Int) (i : Nat),
      (ps.filter (isLive g)).Pairwise (fun q r => (g.nodeAt q).id ≠ (g.nodeAt r).id) →
      (ps.filter (isLive g))[i]? = some p →
      (buildDumpNodesLoop g maxTempId ps idx tempToFinal).tempToFinal (g.nodeAt p).id =
        idx + i + 1 := by
  induction ps with
  | nil =>
      intro idx tempToFinal i _ hi
      exact absurd hi (by simp)
  | cons q ps ih =>
      intro idx tempToFinal i hdistinct hi
      rw [buildDumpNodesLoop]
      by_cases hlive : isLive g q = true
      · rw [List.filter_cons_of_pos hlive] at hdistinct hi
        obtain ⟨hhead, htail⟩ := List.pairwise_cons.mp hdistinct
        rw [if_pos hlive]
        dsimp only
        cases i with
        | zero =>
            obtain rfl : q = p := Option.some.inj hi
            rw [tempToFinal_of_miss ps _ _ (fun r hr => (hhead r hr).symm), if_pos hp,
              Function.update_self]
            rfl
        | succ i =>
            rw [ih (idx + 1) _ i htail hi]
            push_cast
            omega
      · rw [List.filter_cons_of_neg hlive] at hdistinct hi
        rw [if_neg hlive]
        exact ih idx tempToFinal i hdistinct hi

end Nodes

variable {g : Gbuf}

theorem Dumpable.pairwise (h : Dumpable g) :
    (cbmGbufForeachNode g).Pairwise (fun p q => (g.nodeAt p).id ≠ (g.nodeAt q).id) := by
  have hnodup : (cbmGbufForeachNode g).Nodup := List.nodup_range.filter _
  refine hnodup.imp_of_mem ?_
  intro p q hp hq hne hid
  exact hne (h.inj p q (h.visited p hp) (h.visited q hq) hid)

theorem rows_buildDumpNodes (g : Gbuf) (maxTempId : Int) (i : Nat) :
    (buildDumpNodes g maxTempId).rows[i]? =
      (cbmGbufForeachNode g)[i]?.map (fun p => dumpNode g p (i + 1)) := by
  refine (rows_buildDumpNodesLoop (List.range g.nodeCount) 0 (fun _ => 0) i).trans ?_
  simp only [Nat.cast_zero, zero_add]
  rfl

theorem Dumpable.remapId_of_hit (h : Dumpable g) {p i : Nat}
    (hi : (cbmGbufForeachNode g)[i]? = some p) :
    remapId (buildDumpNodes g g.nextId).tempToFinal g.nextId (g.nodeAt p).id = i + 1 := by
  have hp : (g.nodeAt p).id < g.nextId :=
    h.below p (h.visited p (List.mem_of_getElem? hi))
  have hhit := tempToFinal_of_hit hp (List.range g.nodeCount) 0 (fun _ => 0) i h.pairwise hi
  rw [Nat.cast_zero, zero_add] at hhit
  rw [remapId, if_pos hp]
  exact hhit

theorem remapId_of_miss {id : Int} (hmiss : ∀ p, p ∈ cbmGbufForeachNode g → (g.nodeAt p).id ≠ id) :
    remapId (buildDumpNodes g g.nextId).tempToFinal g.nextId id = 0 := by
  unfold remapId
  split
  · exact tempToFinal_of_miss (List.range g.nodeCount) 0 (fun _ => 0) hmiss
  · rfl

theorem rowName_iff (h : Dumpable g) (id : Int) (qn : CStr) :
    RowName (buildDumpNodes g g.nextId).rows
        (remapId (buildDumpNodes g g.nextId).tempToFinal g.nextId id) qn ↔ NodeName g id qn := by
  constructor
  · rintro ⟨n, hn, hid, hname⟩
    obtain ⟨i, hi⟩ := List.mem_iff_getElem?.mp hn
    rw [rows_buildDumpNodes] at hi
    obtain ⟨p, hp, rfl⟩ := Option.map_eq_some_iff.mp hi
    have hfound := h.visited p (List.mem_of_getElem? hp)
    refine ⟨p, h.named.lookup_eq hfound hname, ?_⟩
    -- the row has a number, so some live node has the id, and it is this one
    by_contra hne
    have hmiss : ∀ q, q ∈ cbmGbufForeachNode g → (g.nodeAt q).id ≠ id := by
      rintro q hq rfl
      obtain ⟨j, hj⟩ := List.mem_iff_getElem?.mp hq
      rw [h.remapId_of_hit hj] at hid
      have hij : i = j := by
        have hid' : ((i : Int) + 1) = j + 1 := hid
        omega
      rw [← hij, hp] at hj
      exact hne (congrArg (fun r => (g.nodeAt r).id) (Option.some.inj hj))
    rw [remapId_of_miss hmiss] at hid
    have hid' : ((i : Int) + 1) = 0 := hid
    omega
  · rintro ⟨p, hp, rfl⟩
    have hmem := h.named.mem_foreachNode ⟨qn, hp⟩
    obtain ⟨i, hi⟩ := List.mem_iff_getElem?.mp hmem
    refine ⟨dumpNode g p (i + 1), ?_, (h.remapId_of_hit hi).symm, (h.named qn p hp).2⟩
    refine List.mem_iff_getElem?.mpr ⟨i, ?_⟩
    rw [rows_buildDumpNodes, hi, Option.map_some]

theorem rowId_ne_zero {g : Gbuf} {maxTempId : Int} {n : DumpNode}
    (hn : n ∈ (buildDumpNodes g maxTempId).rows) : n.id ≠ 0 := by
  obtain ⟨i, hi⟩ := List.mem_iff_getElem?.mp hn
  rw [rows_buildDumpNodes] at hi
  obtain ⟨p, -, rfl⟩ := Option.map_eq_some_iff.mp hi
  change ((i : Int) + 1) ≠ 0
  omega

/-- Both endpoints of the edge have a row. -/
def resolved (g : Gbuf) (tempToFinal : Int → Int) (maxTempId : Int) (p : Nat) : Bool :=
  remapId tempToFinal maxTempId (g.edgeAt p).sourceId ≠ 0 &&
    remapId tempToFinal maxTempId (g.edgeAt p).targetId ≠ 0

theorem rows_buildDumpEdgesLoop (extractUrlPath : CStr → Option CStr) (g : Gbuf)
    (tempToFinal : Int → Int) (maxTempId : Int) (ps : List Nat) :
    ∀ idx i : Nat, (buildDumpEdgesLoop extractUrlPath g tempToFinal maxTempId ps idx)[i]? =
      (ps.filter (resolved g tempToFinal maxTempId))[i]?.map fun p =>
        dumpEdge extractUrlPath g (g.edgeAt p) (idx + i + 1)
          (remapId tempToFinal maxTempId (g.edgeAt p).sourceId)
          (remapId tempToFinal maxTempId (g.edgeAt p).targetId) := by
  induction ps with
  | nil => exact fun _ _ => rfl
  | cons p ps ih =>
      intro idx i
      rw [buildDumpEdgesLoop]
      split
      · next hzero =>
          have hno : ¬ resolved g tempToFinal maxTempId p = true := by
            rw [resolved]
            rcases hzero with hzero | hzero <;> simp [hzero]
          rw [List.filter_cons_of_neg hno]
          exact ih idx i
      · next hzero =>
          rw [not_or] at hzero
          have hyes : resolved g tempToFinal maxTempId p = true := by
            rw [resolved]
            simp [hzero.1, hzero.2]
          rw [List.filter_cons_of_pos hyes]
          cases i with
          | zero => simp
          | succ i =>
              rw [List.getElem?_cons_succ, List.getElem?_cons_succ, ih]
              congr 2
              funext q
              congr 1
              push_cast
              omega

theorem rows_buildDumpEdges (extractUrlPath : CStr → Option CStr) (g : Gbuf)
    (tempToFinal : Int → Int) (maxTempId : Int) (i : Nat) :
    (buildDumpEdges extractUrlPath g tempToFinal maxTempId)[i]? =
      (g.edges.filter (resolved g tempToFinal maxTempId))[i]?.map fun p =>
        dumpEdge extractUrlPath g (g.edgeAt p) (i + 1)
          (remapId tempToFinal maxTempId (g.edgeAt p).sourceId)
          (remapId tempToFinal maxTempId (g.edgeAt p).targetId) := by
  refine (rows_buildDumpEdgesLoop extractUrlPath g tempToFinal maxTempId g.edges 0 i).trans ?_
  simp only [Nat.cast_zero, zero_add]

theorem resolved_iff {tempToFinal : Int → Int} {maxTempId : Int} {p : Nat} :
    resolved g tempToFinal maxTempId p = true ↔
      remapId tempToFinal maxTempId (g.edgeAt p).sourceId ≠ 0 ∧
        remapId tempToFinal maxTempId (g.edgeAt p).targetId ≠ 0 := by
  rw [resolved, Bool.and_eq_true, decide_eq_true_iff, decide_eq_true_iff]

theorem exists_dumpEdge_iff (h : Dumpable g) (extractUrlPath : CStr → Option CStr)
    (P : Option CStr → Option CStr → Prop) (a b : CStr) :
    (∃ e, e ∈ buildDumpEdges extractUrlPath g (buildDumpNodes g g.nextId).tempToFinal g.nextId ∧
        P e.type e.properties ∧ RowName (buildDumpNodes g g.nextId).rows e.sourceId a ∧
        RowName (buildDumpNodes g g.nextId).rows e.targetId b) ↔
      ∃ p, p ∈ g.edges ∧ P (some (g.edgeAt p).type) (some (g.edgeAt p).propertiesJson) ∧
        NodeName g (g.edgeAt p).sourceId a ∧ NodeName g (g.edgeAt p).targetId b := by
  constructor
  · rintro ⟨e, he, hP, ha, hb⟩
    obtain ⟨i, hi⟩ := List.mem_iff_getElem?.mp he
    rw [rows_buildDumpEdges] at hi
    obtain ⟨p, hp, rfl⟩ := Option.map_eq_some_iff.mp hi
    refine ⟨p, List.mem_of_mem_filter (List.mem_of_getElem? hp), hP, ?_, ?_⟩
    · exact (rowName_iff h _ a).mp ha
    · exact (rowName_iff h _ b).mp hb
  · rintro ⟨p, hp, hP, ha, hb⟩
    have hna := (rowName_iff h _ a).mpr ha
    have hmb := (rowName_iff h _ b).mpr hb
    have hresolved : p ∈ g.edges.filter
        (resolved g (buildDumpNodes g g.nextId).tempToFinal g.nextId) := by
      refine List.mem_filter.mpr ⟨hp, resolved_iff.mpr ⟨?_, ?_⟩⟩
      · obtain ⟨n, hn, hid, -⟩ := hna
        rw [← hid]
        exact rowId_ne_zero hn
      · obtain ⟨n, hn, hid, -⟩ := hmb
        rw [← hid]
        exact rowId_ne_zero hn
    obtain ⟨i, hi⟩ := List.mem_iff_getElem?.mp hresolved
    have hrow := rows_buildDumpEdges extractUrlPath g (buildDumpNodes g g.nextId).tempToFinal
      g.nextId i
    rw [hi, Option.map_some] at hrow
    exact ⟨_, List.mem_of_getElem? hrow, hP, hna, hmb⟩

theorem rowEdge_dump (h : Dumpable g) (extractUrlPath : CStr → Option CStr) (a b type : CStr) :
    RowEdge (buildDumpNodes g g.nextId).rows
        (buildDumpEdges extractUrlPath g (buildDumpNodes g g.nextId).tempToFinal g.nextId)
        a b type ↔
      ∃ p, p ∈ g.edges ∧ Connects (NodeName g) (g.edgeAt p) a b type := by
  refine (exists_dumpEdge_iff h extractUrlPath (fun t _ => t = some type) a b).trans ?_
  constructor
  · rintro ⟨p, hp, htype, ha, hb⟩
    exact ⟨p, hp, ha, hb, Option.some.inj htype⟩
  · rintro ⟨p, hp, ha, hb, htype⟩
    exact ⟨p, hp, congrArg some htype, ha, hb⟩

end GraphBuffer
end CodebaseMemory
