import CodebaseMemory.GraphBuffer.Closed
import CodebaseMemory.Lib.KeepFirst
import CodebaseMemory.Pipeline.Complexity

/-!
# Buffers with given functions and calls

`numbered texts edges` has functions with the given properties, with the ids 1, 2, ...,
and between these the given CALLS edges, in the given order.
-/

namespace CodebaseMemory
namespace Pipeline

open Lib
open Sqlite (CStr bytesOf)
open GraphBuffer

section Edge

variable {g : Gbuf}

theorem callees_insertEdge (h : TypedInv g) {a b : Int} (ha : InI64 a) (hb : InI64 b) (x : Int) :
    callees (cbmGbufInsertEdge g a b (bytesOf "CALLS") none).1 x =
      if x = a ∧ b ∉ callees g a then callees g x ++ [b] else callees g x := by
  have htype : (bytesOf "CALLS").length ≤ 80 := by decide
  have hexact := h.exact
  have hmem : b ∈ callees g a ↔ ∃ q, q ∈ g.edges ∧ (g.edgeAt q).sourceId = a ∧
      (g.edgeAt q).type = bytesOf "CALLS" ∧ (g.edgeAt q).targetId = b := by
    rw [callees, List.mem_map]
    refine exists_congr fun q => ?_
    rw [(hexact.bySource a (bytesOf "CALLS")).2 q]
    simp only [and_assoc]
  rcases insertEdge_cases g a b (bytesOf "CALLS") none with ⟨p, hp, heq⟩ | ⟨hnone, heq⟩
  · -- the edge is there
    obtain ⟨hpmem, hkey⟩ := (hexact.byKey _ p).mp hp
    have hok := h.typed.edges p hpmem
    obtain ⟨hsource, htarget, htype'⟩ :=
      edgeKey_inj hok.source hok.target hok.type ha hb htype hkey
    have hthere : b ∈ callees g a := hmem.mpr ⟨p, hpmem, hsource, htype', htarget⟩
    rw [if_neg fun hnot => hnot.2 hthere, heq]
    exact List.map_congr_left fun q _ =>
      edgeField_setEdge Edge.targetId (fun _ _ => rfl) g p _ q
  · have hnew : b ∉ callees g a := by
      rintro hthere
      obtain ⟨q, hq, hsource, htype', htarget⟩ := hmem.mp hthere
      have hlookup := (hexact.byKey (makeEdgeKey a b (bytesOf "CALLS")) q).mpr
        ⟨hq, by rw [hsource, htarget, htype']⟩
      exact absurd (hnone.symm.trans hlookup) (by simp)
    have hold : ∀ y, (cbmGbufFindEdgesBySourceType g y (bytesOf "CALLS")).map (fun q =>
        ((pushEdge (allocNextId g).2 (newEdge g a b (bytesOf "CALLS") none)).edgeAt q).targetId) =
        callees g y := by
      intro y
      refine List.map_congr_left fun q hq => ?_
      have hlt := h.edges.bound q (((hexact.bySource y _).2 q).mp hq).1
      rw [edgeAt_addedEdge, if_neg (Nat.ne_of_lt hlt)]
    have hbucket : cbmGbufFindEdgesBySourceType
        (pushEdge (allocNextId g).2 (newEdge g a b (bytesOf "CALLS") none)) x (bytesOf "CALLS") =
        if makeSrcTypeKey x (bytesOf "CALLS") = makeSrcTypeKey a (bytesOf "CALLS") then
          cbmGbufFindEdgesBySourceType g a (bytesOf "CALLS") ++ [g.edgeCount]
        else cbmGbufFindEdgesBySourceType g x (bytesOf "CALLS") := by
      have hsame : (allocNextId g).2.edgesBySourceType = g.edgesBySourceType :=
        congrArg EdgePart.edgesBySourceType (edgePart_allocNextId g)
      rw [cbmGbufFindEdgesBySourceType, edgesBySourceType_pushEdge, bucket_pushBucket,
        edgeCount_allocNextId, hsame]
      rfl
    rw [heq, callees, hbucket]
    by_cases hx : x = a
    · subst hx
      rw [if_pos rfl, if_pos ⟨rfl, hnew⟩, List.map_append, hold, List.map_singleton,
        edgeAt_addedEdge, if_pos rfl]
      rfl
    · have hkey : makeSrcTypeKey x (bytesOf "CALLS") ≠ makeSrcTypeKey a (bytesOf "CALLS") :=
        fun hkey => hx (srcTypeKey_inj ha htype hkey.symm).1.symm
      rw [if_neg hkey, if_neg fun hand => hx hand.1]
      exact hold x

end Edge

/-- One more function, with a name of its own. -/
def addFunction (g : Gbuf) (text : CStr) : Gbuf :=
  (cbmGbufUpsertNode g (some (bytesOf "Function")) none (decimal g.nodeCount) none 0 0
    (some text)).1

/-- Functions with the given properties. -/
def numberedNodes (texts : List CStr) : Gbuf :=
  texts.foldl addFunction (cbmGbufNew [] none)

/-- The nodes of the buffer are functions with the given properties and the ids 1, 2, ... -/
structure NumberedNodes (texts : List CStr) (g : Gbuf) : Prop where
  reachable : Reachable TypedOp g
  count : g.nodeCount = texts.length
  functions : cbmGbufFindByLabel g (bytesOf "Function") = List.range texts.length
  methods : cbmGbufFindByLabel g (bytesOf "Method") = []
  id : ∀ i < texts.length, (g.nodeAt i).id = i + 1
  properties : ∀ i text, texts[i]? = some text → (g.nodeAt i).propertiesJson = text
  name : ∀ qn p, g.nodeByQn.lookup qn = some p → qn = decimal p ∧ p < g.nodeCount
  mark : texts.length + 1 ≤ g.idMark

section Nodes

variable {texts : List CStr} {g : Gbuf}

theorem callees_of_edgePart {g' : Gbuf} (h : g'.edgePart = g.edgePart) (x : Int) :
    callees g' x = callees g x := by
  have hsource : g'.edgesBySourceType = g.edgesBySourceType :=
    congrArg EdgePart.edgesBySourceType h
  have hat : g'.edgeAt = g.edgeAt := congrArg EdgePart.edgeAt h
  rw [callees, callees, cbmGbufFindEdgesBySourceType, cbmGbufFindEdgesBySourceType, hsource, hat]

theorem NumberedNodes.addFunction (h : NumberedNodes texts g) (hmark : g.idMark = texts.length + 1)
    (hsize : texts.length + 1 < 2 ^ 63) (text : CStr) :
    NumberedNodes (texts ++ [text]) (addFunction g text) ∧
      (addFunction g text).idMark = (texts ++ [text]).length + 1 := by
  have hlength : (texts ++ [text]).length = texts.length + 1 := by simp
  have hok : TypedOp g (.upsert (some (bytesOf "Function")) none (decimal g.nodeCount) none 0 0
      (some text)) := by
    change InI64 g.idMark
    rw [hmark]
    constructor <;> omega
  have hnew : g.nodeByQn.lookup (decimal g.nodeCount) = none := by
    cases hlookup : g.nodeByQn.lookup (decimal g.nodeCount) with
    | none => rfl
    | some p =>
        obtain ⟨heq, hlt⟩ := h.name _ p hlookup
        have hcount := decimal_injective heq
        omega
  have hpart := nodePart_allocNextId g
  obtain ⟨n, hlabel, hid, hproperties, hadd⟩ : ∃ n : Node, n.label = bytesOf "Function" ∧
      n.id = g.idMark ∧ n.propertiesJson = text ∧
      Pipeline.addFunction g text =
        pushNode (allocNextId g).2 n (decimal g.nodeCount) := by
    let fields : NodeFields :=
      { label := bytesOf "Function"
        name := heapStrdup none
        filePath := heapStrdup none
        startLine := 0
        endLine := 0
        properties := some text }
    refine ⟨fields.node g.idMark, rfl, rfl, rfl, ?_⟩
    rw [Pipeline.addFunction, cbmGbufUpsertNode, hnew]
    rfl
  have hbucket : ∀ label, cbmGbufFindByLabel (Pipeline.addFunction g text) label =
      if label = bytesOf "Function" then
        cbmGbufFindByLabel g (bytesOf "Function") ++ [g.nodeCount]
      else cbmGbufFindByLabel g label := by
    intro label
    rw [hadd, cbmGbufFindByLabel, nodesByLabel_pushNode, bucket_pushBucket, hlabel,
      nodesByLabel_of_nodePart hpart, nodeCount_of_nodePart hpart]
    rfl
  have hnode : ∀ p, (Pipeline.addFunction g text).nodeAt p =
      if p = g.nodeCount then { n with qualifiedName := some (decimal g.nodeCount) }
      else g.nodeAt p := by
    intro p
    rw [hadd, nodeAt_pushNode, nodeCount_of_nodePart hpart, nodeAt_of_nodePart hpart]
  have hmark' : (Pipeline.addFunction g text).idMark = texts.length + 1 + 1 := by
    have hpush : (Pipeline.addFunction g text).idMark = (allocNextId g).2.idMark := by
      rw [hadd]
      exact idMark_of_ids rfl rfl
    rw [hpush, idMark_allocNextId, hmark]
  have hcount' : (Pipeline.addFunction g text).nodeCount = g.nodeCount + 1 := by
    rw [hadd]
    exact congrArg (· + 1) (nodeCount_of_nodePart hpart)
  refine ⟨⟨h.reachable.step hok, ?_, ?_, ?_, fun i hi => ?_, fun i t ht => ?_, fun qn p hp => ?_,
    ?_⟩, ?_⟩
  · rw [hcount', h.count, hlength]
  · rw [hbucket, if_pos rfl, h.functions, h.count, hlength, List.range_succ]
  · rw [hbucket, if_neg (by decide), h.methods]
  · rw [hnode, h.count]
    rw [hlength] at hi
    split
    · next heq =>
        dsimp only
        rw [hid, hmark, heq]
    · next hne => exact h.id i (by omega)
  · rw [hnode, h.count]
    split
    · next heq =>
        rw [heq, List.getElem?_concat_length] at ht
        exact hproperties.trans (Option.some.inj ht)
    · next hne =>
        refine h.properties i t ?_
        have hlt := (List.getElem?_eq_some_iff.mp ht).1
        rw [hlength] at hlt
        rwa [List.getElem?_append_left (by omega)] at ht
  · rw [hadd, lookup_pushNode, nodeCount_of_nodePart hpart, nodeByQn_of_nodePart hpart] at hp
    rw [hcount']
    split at hp
    · next heq =>
        obtain rfl := Option.some.inj hp
        exact ⟨heq, Nat.lt_succ_self _⟩
    · obtain ⟨hqn, hlt⟩ := h.name qn p hp
      exact ⟨hqn, Nat.lt_succ_of_lt hlt⟩
  · rw [hmark', hlength]
    push_cast
    exact Int.le_refl _
  · rw [hmark', hlength]
    push_cast
    rfl

theorem numberedNodes_spec (texts : List CStr) (hsize : texts.length < 2 ^ 63) :
    NumberedNodes texts (numberedNodes texts) ∧
      (numberedNodes texts).idMark = texts.length + 1 ∧
      ∀ x, callees (numberedNodes texts) x = [] := by
  induction texts using List.reverseRecOn with
  | nil =>
      refine ⟨⟨⟨[], none, .refl⟩, rfl, rfl, rfl, ?_, ?_, ?_, ?_⟩, rfl, fun _ => rfl⟩
      · exact fun i hi => absurd hi (Nat.not_lt_zero i)
      · exact fun i text ht => absurd ht (by simp)
      · exact fun qn p hp => absurd hp (by simp [numberedNodes, cbmGbufNew])
      · exact Int.le_refl _
  | append_singleton texts text ih =>
      rw [List.length_append, List.length_singleton] at hsize
      obtain ⟨hnodes, hmark, hcallees⟩ := ih (by omega)
      obtain ⟨hnodes', hmark'⟩ := hnodes.addFunction hmark hsize text
      rw [numberedNodes, List.foldl_append]
      refine ⟨hnodes', hmark', fun x => ?_⟩
      exact (callees_of_edgePart (edgePart_upsert ..) x).trans (hcallees x)

end Nodes

/-- One more call, between places in the list of functions. -/
def addCall (g : Gbuf) (e : Nat × Nat) : Gbuf :=
  (cbmGbufInsertEdge g (e.1 + 1) (e.2 + 1) (bytesOf "CALLS") none).1

/-- Functions with the given properties, and calls between them. -/
def numbered (texts : List CStr) (edges : List (Nat × Nat)) : Gbuf :=
  edges.foldl addCall (numberedNodes texts)

/-- What the edges say of the callees. -/
def targets (edges : List (Nat × Nat)) (x : Int) : List Int :=
  (edges.filter fun e => e.1 + 1 = x).map fun e => e.2 + 1

section Edges

variable {texts : List CStr} {g : Gbuf} {edges : List (Nat × Nat)}

theorem NumberedNodes.addCall (h : NumberedNodes texts g) {e : Nat × Nat}
    (ha : InI64 (e.1 + 1)) (hb : InI64 (e.2 + 1)) : NumberedNodes texts (addCall g e) := by
  have hpart : (Pipeline.addCall g e).nodePart = g.nodePart :=
    nodePart_cbmGbufInsertEdge g (e.1 + 1) (e.2 + 1) (bytesOf "CALLS") none
  have hok : TypedOp g (.insertEdge (e.1 + 1) (e.2 + 1) (bytesOf "CALLS") none) :=
    ⟨ha, hb, by decide⟩
  have hat := nodeAt_of_nodePart hpart
  have hbucket : ∀ label,
      cbmGbufFindByLabel (Pipeline.addCall g e) label = cbmGbufFindByLabel g label := by
    intro label
    rw [cbmGbufFindByLabel, nodesByLabel_of_nodePart hpart]
    rfl
  refine ⟨h.reachable.step hok, ?_, ?_, ?_, ?_, ?_, ?_, ?_⟩
  · rw [nodeCount_of_nodePart hpart, h.count]
  · rw [hbucket, h.functions]
  · rw [hbucket, h.methods]
  · rw [hat]
    exact h.id
  · rw [hat]
    exact h.properties
  · rw [nodeByQn_of_nodePart hpart, nodeCount_of_nodePart hpart]
    exact h.name
  · exact Int.le_trans h.mark (idMark_insertEdge_le g (e.1 + 1) (e.2 + 1) (bytesOf "CALLS") none)

theorem inI64_place {n i : Nat} (hsize : n < 2 ^ 63) (hi : i < n) : InI64 ((i : Int) + 1) := by
  constructor <;> omega

theorem numbered_spec (hsize : texts.length < 2 ^ 63)
    (hedges : ∀ e ∈ edges, e.1 < texts.length ∧ e.2 < texts.length) :
    NumberedNodes texts (numbered texts edges) ∧
      ∀ x, callees (numbered texts edges) x = keepFirst (· == ·) (targets edges x) := by
  induction edges using List.reverseRecOn with
  | nil =>
      obtain ⟨hnodes, _, hcallees⟩ := numberedNodes_spec texts hsize
      exact ⟨hnodes, hcallees⟩
  | append_singleton edges e ih =>
      obtain ⟨he, hold⟩ : (e.1 < texts.length ∧ e.2 < texts.length) ∧
          ∀ e ∈ edges, e.1 < texts.length ∧ e.2 < texts.length :=
        ⟨hedges e (by simp), fun e' he' => hedges e' (List.mem_append_left _ he')⟩
      obtain ⟨hnodes, hcallees⟩ := ih hold
      have ha := inI64_place hsize he.1
      have hb := inI64_place hsize he.2
      have hlast : numbered texts (edges ++ [e]) = addCall (numbered texts edges) e := by
        rw [numbered, List.foldl_append]
        rfl
      have htyped : TypedInv (numbered texts edges) :=
        hnodes.reachable.invariant typedInv_new fun _ _ => TypedInv.step
      rw [hlast]
      refine ⟨hnodes.addCall ha hb, fun x => ?_⟩
      rw [addCall, callees_insertEdge htyped ha hb, hcallees, hcallees]
      by_cases hx : (e.1 : Int) + 1 = x
      · have htargets : targets (edges ++ [e]) x = targets edges x ++ [(e.2 : Int) + 1] := by
          rw [targets, List.filter_append, List.map_append]
          simp [targets, hx]
        rw [htargets, keepFirst_concat, hx]
        rcases keepStep_cases (· == ·) (keepFirst (· == ·) (targets edges x)) ((e.2 : Int) + 1) with
          ⟨⟨y, hy, heq⟩, hstep⟩ | ⟨hnone, hstep⟩
        · rw [hstep, if_neg]
          rintro ⟨_, hnew⟩
          exact hnew (by rwa [beq_iff_eq.mp heq])
        · have hnew : (e.2 : Int) + 1 ∉ keepFirst (· == ·) (targets edges x) := fun hmem =>
            absurd (hnone _ hmem) (by simp)
          rw [hstep, if_pos ⟨rfl, hnew⟩]
      · have htargets : targets (edges ++ [e]) x = targets edges x := by
          rw [targets, List.filter_append, List.map_append]
          simp [targets, hx]
        rw [htargets, if_neg fun hand => hx hand.1.symm]

theorem mem_callees_numbered (hsize : texts.length < 2 ^ 63)
    (hedges : ∀ e ∈ edges, e.1 < texts.length ∧ e.2 < texts.length) {x y : Int} :
    y ∈ callees (numbered texts edges) x ↔
      ∃ e ∈ edges, (e.1 : Int) + 1 = x ∧ (e.2 : Int) + 1 = y := by
  have hmem : y ∈ targets edges x ↔ ∃ e ∈ edges, (e.1 : Int) + 1 = x ∧ (e.2 : Int) + 1 = y := by
    simp [targets, and_assoc]
  rw [(numbered_spec hsize hedges).2, ← hmem]
  constructor
  · exact fun h => (keepFirst_sublist _ _).subset h
  · intro h
    obtain ⟨z, hz, heq⟩ := @exists_mem_keepFirst Int (· == ·) (fun z => beq_self_eq_true z) _ _ h
    rwa [beq_iff_eq.mp heq]

theorem numbered_callGraph (hsize : texts.length < 2 ^ 63)
    (hedges : ∀ e ∈ edges, e.1 < texts.length ∧ e.2 < texts.length)
    (htexts : ∀ text ∈ texts, isJsonObject text = true) : CallGraph (numbered texts edges) := by
  obtain ⟨hnodes, _⟩ := numbered_spec hsize hedges
  have hcallables : callables (numbered texts edges) = List.range texts.length := by
    rw [callables, hnodes.functions, hnodes.methods, List.append_nil]
  have hid : ∀ i < texts.length, IsCallable (numbered texts edges) (i + 1) := fun i hi =>
    ⟨i, hcallables ▸ List.mem_range.mpr hi, hnodes.id i hi⟩
  refine ⟨hnodes.reachable, fun p hp => ?_, fun p hp q hq heq => ?_, fun p hp => ?_,
    fun a b hab => ?_⟩
  · rw [hcallables, List.mem_range] at hp
    have hmark := hnodes.mark
    rw [hnodes.id p hp]
    omega
  · rw [hcallables, List.mem_range] at hp hq
    rw [hnodes.id p hp, hnodes.id q hq] at heq
    omega
  · rw [hcallables, List.mem_range] at hp
    rw [hnodes.properties p _ (List.getElem?_eq_getElem hp)]
    exact htexts _ (List.getElem_mem hp)
  · obtain ⟨e, he, rfl, rfl⟩ := (mem_callees_numbered hsize hedges).mp
      ((calls_iff_of_reachable hnodes.reachable).mp hab)
    exact ⟨hid _ (hedges e he).1, hid _ (hedges e he).2⟩

theorem calls_numbered (hsize : texts.length < 2 ^ 63)
    (hedges : ∀ e ∈ edges, e.1 < texts.length ∧ e.2 < texts.length) {x y : Int} :
    Calls (numbered texts edges) x y ↔
      ∃ e ∈ edges, (e.1 : Int) + 1 = x ∧ (e.2 : Int) + 1 = y :=
  (calls_iff_of_reachable (numbered_spec hsize hedges).1.reachable).trans
    (mem_callees_numbered hsize hedges)

theorem head?_callees_numbered (hsize : texts.length < 2 ^ 63)
    (hedges : ∀ e ∈ edges, e.1 < texts.length ∧ e.2 < texts.length) (x : Int) :
    (callees (numbered texts edges) x).head? = (targets edges x).head? := by
  rw [(numbered_spec hsize hedges).2]
  cases htargets : targets edges x with
  | nil => rfl
  | cons y ys =>
      obtain ⟨rest, hrest⟩ := keepFirst_prefix (· == ·) [y] ys
      rw [List.singleton_append] at hrest
      rw [← hrest]
      rfl

end Edges

end Pipeline
end CodebaseMemory
