import CodebaseMemory.GraphBuffer.EdgeProps
import CodebaseMemory.GraphBuffer.MergeNodes

/-!
# Merging two buffers

After the node loop `cbm_gbuf_merge` inserts the edges of `src`, with remapped
endpoints.
-/

namespace CodebaseMemory
namespace GraphBuffer

open Lib
open Sqlite (CStr bytesOf)

/-- `m` is the union of `dst` and `src`: of their nodes by name, where the
fields are those of `src`, and of the triples of their edges, where properties
of `src` win unless they are `"{}"`.  If several edges of `src` have the same
triple, the last such properties win. -/
structure IsUnion (m dst src : Gbuf) (dstName srcName : Int → CStr → Prop) : Prop where
  names : ∀ qn, (cbmGbufFindByQn m qn).isSome = true ↔
    (cbmGbufFindByQn dst qn).isSome = true ∨ (cbmGbufFindByQn src qn).isSome = true
  fields : ∀ qn s, cbmGbufFindByQn src qn = some s →
    ∃ p, cbmGbufFindByQn m qn = some p ∧ (m.nodeAt p).fields = (src.nodeAt s).fields
  others : ∀ qn p, cbmGbufFindByQn dst qn = some p → cbmGbufFindByQn src qn = none →
    cbmGbufFindByQn m qn = some p ∧ m.nodeAt p = dst.nodeAt p
  edges : ∀ a b type,
    (∃ p, p ∈ m.edges ∧ Connects (NodeName m) (m.edgeAt p) a b type) ↔
      (∃ p, p ∈ dst.edges ∧ Connects dstName (dst.edgeAt p) a b type) ∨
      ∃ p, p ∈ src.edges ∧ Connects srcName (src.edgeAt p) a b type
  srcProperties : ∀ a b type p l₁ q l₂, p ∈ m.edges →
    Connects (NodeName m) (m.edgeAt p) a b type →
    src.edges = l₁ ++ q :: l₂ → Connects srcName (src.edgeAt q) a b type →
    (src.edgeAt q).propertiesJson ≠ emptyObject →
    (∀ r, r ∈ l₂ → Connects srcName (src.edgeAt r) a b type →
      (src.edgeAt r).propertiesJson = emptyObject) →
    (m.edgeAt p).propertiesJson = (src.edgeAt q).propertiesJson
  dstProperties : ∀ a b type p d, p ∈ m.edges →
    Connects (NodeName m) (m.edgeAt p) a b type →
    d ∈ dst.edges → Connects dstName (dst.edgeAt d) a b type →
    (∀ q, q ∈ src.edges → Connects srcName (src.edgeAt q) a b type →
      (src.edgeAt q).propertiesJson = emptyObject) →
    (m.edgeAt p).propertiesJson = (dst.edgeAt d).propertiesJson

section Union

variable {dst src : Gbuf}

theorem Mergeable.remap_range (h : Mergeable dst src) :
    TypedBuf (mergeNodes dst src).1 ∧
      ∀ key id, (mergeNodes dst src).2.lookup key = some id → InI64 id :=
  TypedBuf.mergeLoop h.builtSrc.typed (List.range src.nodeCount) (dst, ∅) h.builtDst.typed
    h.builtDst.named (fun _ hs => List.mem_range.mp hs) (fun _ _ hid => absurd hid (by simp))

theorem Mergeable.typedInv_mergeNodes (h : Mergeable dst src) :
    TypedInv (mergeNodes dst src).1 where
  named := (nodesMerged_mergeNodes h).named
  typed := h.remap_range.1
  edges := EdgeInv.mergeLoop (List.range src.nodeCount) (dst, ∅) h.builtDst.edges

theorem Mergeable.typedInv_merge (h : Mergeable dst src) : TypedInv (cbmGbufMerge dst src) := by
  have hok : TypedOp dst (.merge src) := h.builtSrc.typed
  exact h.builtDst.toTypedInv.step hok

theorem nodePart_merge (dst src : Gbuf) :
    (cbmGbufMerge dst src).nodePart = (mergeNodes dst src).1.nodePart :=
  nodePart_mergeRemapEdges _ _ _

theorem find_merge (dst src : Gbuf) (qn : CStr) :
    cbmGbufFindByQn (cbmGbufMerge dst src) qn = (mergeNodes dst src).1.nodeByQn.lookup qn := by
  rw [cbmGbufFindByQn, nodeByQn_of_nodePart (nodePart_merge dst src)]

theorem nodeName_merge (dst src : Gbuf) (id : Int) (qn : CStr) :
    NodeName (cbmGbufMerge dst src) id qn ↔ NodeName (mergeNodes dst src).1 id qn := by
  unfold NodeName
  rw [find_merge, nodeAt_of_nodePart (nodePart_merge dst src)]
  rfl

theorem edges_mergeNodes (dst src : Gbuf) :
    (mergeNodes dst src).1.edges = dst.edges ∧ (mergeNodes dst src).1.edgeAt = dst.edgeAt := by
  have hpart := edgePart_mergeLoop src (List.range src.nodeCount) (dst, ∅)
  exact ⟨congrArg EdgePart.edges hpart, congrArg EdgePart.edgeAt hpart⟩

theorem edgeProps_merge (h : Mergeable dst src) {a b : Int} {type : CStr} (ha : InI64 a)
    (hb : InI64 b) (htype : type.length ≤ 80) :
    edgeProps (cbmGbufMerge dst src) a b type =
      src.edges.foldl (mergedProps src (Hits src (mergeNodes dst src).2 a b type))
        (edgeProps (mergeNodes dst src).1 a b type) :=
  edgeProps_mergeRemapEdges h.builtSrc.typed.edges h.remap_range.2 ha hb htype src.edges _
    h.typedInv_mergeNodes.keyInv (fun _ hp => hp)

/-- The edge `q` of `src` hits the edge `p` of the merge if and only if it has
the names of its endpoints. -/
theorem Mergeable.hits_iff (h : Mergeable dst src) {e : Edge} {a b type : CStr}
    (he : Connects (NodeName (cbmGbufMerge dst src)) e a b type) (q : Nat) :
    Hits src (mergeNodes dst src).2 e.sourceId e.targetId e.type q ↔
      Connects (SrcName dst src) (src.edgeAt q) a b type := by
  obtain ⟨ha, hb, rfl⟩ := he
  rw [nodeName_merge] at ha hb
  unfold Connects
  rw [← nodeName_remapEndpoint h, ← nodeName_remapEndpoint h]
  constructor
  · rintro ⟨hsource, htarget, htype⟩
    rw [hsource, htarget]
    exact ⟨ha, hb, htype⟩
  · rintro ⟨hsource, htarget, htype⟩
    exact ⟨hsource.id_eq ha, htarget.id_eq hb, htype⟩

theorem Mergeable.names (h : Mergeable dst src) (qn : CStr) :
    (cbmGbufFindByQn (cbmGbufMerge dst src) qn).isSome = true ↔
      (cbmGbufFindByQn dst qn).isSome = true ∨ (cbmGbufFindByQn src qn).isSome = true := by
  have hm := nodesMerged_mergeNodes h
  have hpassed := passed_nodeCount h.builtSrc.named
  rw [find_merge]
  constructor
  · intro hsome
    obtain ⟨p, hp⟩ := Option.isSome_iff_exists.mp hsome
    cases hlookup : cbmGbufFindByQn dst qn with
    | some p' => exact Or.inl rfl
    | none =>
        obtain ⟨s, hs, -⟩ := hm.added qn p hlookup hp
        exact Or.inr (Option.isSome_of_eq_some ((hpassed qn s).mp hs))
  · rintro (hsome | hsome)
    · obtain ⟨p, hp⟩ := Option.isSome_iff_exists.mp hsome
      exact Option.isSome_of_eq_some (hm.kept qn p hp).1
    · obtain ⟨s, hs⟩ := Option.isSome_iff_exists.mp hsome
      obtain ⟨p, hp, -⟩ := hm.copied qn s ((hpassed qn s).mpr hs)
      exact Option.isSome_of_eq_some hp

theorem Mergeable.edges_iff (h : Mergeable dst src) (a b type : CStr) :
    (∃ p, p ∈ (cbmGbufMerge dst src).edges ∧
        Connects (NodeName (cbmGbufMerge dst src)) ((cbmGbufMerge dst src).edgeAt p) a b type) ↔
      (∃ p, p ∈ dst.edges ∧ Connects (DstName dst src) (dst.edgeAt p) a b type) ∨
      ∃ p, p ∈ src.edges ∧ Connects (SrcName dst src) (src.edgeAt p) a b type := by
  obtain ⟨hedges, hat⟩ := edges_mergeNodes dst src
  have hinv := h.typedInv_merge.keyInv
  have hnodes := h.typedInv_mergeNodes.keyInv
  constructor
  · rintro ⟨p, hp, hconnects⟩
    have hok := hinv.typed p hp
    have hsome := Option.isSome_of_eq_some (hinv.edgeProps_eq hp)
    rw [edgeProps_merge h hok.source hok.target hok.type, isSome_mergedProps,
      hnodes.edgeProps_isSome hok.source hok.target hok.type, hedges, hat] at hsome
    rcases hsome with ⟨d, hd, hsource, htarget, htype⟩ | ⟨q, hq, hhit⟩
    · refine Or.inl ⟨d, hd, ?_⟩
      unfold Connects at hconnects ⊢
      rw [hsource, htarget, htype]
      simpa only [nodeName_merge, nodeName_mergeNodes h] using hconnects
    · exact Or.inr ⟨q, hq, (h.hits_iff hconnects q).mp hhit⟩
  · rintro (⟨d, hd, hconnects⟩ | ⟨q, hq, hconnects⟩)
    · have hok := h.builtDst.typed.edges d hd
      have hsome : (edgeProps (cbmGbufMerge dst src) (dst.edgeAt d).sourceId
          (dst.edgeAt d).targetId (dst.edgeAt d).type).isSome = true := by
        rw [edgeProps_merge h hok.source hok.target hok.type, isSome_mergedProps,
          hnodes.edgeProps_isSome hok.source hok.target hok.type, hedges, hat]
        exact Or.inl ⟨d, hd, rfl, rfl, rfl⟩
      obtain ⟨p, hp, hsource, htarget, htype⟩ :=
        (hinv.edgeProps_isSome hok.source hok.target hok.type).mp hsome
      refine ⟨p, hp, ?_⟩
      unfold Connects at hconnects ⊢
      rw [hsource, htarget, htype]
      simpa only [nodeName_merge, nodeName_mergeNodes h] using hconnects
    · have hok := h.builtSrc.typed.edges q hq
      have hs := inI64_remapEndpoint h.remap_range.2 hok.source
      have ht := inI64_remapEndpoint h.remap_range.2 hok.target
      have hsome : (edgeProps (cbmGbufMerge dst src)
          (remapEndpoint (mergeNodes dst src).2 (src.edgeAt q).sourceId)
          (remapEndpoint (mergeNodes dst src).2 (src.edgeAt q).targetId)
          (src.edgeAt q).type).isSome = true := by
        rw [edgeProps_merge h hs ht hok.type, isSome_mergedProps]
        exact Or.inr ⟨q, hq, rfl, rfl, rfl⟩
      obtain ⟨p, hp, hsource, htarget, htype⟩ :=
        (hinv.edgeProps_isSome hs ht hok.type).mp hsome
      refine ⟨p, hp, ?_⟩
      unfold Connects at hconnects ⊢
      rw [hsource, htarget, htype]
      simpa only [nodeName_merge, nodeName_remapEndpoint h] using hconnects

theorem Mergeable.isUnion (h : Mergeable dst src) :
    IsUnion (cbmGbufMerge dst src) dst src (DstName dst src) (SrcName dst src) := by
  have hm := nodesMerged_mergeNodes h
  have hpassed := passed_nodeCount h.builtSrc.named
  have hinv := h.typedInv_merge.keyInv
  have hnodeAt := nodeAt_of_nodePart (nodePart_merge dst src)
  refine ⟨h.names, ?_, ?_, h.edges_iff, ?_, ?_⟩
  · intro qn s hs
    rw [find_merge, hnodeAt]
    exact hm.copied qn s ((hpassed qn s).mpr hs)
  · intro qn p hp hnone
    rw [find_merge, hnodeAt]
    refine ⟨(hm.kept qn p hp).1, hm.others qn p hp fun s hs => ?_⟩
    rw [(hpassed qn s).mp hs] at hnone
    exact absurd hnone (by simp)
  · intro a b type p l₁ q l₂ hp hconnects hsplit hq hne hlast
    have hok := hinv.typed p hp
    have hprops := hinv.edgeProps_eq hp
    rw [edgeProps_merge h hok.source hok.target hok.type, hsplit,
      mergedProps_last _ ((h.hits_iff hconnects q).mpr hq) hne
        (fun r hr hhit => hlast r hr ((h.hits_iff hconnects r).mp hhit))] at hprops
    exact (Option.some.inj hprops).symm
  · intro a b type p d hp hconnects hd hdst hempty
    obtain ⟨hedges, hat⟩ := edges_mergeNodes dst src
    have hok := hinv.typed p hp
    have hprops := hinv.edgeProps_eq hp
    -- `d` is the edge of `dst` with the endpoints of `p`
    have hsame : (dst.edgeAt d).sourceId = ((cbmGbufMerge dst src).edgeAt p).sourceId ∧
        (dst.edgeAt d).targetId = ((cbmGbufMerge dst src).edgeAt p).targetId ∧
        (dst.edgeAt d).type = ((cbmGbufMerge dst src).edgeAt p).type := by
      obtain ⟨ha, hb, htype⟩ := hconnects
      obtain ⟨ha', hb', htype'⟩ := hdst
      rw [nodeName_merge] at ha hb
      rw [← nodeName_mergeNodes h] at ha' hb'
      exact ⟨ha'.id_eq ha, hb'.id_eq hb, htype'.trans htype.symm⟩
    have hold := h.typedInv_mergeNodes.keyInv.edgeProps_eq (p := d) (by rw [hedges]; exact hd)
    rw [hat, hsame.1, hsame.2.1, hsame.2.2] at hold
    rw [edgeProps_merge h hok.source hok.target hok.type, hold, mergedProps_empty
      (fun q hq hhit => hempty q hq ((h.hits_iff hconnects q).mp hhit))] at hprops
    exact (Option.some.inj hprops).symm

end Union

/-- The merge of two buffers that were built by upserts, edge inserts and
deletes, and whose nodes have different ids. -/
theorem merge_isUnion {dst src : Gbuf} (hdst : Reachable BuiltOp dst) (hsrc : Reachable BuiltOp src)
    (hapart : ∀ p q, Found dst p → Found src q → (dst.nodeAt p).id ≠ (src.nodeAt q).id)
    (hvisited : ∀ s, s ∈ cbmGbufForeachNode src → Found src s) :
    IsUnion (cbmGbufMerge dst src) dst src (DstName dst src) (SrcName dst src) :=
  Mergeable.isUnion
    ⟨builtInv_of_reachable hdst, builtInv_of_reachable hsrc, hapart, hvisited⟩

/-- An upsert of the function `qn`. -/
def upsertFunction (qn : String) : Op :=
  .upsert (some (bytesOf "Function")) (some (bytesOf qn)) (bytesOf qn) (some (bytesOf "f")) 1 2
    none

/-- A call between two nodes. -/
def insertCall (src tgt : Int) : Op :=
  .insertEdge src tgt (bytesOf "CALLS") none

/-- A buffer with the functions `a` and `b`, which have the ids 1 and 2. -/
def twoFunctions : Gbuf :=
  ((cbmGbufNew [] (some 1)).step (upsertFunction "a")).step (upsertFunction "b")

/-- A worker that has `b` as well, and a function `c` that `b` calls. -/
def overlapping : Gbuf :=
  (((cbmGbufNew [] (some 3)).step (upsertFunction "b")).step (upsertFunction "c")).step
    (insertCall 3 4)

/-- A worker that has resolved a call from node 1 to node 2. -/
def edgeOnly : Gbuf :=
  (cbmGbufNew [] (some 3)).step (insertCall 1 2)

theorem builtOp_upsertFunction {g : Gbuf} (qn : String) (hid : InI64 g.idMark) :
    BuiltOp g (upsertFunction qn) :=
  ⟨hid, by simp [upsertFunction]⟩

theorem builtOp_insertCall (g : Gbuf) {src tgt : Int} (hsrc : InI64 src) (htgt : InI64 tgt) :
    BuiltOp g (insertCall src tgt) :=
  ⟨⟨hsrc, htgt, by decide⟩, by simp [insertCall]⟩

theorem reachable_twoFunctions : Reachable BuiltOp twoFunctions :=
  Reachable.step (Reachable.step ⟨[], some 1, Run.refl⟩ (builtOp_upsertFunction "a" (by decide)))
    (builtOp_upsertFunction "b" (by decide))

theorem reachable_overlapping : Reachable BuiltOp overlapping :=
  Reachable.step (Reachable.step (Reachable.step ⟨[], some 3, Run.refl⟩
    (builtOp_upsertFunction "b" (by decide))) (builtOp_upsertFunction "c" (by decide)))
    (builtOp_insertCall _ (by decide) (by decide))

theorem reachable_edgeOnly : Reachable BuiltOp edgeOnly :=
  Reachable.step ⟨[], some 3, Run.refl⟩ (builtOp_insertCall _ (by decide) (by decide))

theorem apart_overlapping (p q : Nat) (hp : Found twoFunctions p) (hq : Found overlapping q) :
    (twoFunctions.nodeAt p).id ≠ (overlapping.nodeAt q).id := by
  have hdst := builtInv_of_reachable reachable_twoFunctions
  have hsrc := builtInv_of_reachable reachable_overlapping
  have hlt : (twoFunctions.nodeAt p).id < 3 := hdst.ids.below p (hdst.named.lt hp)
  have hq2 : q < 2 := hsrc.named.lt hq
  have hge : ∀ r, r < 2 → 3 ≤ (overlapping.nodeAt r).id := by decide +kernel
  exact ne_of_lt (lt_of_lt_of_le hlt (hge q hq2))

theorem visited_overlapping (s : Nat) (hs : s ∈ cbmGbufForeachNode overlapping) :
    Found overlapping s := by
  have hs2 : s < 2 := ((mem_foreachNode overlapping s).mp hs).1
  have hnames : ∀ r, r < 2 → ∃ qn ∈ [bytesOf "b", bytesOf "c"],
      overlapping.nodeByQn.lookup qn = some r := by decide +kernel
  obtain ⟨qn, -, hqn⟩ := hnames s hs2
  exact ⟨qn, hqn⟩

theorem isUnion_overlapping :
    (∀ p q, Found twoFunctions p → Found overlapping q →
      (twoFunctions.nodeAt p).id ≠ (overlapping.nodeAt q).id) ∧
    (∀ s, s ∈ cbmGbufForeachNode overlapping → Found overlapping s) ∧
    IsUnion (cbmGbufMerge twoFunctions overlapping) twoFunctions overlapping
      (DstName twoFunctions overlapping) (SrcName twoFunctions overlapping) :=
  ⟨apart_overlapping, visited_overlapping, merge_isUnion reachable_twoFunctions
    reachable_overlapping apart_overlapping visited_overlapping⟩

theorem not_found_edgeOnly (q : Nat) : ¬ Found edgeOnly q := by
  rintro ⟨qn, hqn⟩
  have hempty : edgeOnly.nodeByQn = ∅ := rfl
  rw [cbmGbufFindByQn, hempty] at hqn
  exact absurd hqn (by simp)

/-- The merge has the worker's call, which joins no two nodes of either
buffer. -/
theorem not_isUnion_edgeOnly :
    Reachable BuiltOp twoFunctions ∧ Reachable BuiltOp edgeOnly ∧
    (∀ p q, Found twoFunctions p → Found edgeOnly q →
      (twoFunctions.nodeAt p).id ≠ (edgeOnly.nodeAt q).id) ∧
    ¬ IsUnion (cbmGbufMerge twoFunctions edgeOnly) twoFunctions edgeOnly
      (NodeName twoFunctions) (NodeName edgeOnly) := by
  refine ⟨reachable_twoFunctions, reachable_edgeOnly,
    fun _ q _ hq => absurd hq (not_found_edgeOnly q), fun h => ?_⟩
  have hcall : ∃ p, p ∈ (cbmGbufMerge twoFunctions edgeOnly).edges ∧
      Connects (NodeName (cbmGbufMerge twoFunctions edgeOnly))
        ((cbmGbufMerge twoFunctions edgeOnly).edgeAt p) (bytesOf "a") (bytesOf "b")
        (bytesOf "CALLS") :=
    ⟨0, by decide +kernel, ⟨0, by decide +kernel, by decide +kernel⟩,
      ⟨1, by decide +kernel, by decide +kernel⟩, by decide +kernel⟩
  rcases (h.edges _ _ _).mp hcall with ⟨p, hp, -⟩ | ⟨p, -, ⟨s, hs, -⟩, -⟩
  · exact absurd hp List.not_mem_nil
  · exact not_found_edgeOnly s ⟨_, hs⟩

end GraphBuffer
end CodebaseMemory
