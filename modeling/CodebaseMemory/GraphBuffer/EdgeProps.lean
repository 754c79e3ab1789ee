import CodebaseMemory.GraphBuffer.Edges

/-!
# Edges by triples

`edgeProps g` are the properties of the edge with a given source, target and
type.  An insert changes them for its own triple only; the edge loop of a merge
is a sequence of inserts.
-/

namespace CodebaseMemory
namespace GraphBuffer

open Lib
open Sqlite (CStr bytesOf)

/-- The dedup table is exact, and edges are in range.  Unlike `EdgeInv` this
does not depend on the ids of edges. -/
structure KeyInv (g : Gbuf) : Prop where
  bound : ∀ p, p ∈ g.edges → p < g.edgeCount
  byKey : Maps g.edgeByKey (fun p => (g.edgeAt p).key) (· ∈ g.edges)
  typed : ∀ p, p ∈ g.edges → EdgeOk (g.edgeAt p)

theorem TypedInv.keyInv {g : Gbuf} (h : TypedInv g) : KeyInv g :=
  ⟨h.edges.bound, h.edges.indexed.byKey, h.typed.edges⟩

theorem KeyInv.congr {g g' : Gbuf} (h : KeyInv g) (hpart : g'.edgePart = g.edgePart) :
    KeyInv g' := by
  have hcount : g'.edgeCount = g.edgeCount := congrArg EdgePart.edgeCount hpart
  have hat : g'.edgeAt = g.edgeAt := congrArg EdgePart.edgeAt hpart
  have hedges : g'.edges = g.edges := congrArg EdgePart.edges hpart
  have hkey : g'.edgeByKey = g.edgeByKey := congrArg EdgePart.edgeByKey hpart
  refine ⟨?_, ?_, ?_⟩
  · rw [hedges, hcount]
    exact h.bound
  · rw [hkey, hat, hedges]
    exact h.byKey
  · rw [hedges, hat]
    exact h.typed

theorem KeyInv.setEdge {g : Gbuf} (h : KeyInv g) (p : Nat) (props : CStr) :
    KeyInv (setEdge g p ((g.edgeAt p).withProperties props)) := by
  refine ⟨h.bound, ?_, ?_⟩
  · exact h.byKey.congr (fun _ => Iff.rfl)
      (fun q _ => edgeField_setEdge Edge.key (fun _ _ => rfl) g p props q)
  · intro q hq
    have hok := h.typed q hq
    refine ⟨?_, ?_, ?_⟩
    · rw [edgeField_setEdge Edge.type (fun _ _ => rfl)]
      exact hok.type
    · rw [edgeField_setEdge Edge.sourceId (fun _ _ => rfl)]
      exact hok.source
    · rw [edgeField_setEdge Edge.targetId (fun _ _ => rfl)]
      exact hok.target

theorem KeyInv.pushEdge {g : Gbuf} (h : KeyInv g) {e : Edge}
    (hnew : g.edgeByKey.lookup e.key = none) (hok : EdgeOk e) : KeyInv (pushEdge g e) := by
  have hmem : ∀ p, p ∈ (GraphBuffer.pushEdge g e).edges ↔ p ∈ g.edges ∨ p = g.edgeCount := by
    intro p
    exact List.mem_append.trans (or_congr_right List.mem_singleton)
  have hold : ∀ p, p ∈ g.edges → (GraphBuffer.pushEdge g e).edgeAt p = g.edgeAt p := by
    intro p hp
    rw [edgeAt_pushEdge, if_neg (Nat.ne_of_lt (h.bound p hp))]
  have hself : (GraphBuffer.pushEdge g e).edgeAt g.edgeCount = e := by
    rw [edgeAt_pushEdge, if_pos rfl]
  refine ⟨?_, ?_, ?_⟩
  · intro p hp
    rcases (hmem p).mp hp with hp | rfl
    · exact Nat.lt_succ_of_lt (h.bound p hp)
    · exact Nat.lt_succ_self _
  · have hkeys : Maps g.edgeByKey (fun p => ((GraphBuffer.pushEdge g e).edgeAt p).key)
        (· ∈ g.edges) :=
      h.byKey.congr (fun _ => Iff.rfl) (fun p hp => congrArg Edge.key (hold p hp))
    have hinsert := hkeys.insert (x := g.edgeCount) (by rw [hself]; exact hnew)
    rw [hself] at hinsert
    exact hinsert.congr hmem (fun _ _ => rfl)
  · intro p hp
    rcases (hmem p).mp hp with hp | rfl
    · rw [hold p hp]
      exact h.typed p hp
    · rw [hself]
      exact hok

theorem KeyInv.insertEdge {g : Gbuf} (h : KeyInv g) {src tgt : Int} {type : CStr}
    (properties : Option CStr) (hsrc : InI64 src) (htgt : InI64 tgt) (htype : type.length ≤ 80) :
    KeyInv (cbmGbufInsertEdge g src tgt type properties).1 := by
  rcases insertEdge_cases g src tgt type properties with ⟨p, -, hset⟩ | ⟨hnew, hadd⟩
  · rw [hset]
    exact h.setEdge p _
  · rw [hadd]
    refine (h.congr (edgePart_allocNextId g)).pushEdge ?_ ⟨htype, hsrc, htgt⟩
    rw [edgeByKey_allocNextId]
    exact hnew

/-- The properties of the edge with these endpoints and this type, if there is
one. -/
def edgeProps (g : Gbuf) (src tgt : Int) (type : CStr) : Option CStr :=
  (g.edgeByKey.lookup (makeEdgeKey src tgt type)).map (fun p => (g.edgeAt p).propertiesJson)

theorem edgeProps_of_edgePart {g g' : Gbuf} (hpart : g'.edgePart = g.edgePart) {src tgt : Int}
    {type : CStr} : edgeProps g' src tgt type = edgeProps g src tgt type := by
  have hkey : g'.edgeByKey = g.edgeByKey := congrArg EdgePart.edgeByKey hpart
  have hat : g'.edgeAt = g.edgeAt := congrArg EdgePart.edgeAt hpart
  rw [edgeProps, edgeProps, hkey, hat]

/-- The edge has these endpoints and this type. -/
def Edge.Joins (e : Edge) (src tgt : Int) (type : CStr) : Prop :=
  e.sourceId = src ∧ e.targetId = tgt ∧ e.type = type

section EdgeLoop

variable {g : Gbuf} {src tgt : Int} {type : CStr}

theorem KeyInv.joins_iff (h : KeyInv g) (hsrc : InI64 src) (htgt : InI64 tgt)
    (htype : type.length ≤ 80) (p : Nat) :
    g.edgeByKey.lookup (makeEdgeKey src tgt type) = some p ↔
      p ∈ g.edges ∧ (g.edgeAt p).Joins src tgt type := by
  refine (h.byKey _ p).trans (and_congr_right fun hp => ?_)
  have hok := h.typed p hp
  constructor
  · exact edgeKey_inj hok.source hok.target hok.type hsrc htgt htype
  · rintro ⟨rfl, rfl, rfl⟩
    rfl

theorem KeyInv.edgeProps_eq (h : KeyInv g) {p : Nat} (hp : p ∈ g.edges) :
    edgeProps g (g.edgeAt p).sourceId (g.edgeAt p).targetId (g.edgeAt p).type =
      some (g.edgeAt p).propertiesJson := by
  have hlookup := (h.byKey (g.edgeAt p).key p).mpr ⟨hp, rfl⟩
  exact congrArg (Option.map fun q => (g.edgeAt q).propertiesJson) hlookup

theorem KeyInv.edgeProps_isSome (h : KeyInv g) (hsrc : InI64 src) (htgt : InI64 tgt)
    (htype : type.length ≤ 80) :
    (edgeProps g src tgt type).isSome = true ↔
      ∃ p, p ∈ g.edges ∧ (g.edgeAt p).Joins src tgt type := by
  rw [edgeProps, Option.isSome_map, Option.isSome_iff_exists]
  exact exists_congr (h.joins_iff hsrc htgt htype)

theorem mergedProperties_emptyObject (properties : Option CStr) :
    mergedProperties emptyObject properties = heapStrdup properties := by
  cases properties with
  | none => rfl
  | some props =>
      unfold mergedProperties
      dsimp only
      split
      · next hempty => exact hempty.symm
      · rfl

theorem edgeProps_insertEdge (h : KeyInv g) {src' tgt' : Int} {type' : CStr}
    (properties : Option CStr) (hsrc : InI64 src) (htgt : InI64 tgt) (htype : type.length ≤ 80)
    (hsrc' : InI64 src') (htgt' : InI64 tgt') (htype' : type'.length ≤ 80) :
    edgeProps (cbmGbufInsertEdge g src tgt type properties).1 src' tgt' type' =
      if src = src' ∧ tgt = tgt' ∧ type = type' then
        some (mergedProperties ((edgeProps g src' tgt' type').getD emptyObject) properties)
      else edgeProps g src' tgt' type' := by
  have hkeys : ¬ (src = src' ∧ tgt = tgt' ∧ type = type') →
      makeEdgeKey src' tgt' type' ≠ makeEdgeKey src tgt type := by
    intro hne hkey
    exact hne (edgeKey_inj hsrc htgt htype hsrc' htgt' htype' hkey.symm)
  rcases insertEdge_cases g src tgt type properties with ⟨p, hp, hset⟩ | ⟨hnew, hadd⟩
  · rw [hset]
    by_cases hsame : src = src' ∧ tgt = tgt' ∧ type = type'
    · rw [if_pos hsame]
      obtain ⟨rfl, rfl, rfl⟩ := hsame
      have hlookup : (setEdge g p ((g.edgeAt p).withProperties
          (mergedProperties (g.edgeAt p).propertiesJson properties))).edgeByKey.lookup
          (makeEdgeKey src tgt type) = some p := hp
      rw [edgeProps, edgeProps, hlookup, hp, Option.map_some, Option.map_some, Option.getD_some,
        edgeAt_setEdge, if_pos rfl]
      rfl
    · rw [if_neg hsame]
      change Option.map _ (g.edgeByKey.lookup (makeEdgeKey src' tgt' type')) = _
      unfold edgeProps
      cases hlookup : g.edgeByKey.lookup (makeEdgeKey src' tgt' type') with
      | none => rfl
      | some q =>
          have hqp : q ≠ p := by
            rintro rfl
            have hq := ((h.byKey _ q).mp hlookup).2
            exact hkeys hsame (hq.symm.trans ((h.byKey _ q).mp hp).2)
          rw [Option.map_some, Option.map_some, edgeAt_setEdge, if_neg hqp]
  · have htable : (pushEdge (allocNextId g).2 (newEdge g src tgt type properties)).edgeByKey =
        g.edgeByKey.insert (makeEdgeKey src tgt type) g.edgeCount := by
      rw [← edgeByKey_allocNextId g, ← edgeCount_allocNextId g]
      rfl
    rw [hadd]
    by_cases hsame : src = src' ∧ tgt = tgt' ∧ type = type'
    · rw [if_pos hsame]
      obtain ⟨rfl, rfl, rfl⟩ := hsame
      rw [edgeProps, edgeProps, htable, hnew, AList.lookup_insert, Option.map_some, Option.map_none,
        Option.getD_none, edgeAt_addedEdge, if_pos rfl]
      exact congrArg some (mergedProperties_emptyObject properties).symm
    · rw [if_neg hsame]
      unfold edgeProps
      rw [htable, AList.lookup_insert_ne (hkeys hsame)]
      cases hlookup : g.edgeByKey.lookup (makeEdgeKey src' tgt' type') with
      | none => rfl
      | some q =>
          have hq := h.bound q ((h.byKey _ q).mp hlookup).1
          rw [Option.map_some, Option.map_some, edgeAt_addedEdge, if_neg (Nat.ne_of_lt hq)]

end EdgeLoop

/-- What an edge of `src` makes of the properties of a triple, if it hits it. -/
def mergedProps (src : Gbuf) (hit : Nat → Prop) [DecidablePred hit] (props : Option CStr)
    (q : Nat) : Option CStr :=
  if hit q then
    some (mergedProperties (props.getD emptyObject) (some (src.edgeAt q).propertiesJson))
  else props

section MergedProps

variable {src : Gbuf} {hit : Nat → Prop} [DecidablePred hit]

theorem isSome_mergedProps (ps : List Nat) :
    ∀ props : Option CStr, (ps.foldl (mergedProps src hit) props).isSome = true ↔
      props.isSome = true ∨ ∃ q, q ∈ ps ∧ hit q := by
  induction ps with
  | nil => simp
  | cons q ps ih =>
      intro props
      rw [List.foldl_cons, ih, mergedProps]
      by_cases hq : hit q
      · rw [if_pos hq, Option.isSome_some]
        exact iff_of_true (Or.inl rfl) (Or.inr ⟨q, List.mem_cons_self, hq⟩)
      · rw [if_neg hq]
        simp [hq]

theorem mergedProps_empty {ps : List Nat} {props : CStr}
    (h : ∀ q, q ∈ ps → hit q → (src.edgeAt q).propertiesJson = emptyObject) :
    ps.foldl (mergedProps src hit) (some props) = some props := by
  induction ps with
  | nil => rfl
  | cons q ps ih =>
      have hstep : mergedProps src hit (some props) q = some props := by
        unfold mergedProps
        by_cases hq : hit q
        · rw [if_pos hq, mergedProperties, if_pos (h q List.mem_cons_self hq), Option.getD_some]
        · rw [if_neg hq]
      rw [List.foldl_cons, hstep]
      exact ih (fun r hr => h r (List.mem_cons_of_mem q hr))

theorem mergedProps_last {l₁ l₂ : List Nat} {q : Nat} (props : Option CStr) (hq : hit q)
    (hne : (src.edgeAt q).propertiesJson ≠ emptyObject)
    (h : ∀ r, r ∈ l₂ → hit r → (src.edgeAt r).propertiesJson = emptyObject) :
    (l₁ ++ q :: l₂).foldl (mergedProps src hit) props = some (src.edgeAt q).propertiesJson := by
  rw [List.foldl_append, List.foldl_cons]
  generalize l₁.foldl (mergedProps src hit) props = props'
  rw [mergedProps, if_pos hq, mergedProperties, if_neg hne]
  exact mergedProps_empty h

end MergedProps

/-- The remapped edge `q` of `src` has these endpoints and this type. -/
abbrev Hits (src : Gbuf) (remap : Table CStr Int) (a b : Int) (type : CStr) (q : Nat) : Prop :=
  remapEndpoint remap (src.edgeAt q).sourceId = a ∧
    remapEndpoint remap (src.edgeAt q).targetId = b ∧ (src.edgeAt q).type = type

theorem edgeProps_mergeRemapEdges {src : Gbuf} {remap : Table CStr Int} {a b : Int} {type : CStr}
    (hsrc : ∀ p, p ∈ src.edges → EdgeOk (src.edgeAt p))
    (hremap : ∀ key id, remap.lookup key = some id → InI64 id)
    (ha : InI64 a) (hb : InI64 b) (htype : type.length ≤ 80) (ps : List Nat) :
    ∀ g : Gbuf, KeyInv g → (∀ p, p ∈ ps → p ∈ src.edges) →
      edgeProps (ps.foldl (mergeEdge src remap) g) a b type =
        ps.foldl (mergedProps src (Hits src remap a b type)) (edgeProps g a b type) := by
  induction ps with
  | nil => exact fun g _ _ => rfl
  | cons p ps ih =>
      intro g hg hps
      have hp := hsrc p (hps p List.mem_cons_self)
      have hs := inI64_remapEndpoint hremap hp.source
      have ht := inI64_remapEndpoint hremap hp.target
      have hstep : KeyInv (mergeEdge src remap g p) := hg.insertEdge _ hs ht hp.type
      rw [List.foldl_cons, List.foldl_cons,
        ih _ hstep (fun q hq => hps q (List.mem_cons_of_mem p hq))]
      congr 1
      exact edgeProps_insertEdge hg _ hs ht hp.type ha hb htype

theorem KeyInv.mergeRemapEdges {src : Gbuf} {remap : Table CStr Int}
    (hsrc : ∀ p, p ∈ src.edges → EdgeOk (src.edgeAt p))
    (hremap : ∀ key id, remap.lookup key = some id → InI64 id) (ps : List Nat) :
    ∀ g : Gbuf, KeyInv g → (∀ p, p ∈ ps → p ∈ src.edges) →
      KeyInv (ps.foldl (mergeEdge src remap) g) := by
  induction ps with
  | nil => exact fun g hg _ => hg
  | cons p ps ih =>
      intro g hg hps
      have hp := hsrc p (hps p List.mem_cons_self)
      refine ih _ ?_ (fun q hq => hps q (List.mem_cons_of_mem p hq))
      exact hg.insertEdge _ (inI64_remapEndpoint hremap hp.source)
        (inI64_remapEndpoint hremap hp.target) hp.type

end GraphBuffer
end CodebaseMemory
