import CodebaseMemory.GraphBuffer.NodeTables

/-!
# The edge tables

The edge array, the dedup table and the three bucket tables.  `EdgeIndexed g S`
says that the tables of `g` hold exactly the edges in `S`, in terms of their
string keys; `EdgeInv` takes the edges of the array for `S`, and every run keeps
it, whatever the types and ids are.

The string keys identify an edge as long as they are not cut: `edgeKey_inj` and
`srcTypeKey_inj`.
-/

namespace CodebaseMemory
namespace GraphBuffer

open Lib
open Sqlite (CStr bytesOf)

variable {S : Nat → Prop}
variable {g : Gbuf}
variable {src : Int}
variable {type : CStr}

theorem makeEdgeKey_eq {tgt : Int} (hsrc : InI64 src) (htgt : InI64 tgt)
    (htype : type.length ≤ 80) :
    makeEdgeKey src tgt type = decimal src ++ 58 :: (decimal tgt ++ 58 :: type) := by
  have hs := length_decimal_le hsrc
  have ht := length_decimal_le htgt
  apply List.take_of_length_le
  simp only [List.length_append, List.length_cons]
  omega

theorem edgeKey_inj {tgt src' tgt' : Int} {type' : CStr} (hsrc : InI64 src) (htgt : InI64 tgt)
    (htype : type.length ≤ 80) (hsrc' : InI64 src') (htgt' : InI64 tgt')
    (htype' : type'.length ≤ 80) (h : makeEdgeKey src tgt type = makeEdgeKey src' tgt' type') :
    src = src' ∧ tgt = tgt' ∧ type = type' := by
  rw [makeEdgeKey_eq hsrc htgt htype, makeEdgeKey_eq hsrc' htgt' htype'] at h
  obtain ⟨hs, hrest⟩ := append_colon_inj (colon_not_mem_decimal src)
    (colon_not_mem_decimal src') h
  obtain ⟨ht, htype⟩ := append_colon_inj (colon_not_mem_decimal tgt)
    (colon_not_mem_decimal tgt') hrest
  exact ⟨decimal_injective hs, decimal_injective ht, htype⟩

theorem srcTypeKey_inj {src' : Int} {type' : CStr} (hsrc : InI64 src) (htype : type.length ≤ 80)
    (h : makeSrcTypeKey src type = makeSrcTypeKey src' type') : src = src' ∧ type = type' := by
  have hs := length_decimal_le hsrc
  have hleft : makeSrcTypeKey src type = decimal src ++ 58 :: type := by
    apply List.take_of_length_le
    simp only [List.length_append, List.length_cons]
    omega
  have hright : makeSrcTypeKey src' type' = decimal src' ++ 58 :: type' := by
    apply List.take_of_length_le
    by_contra hlong
    have hlen := congrArg List.length h
    rw [hleft, makeSrcTypeKey, List.length_take_of_le (by omega)] at hlen
    simp only [List.length_append, List.length_cons] at hlen
    omega
  rw [hleft, hright] at h
  obtain ⟨hid, htype⟩ := append_colon_inj (colon_not_mem_decimal src)
    (colon_not_mem_decimal src') h
  exact ⟨decimal_injective hid, htype⟩

/-- The fields of a buffer that hold edges. -/
structure EdgePart where
  edgeCount : Nat
  edgeAt : Nat → Edge
  edges : List Nat
  edgeByKey : Table CStr Nat
  edgesBySourceType : Table CStr (List Nat)
  edgesByTargetType : Table CStr (List Nat)
  edgesByType : Table CStr (List Nat)

/-- The edge fields of `g`. -/
def Gbuf.edgePart (g : Gbuf) : EdgePart :=
  { edgeCount := g.edgeCount
    edgeAt := g.edgeAt
    edges := g.edges
    edgeByKey := g.edgeByKey
    edgesBySourceType := g.edgesBySourceType
    edgesByTargetType := g.edgesByTargetType
    edgesByType := g.edgesByType }

/-- The tables hold exactly the edges in `S`. -/
structure EdgeIndexed (g : Gbuf) (S : Nat → Prop) : Prop where
  ids : ∀ p q, S p → S q → (g.edgeAt p).id = (g.edgeAt q).id → p = q
  byKey : Maps g.edgeByKey (fun p => (g.edgeAt p).key) S
  bySource : Indexes g.edgesBySourceType (fun p => (g.edgeAt p).sourceKey) S
  byTarget : Indexes g.edgesByTargetType (fun p => (g.edgeAt p).targetKey) S
  byType : Indexes g.edgesByType (fun p => (g.edgeAt p).type) S

theorem EdgeIndexed.congr {S' : Nat → Prop} (h : EdgeIndexed g S) (hS : ∀ p, S' p ↔ S p) :
    EdgeIndexed g S' where
  ids := fun p q hp hq => h.ids p q ((hS p).mp hp) ((hS q).mp hq)
  byKey := h.byKey.congr hS (fun _ _ => rfl)
  bySource := h.bySource.congr hS (fun _ _ => rfl)
  byTarget := h.byTarget.congr hS (fun _ _ => rfl)
  byType := h.byType.congr hS (fun _ _ => rfl)

/-- The next id a buffer hands out. -/
def Gbuf.idMark (g : Gbuf) : Int :=
  (allocNextId g).1

structure EdgeInv (g : Gbuf) : Prop where
  bound : ∀ p, p ∈ g.edges → p < g.edgeCount
  nodup : g.edges.Nodup
  fresh : ∀ p, p ∈ g.edges → (g.edgeAt p).id < g.idMark
  indexed : EdgeIndexed g (· ∈ g.edges)

theorem edgeInv_new (project : CStr) (shared : Option Int) :
    EdgeInv (cbmGbufNew project shared) where
  bound := fun _ hp => absurd hp List.not_mem_nil
  nodup := List.nodup_nil
  fresh := fun _ hp => absurd hp List.not_mem_nil
  indexed :=
    { ids := fun _ _ hp => absurd hp List.not_mem_nil
      byKey := (Maps.empty _).congr (fun _ => by simp [cbmGbufNew]) (fun _ _ => rfl)
      bySource := (Indexes.empty _).congr (fun _ => by simp [cbmGbufNew]) (fun _ _ => rfl)
      byTarget := (Indexes.empty _).congr (fun _ => by simp [cbmGbufNew]) (fun _ _ => rfl)
      byType := (Indexes.empty _).congr (fun _ => by simp [cbmGbufNew]) (fun _ _ => rfl) }

theorem EdgeInv.congr {g' : Gbuf} (h : EdgeInv g) (hpart : g'.edgePart = g.edgePart)
    (hmark : g.idMark ≤ g'.idMark) : EdgeInv g' := by
  have hcount : g'.edgeCount = g.edgeCount := congrArg EdgePart.edgeCount hpart
  have hat : g'.edgeAt = g.edgeAt := congrArg EdgePart.edgeAt hpart
  have hedges : g'.edges = g.edges := congrArg EdgePart.edges hpart
  have hkey : g'.edgeByKey = g.edgeByKey := congrArg EdgePart.edgeByKey hpart
  have hsource : g'.edgesBySourceType = g.edgesBySourceType :=
    congrArg EdgePart.edgesBySourceType hpart
  have htarget : g'.edgesByTargetType = g.edgesByTargetType :=
    congrArg EdgePart.edgesByTargetType hpart
  have htype : g'.edgesByType = g.edgesByType := congrArg EdgePart.edgesByType hpart
  refine ⟨?_, ?_, ?_, ⟨?_, ?_, ?_, ?_, ?_⟩⟩
  · rw [hedges, hcount]
    exact h.bound
  · rw [hedges]
    exact h.nodup
  · rw [hedges, hat]
    exact fun p hp => lt_of_lt_of_le (h.fresh p hp) hmark
  · rw [hedges, hat]
    exact h.indexed.ids
  · rw [hkey, hat, hedges]
    exact h.indexed.byKey
  · rw [hsource, hat, hedges]
    exact h.indexed.bySource
  · rw [htarget, hat, hedges]
    exact h.indexed.byTarget
  · rw [htype, hat, hedges]
    exact h.indexed.byType

theorem edgePart_allocNextId (g : Gbuf) : (allocNextId g).2.edgePart = g.edgePart := by
  unfold allocNextId
  cases g.sharedIds <;> rfl

theorem edges_allocNextId (g : Gbuf) : (allocNextId g).2.edges = g.edges :=
  congrArg EdgePart.edges (edgePart_allocNextId g)

theorem edgeAt_allocNextId (g : Gbuf) : (allocNextId g).2.edgeAt = g.edgeAt :=
  congrArg EdgePart.edgeAt (edgePart_allocNextId g)

theorem edgeCount_allocNextId (g : Gbuf) : (allocNextId g).2.edgeCount = g.edgeCount :=
  congrArg EdgePart.edgeCount (edgePart_allocNextId g)

theorem edgeByKey_allocNextId (g : Gbuf) : (allocNextId g).2.edgeByKey = g.edgeByKey :=
  congrArg EdgePart.edgeByKey (edgePart_allocNextId g)

theorem idMark_allocNextId (g : Gbuf) : (allocNextId g).2.idMark = g.idMark + 1 := by
  unfold Gbuf.idMark allocNextId
  cases g.sharedIds with
  | none => simp
  | some id => simp

theorem idMark_of_ids {g' : Gbuf} (hnext : g'.nextId = g.nextId)
    (hshared : g'.sharedIds = g.sharedIds) : g'.idMark = g.idMark := by
  unfold Gbuf.idMark allocNextId
  rw [hshared]
  cases g.sharedIds with
  | none => exact hnext
  | some id => rfl

/-- The edge that `cbm_gbuf_insert_edge` makes. -/
def newEdge (g : Gbuf) (src tgt : Int) (type : CStr) (properties : Option CStr) : Edge :=
  { id := g.idMark, sourceId := src, targetId := tgt, type := type,
    propertiesJson := heapStrdup properties }

def Edge.withProperties (e : Edge) (props : CStr) : Edge :=
  { e with propertiesJson := props }

theorem insertEdge_cases (g : Gbuf) (src tgt : Int) (type : CStr) (properties : Option CStr) :
    (∃ p, g.edgeByKey.lookup (makeEdgeKey src tgt type) = some p ∧
      (cbmGbufInsertEdge g src tgt type properties).1 = setEdge g p
        ((g.edgeAt p).withProperties
          (mergedProperties (g.edgeAt p).propertiesJson properties))) ∨
    (g.edgeByKey.lookup (makeEdgeKey src tgt type) = none ∧
      (cbmGbufInsertEdge g src tgt type properties).1 =
        pushEdge (allocNextId g).2 (newEdge g src tgt type properties)) := by
  unfold cbmGbufInsertEdge
  cases hlookup : g.edgeByKey.lookup (makeEdgeKey src tgt type) with
  | some p => exact Or.inl ⟨p, rfl, rfl⟩
  | none => exact Or.inr ⟨rfl, rfl⟩

theorem edgeAt_setEdge (g : Gbuf) (p q : Nat) (e : Edge) :
    (setEdge g p e).edgeAt q = if q = p then e else g.edgeAt q :=
  Function.update_apply g.edgeAt p e q

theorem edgeAt_pushEdge (g : Gbuf) (e : Edge) (q : Nat) :
    (pushEdge g e).edgeAt q = if q = g.edgeCount then e else g.edgeAt q :=
  Function.update_apply g.edgeAt g.edgeCount e q

theorem edges_addedEdge (g : Gbuf) (e : Edge) :
    (pushEdge (allocNextId g).2 e).edges = g.edges ++ [g.edgeCount] := by
  rw [← edges_allocNextId g, ← edgeCount_allocNextId g]
  rfl

theorem edgeAt_addedEdge (g : Gbuf) (e : Edge) (q : Nat) :
    (pushEdge (allocNextId g).2 e).edgeAt q = if q = g.edgeCount then e else g.edgeAt q := by
  rw [edgeAt_pushEdge, edgeCount_allocNextId, edgeAt_allocNextId]

theorem edgesBySourceType_pushEdge (g : Gbuf) (e : Edge) :
    (pushEdge g e).edgesBySourceType = pushBucket g.edgesBySourceType e.sourceKey g.edgeCount := by
  simp only [pushEdge, registerEdgeInIndexes, Function.update_self]

theorem edgesByTargetType_pushEdge (g : Gbuf) (e : Edge) :
    (pushEdge g e).edgesByTargetType = pushBucket g.edgesByTargetType e.targetKey g.edgeCount := by
  simp only [pushEdge, registerEdgeInIndexes, Function.update_self]

theorem edgesByType_pushEdge (g : Gbuf) (e : Edge) :
    (pushEdge g e).edgesByType = pushBucket g.edgesByType e.type g.edgeCount := by
  simp only [pushEdge, registerEdgeInIndexes, Function.update_self]

theorem edgeField_setEdge {α : Type} (f : Edge → α) (hf : ∀ e s, f (Edge.withProperties e s) = f e)
    (g : Gbuf) (p : Nat) (props : CStr) (q : Nat) :
    f ((setEdge g p ((g.edgeAt p).withProperties props)).edgeAt q) = f (g.edgeAt q) := by
  rw [edgeAt_setEdge]
  by_cases hq : q = p
  · rw [if_pos hq, hf, hq]
  · rw [if_neg hq]

theorem EdgeIndexed.setEdge (h : EdgeIndexed g S) (p : Nat) (props : CStr) :
    EdgeIndexed (setEdge g p ((g.edgeAt p).withProperties props)) S where
  ids := by
    intro q r hq hr hid
    rw [edgeField_setEdge Edge.id (fun _ _ => rfl), edgeField_setEdge Edge.id (fun _ _ => rfl)]
      at hid
    exact h.ids q r hq hr hid
  byKey := h.byKey.congr (fun _ => Iff.rfl)
    (fun q _ => edgeField_setEdge Edge.key (fun _ _ => rfl) g p props q)
  bySource := h.bySource.congr (fun _ => Iff.rfl)
    (fun q _ => edgeField_setEdge Edge.sourceKey (fun _ _ => rfl) g p props q)
  byTarget := h.byTarget.congr (fun _ => Iff.rfl)
    (fun q _ => edgeField_setEdge Edge.targetKey (fun _ _ => rfl) g p props q)
  byType := h.byType.congr (fun _ => Iff.rfl)
    (fun q _ => edgeField_setEdge Edge.type (fun _ _ => rfl) g p props q)

theorem indexes_pushEdge {t : Table CStr (List Nat)} {key : Edge → CStr}
    (hbound : ∀ p, p ∈ g.edges → p < g.edgeCount)
    (h : Indexes t (fun p => key (g.edgeAt p)) (· ∈ g.edges)) (e : Edge) :
    Indexes (pushBucket t (key e) g.edgeCount) (fun p => key ((pushEdge g e).edgeAt p))
      (· ∈ (pushEdge g e).edges) := by
  have hfresh : g.edgeCount ∉ g.edges := fun hp => Nat.lt_irrefl _ (hbound _ hp)
  have hself : key ((pushEdge g e).edgeAt g.edgeCount) = key e := by
    rw [edgeAt_pushEdge, if_pos rfl]
  have hold : ∀ p, p ∈ g.edges → key ((pushEdge g e).edgeAt p) = key (g.edgeAt p) := by
    intro p hp
    rw [edgeAt_pushEdge, if_neg (Nat.ne_of_lt (hbound p hp))]
  have hpush := (h.congr (fun _ => Iff.rfl) hold).push hfresh
  rw [hself] at hpush
  refine hpush.congr (fun p => ?_) (fun _ _ => rfl)
  change p ∈ g.edges ++ [g.edgeCount] ↔ _
  rw [List.mem_append, List.mem_singleton]

theorem EdgeInv.pushEdge (h : EdgeInv g) {e : Edge} (hnew : g.edgeByKey.lookup e.key = none)
    (hid : ∀ p, p ∈ g.edges → (g.edgeAt p).id ≠ e.id) (hmark : e.id < g.idMark) :
    EdgeInv (pushEdge g e) := by
  have hfresh : g.edgeCount ∉ g.edges := fun hp => Nat.lt_irrefl _ (h.bound _ hp)
  have hold : ∀ p, p ∈ g.edges → (GraphBuffer.pushEdge g e).edgeAt p = g.edgeAt p := by
    intro p hp
    rw [edgeAt_pushEdge, if_neg (Nat.ne_of_lt (h.bound p hp))]
  have hself : (GraphBuffer.pushEdge g e).edgeAt g.edgeCount = e := by
    rw [edgeAt_pushEdge, if_pos rfl]
  have hmem : ∀ p, p ∈ (GraphBuffer.pushEdge g e).edges ↔ p ∈ g.edges ∨ p = g.edgeCount := by
    intro p
    change p ∈ g.edges ++ [g.edgeCount] ↔ _
    rw [List.mem_append, List.mem_singleton]
  refine ⟨?_, ?_, ?_, ⟨?_, ?_, ?_, ?_, ?_⟩⟩
  · intro p hp
    change p < g.edgeCount + 1
    rcases (hmem p).mp hp with hp | rfl
    · exact Nat.lt_succ_of_lt (h.bound p hp)
    · exact Nat.lt_succ_self _
  · refine List.Nodup.append h.nodup (List.nodup_singleton _) ?_
    intro p hp hpc
    rw [List.mem_singleton.mp hpc] at hp
    exact hfresh hp
  · intro p hp
    rw [show (GraphBuffer.pushEdge g e).idMark = g.idMark from idMark_of_ids rfl rfl]
    rcases (hmem p).mp hp with hp | rfl
    · rw [hold p hp]
      exact h.fresh p hp
    · rw [hself]
      exact hmark
  · intro p q hp hq hpq
    rcases (hmem p).mp hp with hp | rfl
    · rcases (hmem q).mp hq with hq | rfl
      · rw [hold p hp, hold q hq] at hpq
        exact h.indexed.ids p q hp hq hpq
      · rw [hold p hp, hself] at hpq
        exact absurd hpq (hid p hp)
    · rcases (hmem q).mp hq with hq | rfl
      · rw [hself, hold q hq] at hpq
        exact absurd hpq.symm (hid q hq)
      · rfl
  · have hkeys : Maps g.edgeByKey (fun p => ((GraphBuffer.pushEdge g e).edgeAt p).key)
        (· ∈ g.edges) :=
      h.indexed.byKey.congr (fun _ => Iff.rfl) (fun p hp => congrArg Edge.key (hold p hp))
    have hinsert := hkeys.insert (x := g.edgeCount) (by rw [hself]; exact hnew)
    rw [hself] at hinsert
    exact hinsert.congr hmem (fun _ _ => rfl)
  · rw [edgesBySourceType_pushEdge]
    exact indexes_pushEdge h.bound h.indexed.bySource e
  · rw [edgesByTargetType_pushEdge]
    exact indexes_pushEdge h.bound h.indexed.byTarget e
  · rw [edgesByType_pushEdge]
    exact indexes_pushEdge h.bound h.indexed.byType e

theorem EdgeInv.insertEdge (h : EdgeInv g) (src tgt : Int) (type : CStr)
    (properties : Option CStr) : EdgeInv (cbmGbufInsertEdge g src tgt type properties).1 := by
  rcases insertEdge_cases g src tgt type properties with ⟨p, -, hset⟩ | ⟨hnew, hadd⟩
  · rw [hset]
    refine ⟨h.bound, h.nodup, ?_, h.indexed.setEdge p _⟩
    intro q hq
    rw [edgeField_setEdge Edge.id (fun _ _ => rfl)]
    exact lt_of_lt_of_eq (h.fresh q hq) (idMark_of_ids rfl rfl)
  · have hpart := edgePart_allocNextId g
    have hmark := idMark_allocNextId g
    rw [hadd]
    refine (h.congr hpart (by omega)).pushEdge ?_ ?_ ?_
    · rw [edgeByKey_allocNextId]
      exact hnew
    · rw [edges_allocNextId, edgeAt_allocNextId]
      exact fun p hp => (h.fresh p hp).ne
    · change g.idMark < _
      omega

theorem EdgeIndexed.unindexEdge (h : EdgeIndexed g S) {p : Nat} (hp : S p) :
    EdgeIndexed (unindexEdge g p) (fun q => S q ∧ q ≠ p) := by
  have hid : ∀ q, S q → (decide ((g.edgeAt q).id = (g.edgeAt p).id) = true ↔ q = p) := by
    intro q hq
    rw [decide_eq_true_iff]
    constructor
    · exact h.ids q p hq hp
    · rintro rfl
      rfl
  exact
    { ids := fun q r hq hr => h.ids q r hq.1 hr.1
      byKey := h.byKey.erase hp
      bySource := h.bySource.remove (fun q hq _ => hid q hq)
      byTarget := h.byTarget.remove (fun q hq _ => hid q hq)
      byType := h.byType.remove (fun q hq _ => hid q hq) }

section Removed

variable {S T : Nat → Prop} {p : Nat} {ps : List Nat}

theorem left_cons_of_pos (hT : T p) (q : Nat) :
    (S q ∧ ¬ (q ∈ p :: ps ∧ T q)) ↔ ((S q ∧ q ≠ p) ∧ ¬ (q ∈ ps ∧ T q)) := by
  rw [List.mem_cons]
  constructor
  · rintro ⟨hq, hno⟩
    refine ⟨⟨hq, ?_⟩, fun hqs => hno ⟨Or.inr hqs.1, hqs.2⟩⟩
    rintro rfl
    exact hno ⟨Or.inl rfl, hT⟩
  · rintro ⟨⟨hq, hne⟩, hno⟩
    refine ⟨hq, ?_⟩
    rintro ⟨hqp | hqs, ht⟩
    · exact hne hqp
    · exact hno ⟨hqs, ht⟩

theorem left_cons_of_neg (hT : ¬ T p) (q : Nat) :
    (S q ∧ ¬ (q ∈ p :: ps ∧ T q)) ↔ (S q ∧ ¬ (q ∈ ps ∧ T q)) := by
  rw [List.mem_cons]
  constructor
  · rintro ⟨hq, hno⟩
    exact ⟨hq, fun hqs => hno ⟨Or.inr hqs.1, hqs.2⟩⟩
  · rintro ⟨hq, hno⟩
    refine ⟨hq, ?_⟩
    rintro ⟨rfl | hqs, ht⟩
    · exact hT ht
    · exact hno ⟨hqs, ht⟩

theorem left_self (q : Nat) : (q ∈ ps ∧ ¬ (q ∈ ps ∧ T q)) ↔ (q ∈ ps ∧ ¬ T q) := by
  constructor
  · rintro ⟨hq, hno⟩
    exact ⟨hq, fun ht => hno ⟨hq, ht⟩⟩
  · rintro ⟨hq, hno⟩
    exact ⟨hq, fun ht => hno ht.2⟩

end Removed

theorem cascadeLoop_kept (deleted : Table CStr Unit) (ps : List Nat) :
    ∀ g : Gbuf,
      (cascadeLoop deleted g ps).2 = ps.filter (fun p => !touches deleted (g.edgeAt p)) ∧
      (cascadeLoop deleted g ps).1.edgeAt = g.edgeAt ∧
      (cascadeLoop deleted g ps).1.edgeCount = g.edgeCount ∧
      (cascadeLoop deleted g ps).1.idMark = g.idMark := by
  induction ps with
  | nil => exact fun g => ⟨rfl, rfl, rfl, rfl⟩
  | cons p ps ih =>
      intro g
      rw [cascadeLoop]
      by_cases htouch : touches deleted (g.edgeAt p) = true
      · obtain ⟨hkept, hat, hcount, hmark⟩ := ih (unindexEdge g p)
        rw [if_pos htouch, List.filter_cons_of_neg (by simp [htouch])]
        exact ⟨hkept, hat, hcount, hmark.trans (idMark_of_ids rfl rfl)⟩
      · obtain ⟨hkept, hat, hcount, hmark⟩ := ih g
        rw [if_neg htouch, List.filter_cons_of_pos (by simp [htouch]), ← hkept]
        exact ⟨rfl, hat, hcount, hmark⟩

theorem cascadeLoop_indexed (deleted : Table CStr Unit) (ps : List Nat) :
    ∀ (g : Gbuf) (S : Nat → Prop), EdgeIndexed g S → (∀ p, p ∈ ps → S p) → ps.Nodup →
      EdgeIndexed (cascadeLoop deleted g ps).1
        (fun q => S q ∧ ¬ (q ∈ ps ∧ touches deleted (g.edgeAt q) = true)) := by
  induction ps with
  | nil => exact fun g S h _ _ => h.congr (fun q => by simp)
  | cons p ps ih =>
      intro g S h hS hnodup
      obtain ⟨hp, hps⟩ := List.nodup_cons.mp hnodup
      rw [cascadeLoop]
      by_cases htouch : touches deleted (g.edgeAt p) = true
      · rw [if_pos htouch]
        have hindexed := ih (unindexEdge g p) (fun q => S q ∧ q ≠ p)
          (h.unindexEdge (hS p List.mem_cons_self))
          (fun q hq => ⟨hS q (List.mem_cons_of_mem p hq), fun hqp => hp (hqp ▸ hq)⟩) hps
        exact hindexed.congr (left_cons_of_pos htouch)
      · rw [if_neg htouch]
        have hindexed := ih g S h (fun q hq => hS q (List.mem_cons_of_mem p hq)) hps
        exact hindexed.congr (left_cons_of_neg htouch)

theorem mem_cascadeDeleteEdges (g : Gbuf) (deleted : Table CStr Unit) (p : Nat) :
    p ∈ (cascadeDeleteEdges g deleted).edges ↔
      p ∈ g.edges ∧ touches deleted (g.edgeAt p) = false := by
  change p ∈ (cascadeLoop deleted g g.edges).2 ↔ _
  rw [(cascadeLoop_kept deleted g.edges g).1, List.mem_filter, Bool.not_eq_true']

theorem edgeAt_cascadeDeleteEdges (g : Gbuf) (deleted : Table CStr Unit) :
    (cascadeDeleteEdges g deleted).edgeAt = g.edgeAt :=
  (cascadeLoop_kept deleted g.edges g).2.1

variable {g : Gbuf}

theorem EdgeInv.cascadeDeleteEdges (h : EdgeInv g) (deleted : Table CStr Unit) :
    EdgeInv (cascadeDeleteEdges g deleted) := by
  obtain ⟨hkept, hat, hcount, hmark⟩ := cascadeLoop_kept deleted g.edges g
  have hindexed := cascadeLoop_indexed deleted g.edges g (· ∈ g.edges) h.indexed
    (fun _ hp => hp) h.nodup
  refine ⟨?_, ?_, ?_, ?_⟩
  · intro p hp
    change p < (cascadeLoop deleted g g.edges).1.edgeCount
    rw [hcount]
    exact h.bound p ((mem_cascadeDeleteEdges g deleted p).mp hp).1
  · change (cascadeLoop deleted g g.edges).2.Nodup
    rw [hkept]
    exact h.nodup.filter _
  · intro p hp
    rw [edgeAt_cascadeDeleteEdges]
    refine lt_of_lt_of_eq (h.fresh p ((mem_cascadeDeleteEdges g deleted p).mp hp).1) ?_
    exact hmark.symm.trans (idMark_of_ids rfl rfl)
  · have hset : EdgeIndexed (cascadeLoop deleted g g.edges).1
        (· ∈ (GraphBuffer.cascadeDeleteEdges g deleted).edges) := by
      refine hindexed.congr fun p => ?_
      rw [mem_cascadeDeleteEdges, ← Bool.not_eq_true]
      exact (left_self (T := fun q => touches deleted (g.edgeAt q) = true) p).symm
    exact ⟨hset.ids, hset.byKey, hset.bySource, hset.byTarget, hset.byType⟩

theorem deleteTypeLoop_spec (edgeAt : Nat → Edge) (type : CStr) (ps : List Nat) :
    ∀ (t : Table CStr Nat) (S : Nat → Prop), Maps t (fun p => (edgeAt p).key) S →
      (∀ p, p ∈ ps → S p) → ps.Nodup →
      (deleteTypeLoop edgeAt type t ps).2 = ps.filter (fun p => (edgeAt p).type ≠ type) ∧
      Maps (deleteTypeLoop edgeAt type t ps).1 (fun p => (edgeAt p).key)
        (fun q => S q ∧ ¬ (q ∈ ps ∧ (edgeAt q).type = type)) := by
  induction ps with
  | nil =>
      intro t S h _ _
      exact ⟨rfl, h.congr (fun q => by simp) (fun _ _ => rfl)⟩
  | cons p ps ih =>
      intro t S h hS hnodup
      obtain ⟨hp, hps⟩ := List.nodup_cons.mp hnodup
      rw [deleteTypeLoop]
      by_cases htype : (edgeAt p).type = type
      · rw [if_pos htype]
        obtain ⟨hkept, hmaps⟩ := ih (t.erase (edgeAt p).key) (fun q => S q ∧ q ≠ p)
          (h.erase (hS p List.mem_cons_self))
          (fun q hq => ⟨hS q (List.mem_cons_of_mem p hq), fun hqp => hp (hqp ▸ hq)⟩) hps
        refine ⟨?_, hmaps.congr (left_cons_of_pos htype) (fun _ _ => rfl)⟩
        rw [List.filter_cons_of_neg (by simp [htype])]
        exact hkept
      · rw [if_neg htype]
        obtain ⟨hkept, hmaps⟩ := ih t S h (fun q hq => hS q (List.mem_cons_of_mem p hq)) hps
        refine ⟨?_, hmaps.congr (left_cons_of_neg htype) (fun _ _ => rfl)⟩
        rw [List.filter_cons_of_pos (by simp [htype]), ← hkept]

/-- The three bucket tables hold exactly the edges in `S`. -/
structure SecondaryIndexed (g : Gbuf) (S : Nat → Prop) : Prop where
  bySource : Indexes g.edgesBySourceType (fun p => (g.edgeAt p).sourceKey) S
  byTarget : Indexes g.edgesByTargetType (fun p => (g.edgeAt p).targetKey) S
  byType : Indexes g.edgesByType (fun p => (g.edgeAt p).type) S

theorem SecondaryIndexed.congr {g : Gbuf} {S S' : Nat → Prop} (h : SecondaryIndexed g S)
    (hS : ∀ p, S' p ↔ S p) : SecondaryIndexed g S' where
  bySource := h.bySource.congr hS (fun _ _ => rfl)
  byTarget := h.byTarget.congr hS (fun _ _ => rfl)
  byType := h.byType.congr hS (fun _ _ => rfl)

theorem SecondaryIndexed.register {g : Gbuf} {S : Nat → Prop} (h : SecondaryIndexed g S) {p : Nat}
    (hp : ¬ S p) : SecondaryIndexed (registerEdgeInIndexes g p) (fun q => S q ∨ q = p) where
  bySource := h.bySource.push hp
  byTarget := h.byTarget.push hp
  byType := h.byType.push hp

theorem registerLoop_spec (ps : List Nat) :
    ∀ (g : Gbuf) (S : Nat → Prop), SecondaryIndexed g S → (∀ p, p ∈ ps → ¬ S p) → ps.Nodup →
      SecondaryIndexed (ps.foldl registerEdgeInIndexes g) (fun q => S q ∨ q ∈ ps) := by
  induction ps with
  | nil => exact fun g S h _ _ => h.congr (fun q => by simp)
  | cons p ps ih =>
      intro g S h hS hnodup
      obtain ⟨hp, hps⟩ := List.nodup_cons.mp hnodup
      have hrest := ih (registerEdgeInIndexes g p) (fun q => S q ∨ q = p)
        (h.register (hS p List.mem_cons_self))
        (by
          rintro q hq (hS' | rfl)
          · exact hS q (List.mem_cons_of_mem p hq) hS'
          · exact hp hq) hps
      refine hrest.congr (fun q => ?_)
      rw [List.mem_cons, or_assoc]

theorem registerLoop_frame (ps : List Nat) :
    ∀ g : Gbuf, (ps.foldl registerEdgeInIndexes g).edgeAt = g.edgeAt ∧
      (ps.foldl registerEdgeInIndexes g).edges = g.edges ∧
      (ps.foldl registerEdgeInIndexes g).edgeCount = g.edgeCount ∧
      (ps.foldl registerEdgeInIndexes g).edgeByKey = g.edgeByKey ∧
      (ps.foldl registerEdgeInIndexes g).idMark = g.idMark := by
  induction ps with
  | nil => exact fun g => ⟨rfl, rfl, rfl, rfl, rfl⟩
  | cons p ps ih =>
      intro g
      obtain ⟨hat, hedges, hcount, hkey, hmark⟩ := ih (registerEdgeInIndexes g p)
      exact ⟨hat, hedges, hcount, hkey, hmark.trans (idMark_of_ids rfl rfl)⟩

theorem mem_deleteEdgesByType (h : EdgeInv g) (type : CStr) {p : Nat}
    (hp : p ∈ (cbmGbufDeleteEdgesByType g type).edges) :
    p ∈ g.edges ∧ (cbmGbufDeleteEdgesByType g type).edgeAt = g.edgeAt := by
  obtain ⟨hkept, -⟩ := deleteTypeLoop_spec g.edgeAt type g.edges g.edgeByKey (· ∈ g.edges)
    h.indexed.byKey (fun _ hp => hp) h.nodup
  unfold cbmGbufDeleteEdgesByType rebuildEdgeSecondaryIndexes at hp ⊢
  dsimp only at hp ⊢
  obtain ⟨hat, hedges, -⟩ := registerLoop_frame
    (deleteTypeLoop g.edgeAt type g.edgeByKey g.edges).2
    { g with edgeByKey := (deleteTypeLoop g.edgeAt type g.edgeByKey g.edges).1
             edges := (deleteTypeLoop g.edgeAt type g.edgeByKey g.edges).2
             edgesBySourceType := ∅, edgesByTargetType := ∅, edgesByType := ∅ }
  rw [hedges] at hp
  dsimp only at hp
  rw [hkept] at hp
  exact ⟨(List.mem_filter.mp hp).1, hat⟩

theorem EdgeInv.deleteEdgesByType (h : EdgeInv g) (type : CStr) :
    EdgeInv (cbmGbufDeleteEdgesByType g type) := by
  obtain ⟨hkept, hmaps⟩ := deleteTypeLoop_spec g.edgeAt type g.edges g.edgeByKey (· ∈ g.edges)
    h.indexed.byKey (fun _ hp => hp) h.nodup
  unfold cbmGbufDeleteEdgesByType rebuildEdgeSecondaryIndexes
  dsimp only
  generalize deleteTypeLoop g.edgeAt type g.edgeByKey g.edges = done at hkept hmaps ⊢
  have hmem : ∀ p, p ∈ done.2 ↔ p ∈ g.edges ∧ ¬ (p ∈ g.edges ∧ (g.edgeAt p).type = type) := by
    intro p
    rw [hkept, List.mem_filter, decide_eq_true_iff]
    exact (left_self (T := fun q => (g.edgeAt q).type = type) p).symm
  have hnodup : done.2.Nodup := by
    rw [hkept]
    exact h.nodup.filter _
  obtain ⟨hat, hedges, hcount, hkey, hmark⟩ := registerLoop_frame done.2
    { g with edgeByKey := done.1, edges := done.2, edgesBySourceType := ∅,
             edgesByTargetType := ∅, edgesByType := ∅ }
  have hsecond := registerLoop_spec done.2
    { g with edgeByKey := done.1, edges := done.2, edgesBySourceType := ∅,
             edgesByTargetType := ∅, edgesByType := ∅ } (fun _ => False)
    ⟨Indexes.empty _, Indexes.empty _, Indexes.empty _⟩ (fun _ _ hf => hf) hnodup
  generalize done.2.foldl registerEdgeInIndexes _ = g' at hat hedges hcount hkey hmark hsecond ⊢
  have hin : ∀ p, p ∈ g'.edges ↔ p ∈ done.2 := by
    intro p
    rw [hedges]
  have hsecond' : SecondaryIndexed g' (· ∈ g'.edges) :=
    hsecond.congr (fun p => by rw [hin p, false_or])
  refine ⟨?_, ?_, ?_, ⟨?_, ?_, hsecond'.bySource, hsecond'.byTarget, hsecond'.byType⟩⟩
  · intro p hp
    rw [hcount]
    exact h.bound p ((hmem p).mp ((hin p).mp hp)).1
  · rw [hedges]
    exact hnodup
  · intro p hp
    rw [hat, hmark]
    exact lt_of_lt_of_eq (h.fresh p ((hmem p).mp ((hin p).mp hp)).1) (idMark_of_ids rfl rfl)
  · intro p q hp hq
    rw [hat]
    exact h.indexed.ids p q ((hmem p).mp ((hin p).mp hp)).1 ((hmem q).mp ((hin q).mp hq)).1
  · rw [hkey, hat]
    exact hmaps.congr (fun p => (hin p).trans (hmem p)) (fun _ _ => rfl)

theorem EdgeInv.frame {g' : Gbuf} (h : EdgeInv g) (hpart : g'.edgePart = g.edgePart)
    (hnext : g'.nextId = g.nextId) (hshared : g'.sharedIds = g.sharedIds) : EdgeInv g' :=
  h.congr hpart (idMark_of_ids hnext hshared).ge

theorem EdgeInv.pushNode (h : EdgeInv g) (n : Node) (qn : CStr) : EdgeInv (pushNode g n qn) :=
  h.frame rfl rfl rfl

theorem EdgeInv.setNode (h : EdgeInv g) (p : Nat) (n : Node) : EdgeInv (setNode g p n) :=
  h.frame rfl rfl rfl

theorem EdgeInv.deleteNode (h : EdgeInv g) (p : Nat) : EdgeInv (deleteNode g p) :=
  h.frame rfl rfl rfl

theorem EdgeInv.upsert (h : EdgeInv g) (label name : Option CStr) (qn : CStr)
    (filePath : Option CStr) (startLine endLine : Int) (properties : Option CStr) :
    EdgeInv (cbmGbufUpsertNode g label name qn filePath startLine endLine properties).1 := by
  have hmark := idMark_allocNextId g
  unfold cbmGbufUpsertNode
  dsimp only
  cases g.nodeByQn.lookup qn with
  | some p => exact h.setNode p _
  | none => exact (h.congr (edgePart_allocNextId g) (by omega)).pushNode _ qn

theorem EdgeInv.mergeCopyNewNode {dst : Gbuf} (h : EdgeInv dst) (sn : Node) (qn : CStr) :
    EdgeInv (mergeCopyNewNode dst sn qn) := by
  have hpush := h.pushNode (sn.fields.node sn.id) qn
  unfold GraphBuffer.mergeCopyNewNode
  dsimp only
  split
  · next hid =>
      refine hpush.congr rfl ?_
      unfold Gbuf.idMark allocNextId
      dsimp only
      cases (GraphBuffer.pushNode dst (sn.fields.node sn.id) qn).sharedIds with
      | some id => exact le_rfl
      | none => exact le_trans hid (Int.le_add_one le_rfl)
  · exact hpush

theorem EdgeInv.mergeLoop {src : Gbuf} (ps : List Nat) (st : Gbuf × Table CStr Int)
    (h : EdgeInv st.1) : EdgeInv (ps.foldl (mergeNode src) st).1 :=
  mergeLoop_rule (P := fun st => EdgeInv st.1) (fun _ _ _ _ h => h.setNode _ _)
    (fun _ _ _ _ h => h.mergeCopyNewNode _ _) h

theorem EdgeInv.mergeRemapEdges {src : Gbuf} (remap : Table CStr Int) (ps : List Nat) :
    ∀ dst : Gbuf, EdgeInv dst → EdgeInv (ps.foldl (mergeEdge src remap) dst) := by
  induction ps with
  | nil => exact fun dst h => h
  | cons p ps ih =>
      intro dst h
      exact ih _ (h.insertEdge _ _ _ _)

theorem edgePart_deleteFileLoop (filePath : CStr) (ps : List Nat) :
    ∀ st : Gbuf × Table CStr Unit,
      (ps.foldl (deleteFileStep filePath) st).1.edgePart = st.1.edgePart := by
  induction ps with
  | nil => exact fun st => rfl
  | cons p ps ih =>
      intro st
      rw [List.foldl_cons, ih]
      rcases deleteFileStep_cases filePath st p with ⟨hskip, -⟩ | ⟨-, hdelete⟩
      · rw [hskip]
      · rw [hdelete]
        rfl

theorem EdgeInv.step (h : EdgeInv g) (op : Op) : EdgeInv (g.step op) := by
  cases op with
  | upsert label name qn filePath startLine endLine properties =>
      exact h.upsert label name qn filePath startLine endLine properties
  | insertEdge src tgt type properties => exact h.insertEdge src tgt type properties
  | deleteEdgesByType type => exact h.deleteEdgesByType type
  | deleteByLabel label =>
      exact deleteByLabel_rule (fun deleted hg => hg.cascadeDeleteEdges deleted)
        (fun _ _ hst => hst.frame rfl rfl rfl) (fun _ hg => hg.frame rfl rfl rfl) h label
  | deleteByFile filePath =>
      exact deleteByFile_rule (fun deleted hg => hg.cascadeDeleteEdges deleted)
        (fun p hg => hg.deleteNode p) h filePath
  | merge src =>
      exact EdgeInv.mergeRemapEdges _ src.edges _
        (EdgeInv.mergeLoop (List.range src.nodeCount) (g, ∅) h)
  | draw k =>
      refine h.congr rfl ?_
      unfold Gbuf.step Gbuf.idMark allocNextId
      dsimp only
      cases g.sharedIds with
      | none => exact le_rfl
      | some id => exact Int.le_add_of_nonneg_right (Int.natCast_nonneg k)

end GraphBuffer
end CodebaseMemory
