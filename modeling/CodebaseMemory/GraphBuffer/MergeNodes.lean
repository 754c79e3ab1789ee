import CodebaseMemory.GraphBuffer.Ids

/-!
# The node loop of a merge

`cbm_gbuf_merge` first walks over the nodes of `src`.  A node whose name is in
`dst` already keeps the id it has there, and the remap table takes its id in
`src` to that one; any other node is copied with its id.

An edge of one buffer may have its endpoints in the other: the edge-only worker
buffers of the parallel resolve phase hold nothing else.  `DstName` and
`SrcName` say which node an endpoint stands for in a merge.
-/

namespace CodebaseMemory
namespace GraphBuffer

open Lib
open Sqlite (CStr bytesOf)

/-- The names of an endpoint of an edge of `dst`: that of the node of `dst` with
the id, or of the node of `src` with the id if `dst` has no node of its name. -/
def DstName (dst src : Gbuf) (id : Int) (qn : CStr) : Prop :=
  NodeName dst id qn ∨ (cbmGbufFindByQn dst qn = none ∧ NodeName src id qn)

/-- The names of an endpoint of an edge of `src`: that of the node of `src` or
of `dst` with the id. -/
def SrcName (dst src : Gbuf) (id : Int) (qn : CStr) : Prop :=
  NodeName src id qn ∨ NodeName dst id qn

/-- What a merge needs: no two nodes have the same id, and the loop over the
nodes of `src` meets only nodes that are found. -/
structure Mergeable (dst src : Gbuf) : Prop where
  builtDst : BuiltInv dst
  builtSrc : BuiltInv src
  apart : ∀ p q, Found dst p → Found src q → (dst.nodeAt p).id ≠ (src.nodeAt q).id
  visited : ∀ s, s ∈ cbmGbufForeachNode src → Found src s

/-- The node `s` of `src` is found under `qn` and among the first `k`. -/
def Passed (src : Gbuf) (k : Nat) (qn : CStr) (s : Nat) : Prop :=
  src.nodeByQn.lookup qn = some s ∧ s < k

/-- The state of the node loop after `k` nodes of `src`. -/
structure NodesMerged (dst src : Gbuf) (k : Nat) (st : Gbuf × Table CStr Int) : Prop where
  named : Named st.1
  kept : ∀ qn p, dst.nodeByQn.lookup qn = some p →
    st.1.nodeByQn.lookup qn = some p ∧ (st.1.nodeAt p).id = (dst.nodeAt p).id
  added : ∀ qn p, dst.nodeByQn.lookup qn = none → st.1.nodeByQn.lookup qn = some p →
    ∃ s, Passed src k qn s ∧ (st.1.nodeAt p).id = (src.nodeAt s).id
  copied : ∀ qn s, Passed src k qn s →
    ∃ p, st.1.nodeByQn.lookup qn = some p ∧ (st.1.nodeAt p).fields = (src.nodeAt s).fields
  others : ∀ qn p, dst.nodeByQn.lookup qn = some p → (∀ s, ¬ Passed src k qn s) →
    st.1.nodeAt p = dst.nodeAt p
  remap : ∀ key d, st.2.lookup key = some d ↔
    ∃ qn s p, Passed src k qn s ∧ dst.nodeByQn.lookup qn = some p ∧
      key = makeIdKey (src.nodeAt s).id ∧ d = (dst.nodeAt p).id

theorem not_passed_zero (src : Gbuf) (qn : CStr) (s : Nat) : ¬ Passed src 0 qn s :=
  fun h => Nat.not_lt_zero s h.2

theorem passed_succ_of_dead {src : Gbuf} (hnamed : Named src) {k : Nat}
    (hdead : isLive src k = false) (qn : CStr) (s : Nat) :
    Passed src (k + 1) qn s ↔ Passed src k qn s := by
  constructor
  · rintro ⟨hs, hlt⟩
    refine ⟨hs, Nat.lt_of_le_of_ne (Nat.le_of_lt_succ hlt) ?_⟩
    rintro rfl
    have hlive : isLive src s = true := (isLive_iff src s).mpr ⟨qn, (hnamed qn s hs).2, s, hs⟩
    rw [hdead] at hlive
    exact absurd hlive (by simp)
  · rintro ⟨hs, hlt⟩
    exact ⟨hs, Nat.lt_succ_of_lt hlt⟩

theorem passed_succ {src : Gbuf} (hnamed : Named src) {k : Nat} {qn : CStr}
    (hk : src.nodeByQn.lookup qn = some k) (qn' : CStr) (s : Nat) :
    Passed src (k + 1) qn' s ↔ (qn' ≠ qn ∧ Passed src k qn' s) ∨ (qn' = qn ∧ s = k) := by
  constructor
  · rintro ⟨hs, hlt⟩
    by_cases hqn : qn' = qn
    · rw [hqn, hk] at hs
      exact Or.inr ⟨hqn, (Option.some.inj hs).symm⟩
    · refine Or.inl ⟨hqn, hs, Nat.lt_of_le_of_ne (Nat.le_of_lt_succ hlt) ?_⟩
      rintro rfl
      have hname := (hnamed qn' s hs).2
      rw [(hnamed qn s hk).2] at hname
      exact hqn (Option.some.inj hname).symm
  · rintro (⟨-, hs, hlt⟩ | ⟨rfl, rfl⟩)
    · exact ⟨hs, Nat.lt_succ_of_lt hlt⟩
    · exact ⟨hk, Nat.lt_succ_self s⟩

theorem nodesMerged_zero {dst : Gbuf} (src : Gbuf) (hdst : Named dst) :
    NodesMerged dst src 0 (dst, ∅) where
  named := hdst
  kept := fun _ _ hp => ⟨hp, rfl⟩
  added := by
    intro qn p hnone hp
    rw [hnone] at hp
    exact absurd hp (by simp)
  copied := fun qn s hs => absurd hs (not_passed_zero src qn s)
  others := fun _ _ _ _ => rfl
  remap := by
    intro key d
    constructor
    · intro hd
      exact absurd hd (by simp)
    · rintro ⟨qn, s, -, hs, -⟩
      exact absurd hs (not_passed_zero src qn s)

section Steps

variable {dst src : Gbuf} {k : Nat} {st : Gbuf × Table CStr Int} {qn : CStr} {p : Nat}

theorem NodesMerged.update (h : Mergeable dst src) (hst : NodesMerged dst src k st)
    (hk : src.nodeByQn.lookup qn = some k) (hp : st.1.nodeByQn.lookup qn = some p) :
    NodesMerged dst src (k + 1) (mergeUpdateExisting st.1 p (src.nodeAt k) st.2) := by
  have hpassed := passed_succ h.builtSrc.named hk
  -- the node was not created by this loop, for only node `k` has the name
  have hdst : dst.nodeByQn.lookup qn = some p := by
    cases hlookup : dst.nodeByQn.lookup qn with
    | none =>
        obtain ⟨s, hs, -⟩ := hst.added qn p hlookup hp
        have hsk := hk.symm.trans hs.1
        exact absurd hs.2 (by rw [← Option.some.inj hsk]; exact Nat.lt_irrefl k)
    | some p' =>
        rw [(hst.kept qn p' hlookup).1] at hp
        exact hp
  have hid : (st.1.nodeAt p).id = (dst.nodeAt p).id := (hst.kept qn p hdst).2
  have hne : (src.nodeAt k).id ≠ (st.1.nodeAt p).id := by
    rw [hid]
    exact (h.apart p k ⟨qn, hdst⟩ ⟨qn, hk⟩).symm
  have hlookup : (mergeUpdateExisting st.1 p (src.nodeAt k) st.2).1.nodeByQn = st.1.nodeByQn := rfl
  have hnode : ∀ qn' p', qn' ≠ qn → st.1.nodeByQn.lookup qn' = some p' →
      (mergeUpdateExisting st.1 p (src.nodeAt k) st.2).1.nodeAt p' = st.1.nodeAt p' := by
    intro qn' p' hqn hp'
    refine (nodeAt_setNode _ _ _ _).trans (if_neg ?_)
    exact hst.named.ne_of_ne hqn hp hp'
  have hids : ∀ q, ((mergeUpdateExisting st.1 p (src.nodeAt k) st.2).1.nodeAt q).id =
      (st.1.nodeAt q).id := fun q => id_setNode st.1 p q _
  refine ⟨hst.named.setNode p _, ?_, ?_, ?_, ?_, ?_⟩
  · intro qn' p' hp'
    rw [hids, hlookup]
    exact hst.kept qn' p' hp'
  · intro qn' p' hnone hp'
    rw [hids]
    obtain ⟨s, hs, hsid⟩ := hst.added qn' p' hnone hp'
    exact ⟨s, ⟨hs.1, Nat.lt_succ_of_lt hs.2⟩, hsid⟩
  · intro qn' s hs
    rcases (hpassed qn' s).mp hs with ⟨hqn, hs'⟩ | ⟨rfl, rfl⟩
    · obtain ⟨p', hp', hfields⟩ := hst.copied qn' s hs'
      refine ⟨p', hp', ?_⟩
      rw [hnode qn' p' hqn hp']
      exact hfields
    · refine ⟨p, hp, ?_⟩
      have hupdated : (mergeUpdateExisting st.1 p (src.nodeAt s) st.2).1.nodeAt p =
          (st.1.nodeAt p).update (src.nodeAt s).fields :=
        (nodeAt_setNode _ _ _ _).trans (if_pos rfl)
      rw [hupdated]
      rfl
  · intro qn' p' hp' hno
    have hqn : qn' ≠ qn := by
      rintro rfl
      exact hno k ⟨hk, Nat.lt_succ_self k⟩
    rw [hnode qn' p' hqn (hst.kept qn' p' hp').1]
    exact hst.others qn' p' hp' (fun s hs => hno s ((hpassed qn' s).mpr (Or.inl ⟨hqn, hs⟩)))
  · intro key d
    unfold mergeUpdateExisting
    dsimp only
    rw [if_pos hne]
    by_cases hkey : key = makeIdKey (src.nodeAt k).id
    · rw [hkey, AList.lookup_insert, hid]
      constructor
      · intro hd
        exact ⟨qn, k, p, ⟨hk, Nat.lt_succ_self k⟩, hdst, rfl, (Option.some.inj hd).symm⟩
      · rintro ⟨qn', s, p', hs, hp', hkey', rfl⟩
        obtain rfl : k = s := h.builtSrc.ids.inj k s (h.builtSrc.named qn k hk).1
          (h.builtSrc.named qn' s hs.1).1 (decimal_injective hkey')
        have hname := (h.builtSrc.named qn' k hs.1).2
        rw [(h.builtSrc.named qn k hk).2] at hname
        obtain rfl : qn = qn' := Option.some.inj hname
        rw [Option.some.inj (hdst.symm.trans hp')]
    · rw [AList.lookup_insert_ne hkey, hst.remap key d]
      constructor
      · rintro ⟨qn', s, p', hs, hp', hkey', hd⟩
        exact ⟨qn', s, p', ⟨hs.1, Nat.lt_succ_of_lt hs.2⟩, hp', hkey', hd⟩
      · rintro ⟨qn', s, p', hs, hp', hkey', hd⟩
        rcases (hpassed qn' s).mp hs with ⟨-, hs'⟩ | ⟨rfl, rfl⟩
        · exact ⟨qn', s, p', hs', hp', hkey', hd⟩
        · exact absurd hkey' hkey

theorem NodesMerged.copy (h : Mergeable dst src) (hst : NodesMerged dst src k st)
    (hk : src.nodeByQn.lookup qn = some k) (hnew : st.1.nodeByQn.lookup qn = none) :
    NodesMerged dst src (k + 1) (mergeCopyNewNode st.1 (src.nodeAt k) qn, st.2) := by
  have hpassed := passed_succ h.builtSrc.named hk
  have hdst : dst.nodeByQn.lookup qn = none := by
    cases hlookup : dst.nodeByQn.lookup qn with
    | none => rfl
    | some p =>
        rw [(hst.kept qn p hlookup).1] at hnew
        exact absurd hnew (by simp)
  have hlookup : ∀ qn' p', qn' ≠ qn → (st.1.nodeByQn.lookup qn' = some p' ↔
      (mergeCopyNewNode st.1 (src.nodeAt k) qn).nodeByQn.lookup qn' = some p') := by
    intro qn' p' hqn
    rw [lookup_mergeCopyNewNode, if_neg hqn]
  have hself : (mergeCopyNewNode st.1 (src.nodeAt k) qn).nodeByQn.lookup qn =
      some st.1.nodeCount := by
    rw [lookup_mergeCopyNewNode, if_pos rfl]
  have hnode : ∀ qn' p', st.1.nodeByQn.lookup qn' = some p' →
      (mergeCopyNewNode st.1 (src.nodeAt k) qn).nodeAt p' = st.1.nodeAt p' := by
    intro qn' p' hp'
    rw [nodeAt_mergeCopyNewNode, if_neg (Nat.ne_of_lt (hst.named qn' p' hp').1)]
  have hcopy : (mergeCopyNewNode st.1 (src.nodeAt k) qn).nodeAt st.1.nodeCount =
      { src.nodeAt k with qualifiedName := some qn } := by
    rw [nodeAt_mergeCopyNewNode, if_pos rfl]
  have hne : ∀ qn' p', dst.nodeByQn.lookup qn' = some p' → qn' ≠ qn := by
    rintro qn' p' hp' rfl
    rw [hdst] at hp'
    exact absurd hp' (by simp)
  refine ⟨?_, ?_, ?_, ?_, ?_, ?_⟩
  · exact (hst.named.pushNode _ qn).congr (nodePart_mergeCopyNewNode st.1 (src.nodeAt k) qn)
  · intro qn' p' hp'
    obtain ⟨hp, hpid⟩ := hst.kept qn' p' hp'
    refine ⟨(hlookup qn' p' (hne qn' p' hp')).mp hp, ?_⟩
    rw [hnode qn' p' hp]
    exact hpid
  · intro qn' p' hnone hp'
    by_cases hqn : qn' = qn
    · subst hqn
      obtain rfl : st.1.nodeCount = p' := Option.some.inj (hself.symm.trans hp')
      refine ⟨k, ⟨hk, Nat.lt_succ_self k⟩, ?_⟩
      rw [hcopy]
    · have hp := (hlookup qn' p' hqn).mpr hp'
      obtain ⟨s, hs, hsid⟩ := hst.added qn' p' hnone hp
      refine ⟨s, ⟨hs.1, Nat.lt_succ_of_lt hs.2⟩, ?_⟩
      rw [hnode qn' p' hp]
      exact hsid
  · intro qn' s hs
    rcases (hpassed qn' s).mp hs with ⟨hqn, hs'⟩ | ⟨rfl, rfl⟩
    · obtain ⟨p', hp', hfields⟩ := hst.copied qn' s hs'
      refine ⟨p', (hlookup qn' p' hqn).mp hp', ?_⟩
      rw [hnode qn' p' hp']
      exact hfields
    · refine ⟨st.1.nodeCount, hself, ?_⟩
      rw [hcopy]
      rfl
  · intro qn' p' hp' hno
    rw [hnode qn' p' (hst.kept qn' p' hp').1]
    exact hst.others qn' p' hp' (fun s hs => hno s ⟨hs.1, Nat.lt_succ_of_lt hs.2⟩)
  · intro key d
    rw [hst.remap key d]
    constructor
    · rintro ⟨qn', s, p', hs, hp', hkey', hd⟩
      exact ⟨qn', s, p', ⟨hs.1, Nat.lt_succ_of_lt hs.2⟩, hp', hkey', hd⟩
    · rintro ⟨qn', s, p', hs, hp', hkey', hd⟩
      rcases (hpassed qn' s).mp hs with ⟨-, hs'⟩ | ⟨rfl, rfl⟩
      · exact ⟨qn', s, p', hs', hp', hkey', hd⟩
      · exact absurd rfl (hne qn' p' hp')

theorem NodesMerged.skip (h : Mergeable dst src) (hst : NodesMerged dst src k st)
    (hdead : isLive src k = false) : NodesMerged dst src (k + 1) st := by
  have hpassed := passed_succ_of_dead h.builtSrc.named hdead
  refine ⟨hst.named, hst.kept, ?_, ?_, ?_, ?_⟩
  · simpa only [hpassed] using hst.added
  · simpa only [hpassed] using hst.copied
  · simpa only [hpassed] using hst.others
  · simpa only [hpassed] using hst.remap

theorem NodesMerged.step (h : Mergeable dst src) (hst : NodesMerged dst src k st)
    (hk : k < src.nodeCount) : NodesMerged dst src (k + 1) (mergeNode src st k) := by
  rcases mergeNode_cases src st k with ⟨hdead, hskip⟩ | ⟨qn, hqn, hlive, hcase⟩
  · rw [hskip]
    exact hst.skip h hdead
  · have hfound : Found src k := h.visited k ((mem_foreachNode src k).mpr ⟨hk, hlive⟩)
    have hlookup := h.builtSrc.named.lookup_eq hfound hqn
    rcases hcase with ⟨p, hp, hupdate⟩ | ⟨hnew, hcopy⟩
    · rw [hupdate]
      exact hst.update h hlookup hp
    · rw [hcopy]
      exact hst.copy h hlookup hnew

end Steps

theorem nodesMerged_range {dst src : Gbuf} (h : Mergeable dst src) (k : Nat) :
    k ≤ src.nodeCount → NodesMerged dst src k ((List.range k).foldl (mergeNode src) (dst, ∅)) := by
  induction k with
  | zero => exact fun _ => nodesMerged_zero src h.builtDst.named
  | succ k ih =>
      intro hk
      rw [List.range_succ, List.foldl_append]
      exact (ih (Nat.le_of_succ_le hk)).step h hk

theorem nodesMerged_mergeNodes {dst src : Gbuf} (h : Mergeable dst src) :
    NodesMerged dst src src.nodeCount (mergeNodes dst src) :=
  nodesMerged_range h src.nodeCount le_rfl

theorem passed_nodeCount {src : Gbuf} (hnamed : Named src) (qn : CStr) (s : Nat) :
    Passed src src.nodeCount qn s ↔ cbmGbufFindByQn src qn = some s :=
  ⟨fun h => h.1, fun h => ⟨h, (hnamed qn s h).1⟩⟩

theorem edgePart_mergeLoop (src : Gbuf) (ps : List Nat) (st : Gbuf × Table CStr Int) :
    (ps.foldl (mergeNode src) st).1.edgePart = st.1.edgePart := by
  refine mergeLoop_rule (P := fun st' => st'.1.edgePart = st.1.edgePart) (fun _ _ _ _ h => h)
    (fun _ _ _ _ h => ?_) rfl
  rw [← h]
  unfold mergeCopyNewNode
  dsimp only
  split <;> rfl

theorem NodeName.name_eq {g : Gbuf} (hg : BuiltInv g) {id : Int} {qn qn' : CStr}
    (h : NodeName g id qn) (h' : NodeName g id qn') : qn = qn' := by
  obtain ⟨p, hp, rfl⟩ := h
  obtain ⟨p', hp', hid⟩ := h'
  obtain rfl : p' = p := hg.ids.inj p' p (hg.named qn' p' hp').1 (hg.named qn p hp).1 hid
  have hname := (hg.named qn p' hp).2
  rw [(hg.named qn' p' hp').2] at hname
  exact (Option.some.inj hname).symm

section Names

variable {dst src : Gbuf}

theorem Mergeable.not_both (h : Mergeable dst src) {id : Int} {qn qn' : CStr}
    (hdst : NodeName dst id qn) (hsrc : NodeName src id qn') : False := by
  obtain ⟨p, hp, rfl⟩ := hdst
  obtain ⟨s, hs, hid⟩ := hsrc
  exact h.apart p s ⟨qn, hp⟩ ⟨qn', hs⟩ hid.symm

theorem nodeName_mergeNodes (h : Mergeable dst src) (id : Int) (qn : CStr) :
    NodeName (mergeNodes dst src).1 id qn ↔ DstName dst src id qn := by
  have hm := nodesMerged_mergeNodes h
  have hpassed := passed_nodeCount h.builtSrc.named
  constructor
  · rintro ⟨p, hp, rfl⟩
    cases hlookup : dst.nodeByQn.lookup qn with
    | some p' =>
        obtain ⟨hp', hid⟩ := hm.kept qn p' hlookup
        obtain rfl : p' = p := Option.some.inj (hp'.symm.trans hp)
        exact Or.inl ⟨p', hlookup, hid.symm⟩
    | none =>
        obtain ⟨s, hs, hid⟩ := hm.added qn p hlookup hp
        exact Or.inr ⟨hlookup, s, (hpassed qn s).mp hs, hid.symm⟩
  · rintro (⟨p, hp, rfl⟩ | ⟨hnone, s, hs, rfl⟩)
    · exact ⟨p, hm.kept qn p hp⟩
    · obtain ⟨p, hp, -⟩ := hm.copied qn s ((hpassed qn s).mpr hs)
      obtain ⟨s', hs', hid⟩ := hm.added qn p hnone hp
      obtain rfl : s' = s := Option.some.inj (hs'.1.symm.trans hs)
      exact ⟨p, hp, hid⟩

theorem nodeName_remapEndpoint (h : Mergeable dst src) (id : Int) (qn : CStr) :
    NodeName (mergeNodes dst src).1 (remapEndpoint (mergeNodes dst src).2 id) qn ↔
      SrcName dst src id qn := by
  have hm := nodesMerged_mergeNodes h
  have hpassed := passed_nodeCount h.builtSrc.named
  rw [nodeName_mergeNodes h]
  unfold remapEndpoint
  cases hremap : (mergeNodes dst src).2.lookup (makeIdKey id) with
  | some d =>
      -- the node is in both buffers, under the name `qn'`
      obtain ⟨qn', s, p, hs, hp, hkey, rfl⟩ := (hm.remap _ d).mp hremap
      have hsrc : NodeName src id qn' :=
        ⟨s, (hpassed qn' s).mp hs, (decimal_injective hkey).symm⟩
      have hdst : NodeName dst (dst.nodeAt p).id qn' := ⟨p, hp, rfl⟩
      rw [Option.getD_some]
      constructor
      · rintro (hname | ⟨-, hname⟩)
        · obtain rfl := hname.name_eq h.builtDst hdst
          exact Or.inl hsrc
        · exact (h.not_both hdst hname).elim
      · rintro (hname | hname)
        · obtain rfl := hname.name_eq h.builtSrc hsrc
          exact Or.inl hdst
        · exact (h.not_both hname hsrc).elim
  | none =>
      rw [Option.getD_none]
      constructor
      · rintro (hname | ⟨-, hname⟩)
        · exact Or.inr hname
        · exact Or.inl hname
      · rintro (hname | hname)
        · refine Or.inr ⟨?_, hname⟩
          obtain ⟨s, hs, rfl⟩ := hname
          cases hlookup : cbmGbufFindByQn dst qn with
          | none => rfl
          | some p =>
              have hentry := (hm.remap (makeIdKey (src.nodeAt s).id) (dst.nodeAt p).id).mpr
                ⟨qn, s, p, (hpassed qn s).mpr hs, hlookup, rfl, rfl⟩
              rw [hremap] at hentry
              exact absurd hentry (by simp)
        · exact Or.inl hname

end Names

end GraphBuffer
end CodebaseMemory
