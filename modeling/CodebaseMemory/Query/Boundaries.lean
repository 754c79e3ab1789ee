import CodebaseMemory.Cypher.Store
import CodebaseMemory.Lib.Distinct
import CodebaseMemory.Lib.Limit
import Mathlib.Data.Finset.Card

/-!
# Calls between packages (`src/store/store.c`)

`arch_boundaries` gives each function, method and class of a project the package that its qualified
name says, counts the calls between different packages pair by pair, and returns the ten pairs with
the most calls.  The array of pairs has 32 entries: a pair that is first met when it is full is not
counted.
-/

namespace CodebaseMemory
namespace Query

open Lib
open Cypher (Node Edge Store)
open Sqlite (CStr bytesOf)

/-- The first five dots of a qualified name. -/
def dots (qn : CStr) : List Nat :=
  ((List.range qn.length).filter fun i => qn.getD i 0 = 46).take 5

/-- A segment that is neither empty nor too long for `buf`. -/
def segment (qn : CStr) (start stop : Nat) : Option CStr :=
  let len := stop - start
  if 0 < len ∧ len < 256 then some ((qn.drop start).take len) else none

/-- `cbm_qn_to_package`: the third segment of four or more, else the second one. -/
def cbmQnToPackage (qn : CStr) : CStr :=
  let ds := dots qn
  let third := if 3 ≤ ds.length then segment qn (ds.getD 1 0 + 1) (ds.getD 2 0) else none
  let second :=
    if 1 ≤ ds.length then
      segment qn (ds.getD 0 0 + 1) (if 2 ≤ ds.length then ds.getD 1 0 else qn.length)
    else none
  (third.or second).getD []

/-- `label IN ('Function','Method','Class')` -/
def isDefinition (n : Node) : Bool :=
  n.label = some (bytesOf "Function") || n.label = some (bytesOf "Method") ||
    n.label = some (bytesOf "Class")

/-- `nids` and `npkgs`, ordered by id. -/
def packageTable (nodes : List Node) : List (Int × CStr) :=
  ((nodes.filter isDefinition).insertionSort fun n m => n.id ≤ m.id).map fun n =>
    (n.id, cbmQnToPackage (n.qualifiedName.getD []))

/-- The loop of `lookup_pkg`. -/
def lookupLoop (table : List (Int × CStr)) (id : Int) : Nat → Int → Int → Option CStr
  | 0, _, _ => none
  | fuel + 1, lo, hi =>
      if lo ≤ hi then
        let mid := lo + (hi - lo) / 2
        let entry := table.getD mid.toNat (0, [])
        if entry.1 = id then some entry.2
        else if entry.1 < id then lookupLoop table id fuel (mid + 1) hi
        else lookupLoop table id fuel lo (mid - 1)
      else none

/-- `lookup_pkg`; each round makes the range shorter. -/
def lookupPkg (table : List (Int × CStr)) (id : Int) : Option CStr :=
  lookupLoop table id table.length 0 (table.length - 1)

/-- `cbm_cross_pkg_boundary_t` -/
structure Boundary where
  fromPkg : CStr
  toPkg : CStr
  callCount : Nat
deriving DecidableEq

/-- The packages of a call that crosses a boundary. -/
def crossing (pkg : Int → Option CStr) (e : Edge) : Option (CStr × CStr) :=
  match pkg e.sourceId, pkg e.targetId with
  | some srcPkg, some tgtPkg =>
      if srcPkg = [] ∨ tgtPkg = [] ∨ srcPkg = tgtPkg then none else some (srcPkg, tgtPkg)
  | _, _ => none

def accumBoundary (bcap : Nat) (boundaries : List Boundary) (pair : CStr × CStr) :
    List Boundary :=
  match boundaries.findIdx? fun b => (b.fromPkg, b.toPkg) = pair with
  | some found => boundaries.modify found fun b => { b with callCount := b.callCount + 1 }
  | none =>
      if boundaries.length < bcap then boundaries ++ [⟨pair.1, pair.2, 1⟩] else boundaries

/-- The sort by count: an entry moves up while it has more calls than the one before it; the sorted
part is kept with its last entry in front. -/
def sortByCount (boundaries : List Boundary) : List Boundary :=
  (boundaries.foldl
    (fun sorted b => sorted.orderedInsert (fun x y => x.callCount ≤ y.callCount) b) []).reverse

/-- `arch_boundaries`, for the nodes of a project and its edges in the order in which they are
read. -/
def archBoundaries (nodes : List Node) (edges : List Edge) : List Boundary :=
  let calls := (edges.filter fun e => e.type = bytesOf "CALLS").filterMap
    (crossing (lookupPkg (packageTable nodes)))
  (sortByCount (calls.foldl (accumBoundary 32) [])).take 10

def packageOf (nodes : List Node) (id : Int) : Option CStr :=
  (nodes.find? fun n => n.id = id && isDefinition n).map fun n =>
    cbmQnToPackage (n.qualifiedName.getD [])

/-- The pair of packages of each call between different ones. -/
def crossings (nodes : List Node) (edges : List Edge) : List (CStr × CStr) :=
  (edges.filter fun e => e.type = bytesOf "CALLS").filterMap (crossing (packageOf nodes))

structure TopTen (calls : List (CStr × CStr)) (result : List Boundary) : Prop where
  length : result.length = min 10 calls.toFinset.card
  pairs : (result.map fun b => (b.fromPkg, b.toPkg)).Nodup
  counts : ∀ b ∈ result, 0 < b.callCount ∧ b.callCount = calls.count (b.fromPkg, b.toPkg)
  sorted : result.Pairwise fun x y => y.callCount ≤ x.callCount
  most : ∀ p ∈ calls, (∀ b ∈ result, (b.fromPkg, b.toPkg) ≠ p) →
    ∀ b ∈ result, calls.count p ≤ b.callCount

/-- The pairs with fewer calls than a pair. -/
def fewer (calls : List (CStr × CStr)) (p : CStr × CStr) : Finset (CStr × CStr) :=
  calls.toFinset.filter fun q => calls.count q < calls.count p

section Search

variable {table : List (Int × CStr)}

theorem find?_of_mem (hsorted : table.Pairwise fun x y => x.1 < y.1) {entry : Int × CStr}
    (hmem : entry ∈ table) : table.find? (·.1 = entry.1) = some entry := by
  induction table with
  | nil => exact absurd hmem List.not_mem_nil
  | cons first table ih =>
      obtain ⟨hfirst, hrest⟩ := List.pairwise_cons.mp hsorted
      rw [List.find?_cons]
      rcases List.mem_cons.mp hmem with rfl | hmem
      · rw [decide_eq_true rfl]
      · rw [decide_eq_false (hfirst entry hmem).ne]
        exact ih hrest hmem

theorem lookupLoop_eq (hsorted : table.Pairwise fun x y => x.1 < y.1) (id : Int) :
    ∀ (fuel : Nat) (lo hi : Int), 0 ≤ lo → hi < table.length → hi + 1 - lo ≤ fuel →
      (∀ i : Nat, ∀ h : i < table.length, table[i].1 = id → lo ≤ i ∧ i ≤ hi) →
      lookupLoop table id fuel lo hi = (table.find? (·.1 = id)).map Prod.snd := by
  have hempty : ∀ lo hi : Int, hi < lo →
      (∀ i : Nat, ∀ h : i < table.length, table[i].1 = id → lo ≤ i ∧ i ≤ hi) →
      (table.find? (·.1 = id)).map Prod.snd = none := by
    intro lo hi hlt hrange
    rw [Option.map_eq_none_iff, List.find?_eq_none]
    intro entry hentry heq
    obtain ⟨i, h, rfl⟩ := List.mem_iff_getElem.mp hentry
    have hbounds := hrange i h (of_decide_eq_true heq)
    omega
  intro fuel
  induction fuel with
  | zero =>
      intro lo hi _ _ hfuel hrange
      exact (hempty lo hi (by omega) hrange).symm
  | succ fuel ih =>
      intro lo hi hlo hhi hfuel hrange
      rw [lookupLoop]
      by_cases hle : lo ≤ hi
      · have hmid : (lo + (hi - lo) / 2).toNat < table.length := by omega
        have hget : table.getD (lo + (hi - lo) / 2).toNat (0, []) =
            table[(lo + (hi - lo) / 2).toNat] := by
          rw [List.getD_eq_getElem?_getD, List.getElem?_eq_getElem hmid, Option.getD_some]
        have horder : ∀ i j : Nat, ∀ (hi : i < table.length) (hj : j < table.length), i < j →
            table[i].1 < table[j].1 :=
          fun i j hi hj hij => List.pairwise_iff_getElem.mp hsorted i j hi hj hij
        simp only [if_pos hle, hget]
        by_cases heq : table[(lo + (hi - lo) / 2).toNat].1 = id
        · rw [if_pos heq, ← heq, find?_of_mem hsorted (List.getElem_mem hmid), Option.map_some]
        · rw [if_neg heq]
          by_cases hless : table[(lo + (hi - lo) / 2).toNat].1 < id
          · -- the id is behind the middle
            rw [if_pos hless]
            refine ih _ _ (by omega) hhi (by omega) fun i h hid => ?_
            have hbounds := hrange i h hid
            by_contra hbefore
            rcases Nat.lt_or_ge i (lo + (hi - lo) / 2).toNat with hlt | hge
            · have hlow := horder i _ h hmid hlt
              omega
            · obtain rfl : i = (lo + (hi - lo) / 2).toNat := by omega
              exact heq hid
          · -- it is before the middle
            rw [if_neg hless]
            refine ih _ _ hlo (by omega) (by omega) fun i h hid => ?_
            have hbounds := hrange i h hid
            by_contra hbehind
            rcases Nat.lt_or_ge (lo + (hi - lo) / 2).toNat i with hlt | hge
            · have hhigh := horder _ i hmid h hlt
              omega
            · obtain rfl : i = (lo + (hi - lo) / 2).toNat := by omega
              exact heq hid
      · rw [if_neg hle]
        exact (hempty lo hi (by omega) hrange).symm

theorem pairwise_packageTable {nodes : List Node} (hids : (nodes.map Node.id).Nodup) :
    (packageTable nodes).Pairwise fun x y => x.1 < y.1 := by
  have hsorted := List.pairwise_insertionSort (fun n m : Node => n.id ≤ m.id)
    (nodes.filter isDefinition)
  have hperm := List.perm_insertionSort (fun n m : Node => n.id ≤ m.id) (nodes.filter isDefinition)
  have hnodup : (nodes.filter isDefinition).Pairwise fun n m => n.id ≠ m.id :=
    (List.pairwise_map.mp hids).sublist List.filter_sublist
  have hne := (hperm.pairwise_iff fun {n m : Node} (h : n.id ≠ m.id) => h.symm).mpr hnodup
  rw [packageTable, List.pairwise_map]
  exact (hsorted.and hne).imp fun ⟨hle, hne⟩ => lt_of_le_of_ne hle hne

theorem lookupPkg_eq {nodes : List Node} (hids : (nodes.map Node.id).Nodup) (id : Int) :
    lookupPkg (packageTable nodes) id = packageOf nodes id := by
  have hsorted := pairwise_packageTable hids
  rw [lookupPkg, lookupLoop_eq hsorted id _ _ _ le_rfl (by omega) (by omega)
    fun i h _ => by omega, packageOf]
  have hmem : ∀ n, n ∈ (nodes.filter isDefinition).insertionSort (fun n m => n.id ≤ m.id) ↔
      n ∈ nodes ∧ isDefinition n = true := fun n => by
    rw [List.mem_insertionSort, List.mem_filter]
  cases hfind : nodes.find? fun n => n.id = id && isDefinition n with
  | none =>
      rw [Option.map_none, Option.map_eq_none_iff, List.find?_eq_none]
      intro entry hentry heq
      obtain ⟨n, hn, rfl⟩ := List.mem_map.mp hentry
      have hnone := List.find?_eq_none.mp hfind n ((hmem n).mp hn).1
      rw [Bool.and_eq_true] at hnone
      exact hnone ⟨heq, ((hmem n).mp hn).2⟩
  | some n =>
      have hn := List.find?_some hfind
      rw [Bool.and_eq_true, decide_eq_true_iff] at hn
      have hentry : (n.id, cbmQnToPackage (n.qualifiedName.getD [])) ∈ packageTable nodes :=
        List.mem_map.mpr ⟨n, (hmem n).mpr ⟨List.mem_of_find?_eq_some hfind, hn.2⟩, rfl⟩
      have hrow := find?_of_mem hsorted hentry
      rw [hn.1] at hrow
      rw [hrow]
      rfl

end Search

section Counts

/-- What the array holds for the pairs that have been met. -/
def counted (calls : List (CStr × CStr)) (p : CStr × CStr) : Boundary :=
  ⟨p.1, p.2, calls.count p⟩

theorem modify_counted {calls l : List (CStr × CStr)} {pair : CStr × CStr} {i : Nat}
    (hnodup : l.Nodup) (hget : l[i]? = some pair) :
    (l.map (counted calls)).modify i (fun b => { b with callCount := b.callCount + 1 }) =
      l.map (counted (calls ++ [pair])) := by
  apply List.ext_getElem?
  intro j
  rw [List.getElem?_modify, List.getElem?_map, List.getElem?_map]
  cases hj : l[j]? with
  | none =>
      rw [Option.map_none]
      rfl
  | some q =>
      have hq : (calls ++ [pair]).count q = calls.count q + if pair = q then 1 else 0 := by
        rw [List.count_append, List.count_singleton]
        simp only [beq_iff_eq]
      simp only [Option.map_eq_map, Option.map_some, counted, hq]
      by_cases hij : i = j
      · obtain rfl : pair = q := by
          rw [← hij, hget] at hj
          exact Option.some.inj hj
        rw [if_pos hij, if_pos rfl]
      · have hne : pair ≠ q := by
          rintro rfl
          obtain ⟨hi, hgeti⟩ := List.getElem?_eq_some_iff.mp hget
          obtain ⟨hj', hgetj⟩ := List.getElem?_eq_some_iff.mp hj
          exact hij ((hnodup.getElem_inj_iff).mp (hgeti.trans hgetj.symm))
        rw [if_neg hij, if_neg hne, Nat.add_zero]

theorem map_counted_concat {calls l : List (CStr × CStr)} {pair : CStr × CStr}
    (hnew : pair ∉ l) : l.map (counted (calls ++ [pair])) = l.map (counted calls) := by
  apply List.map_congr_left
  intro q hq
  have hne : pair ≠ q := fun h => hnew (h ▸ hq)
  rw [counted, counted, List.count_append, List.count_singleton, if_neg (by simpa using hne),
    Nat.add_zero]

theorem foldl_accumBoundary (bcap : Nat) (calls : List (CStr × CStr)) :
    calls.foldl (accumBoundary bcap) [] =
      ((firsts id calls).take bcap).map (counted calls) := by
  induction calls using List.reverseRecOn with
  | nil =>
      have hnil : firsts id ([] : List (CStr × CStr)) = [] := rfl
      rw [hnil, List.take_nil]
      rfl
  | append_singleton calls pair ih =>
      have hnodup : ((firsts id calls).take bcap).Nodup := by
        have hkeys := nodup_keys_firsts id calls
        rw [List.map_id] at hkeys
        exact hkeys.sublist (List.take_sublist _ _)
      have hpair : ∀ q : CStr × CStr, ((counted calls q).fromPkg, (counted calls q).toPkg) = q :=
        fun _ => rfl
      rw [List.foldl_append, List.foldl_cons, List.foldl_nil, ih, accumBoundary, List.findIdx?_map,
        firsts_concat, List.map_id, id]
      cases hfind : ((firsts id calls).take bcap).findIdx?
          ((fun b : Boundary => decide ((b.fromPkg, b.toPkg) = pair)) ∘ counted calls) with
      | some i =>
          obtain ⟨hi, heq, -⟩ := List.findIdx?_eq_some_iff_getElem.mp hfind
          have heq : ((firsts id calls).take bcap)[i] = pair := of_decide_eq_true heq
          have hold : pair ∈ firsts id calls :=
            List.mem_of_mem_take (heq ▸ List.getElem_mem hi)
          rw [if_pos hold]
          exact modify_counted hnodup (heq ▸ List.getElem?_eq_getElem hi)
      | none =>
          have hnew : pair ∉ (firsts id calls).take bcap := by
            intro hmem
            have hne := List.findIdx?_eq_none_iff.mp hfind pair hmem
            exact absurd (decide_eq_true (hpair pair)) (by simpa using hne)
          simp only [List.length_map, List.length_take]
          by_cases hroom : min bcap (firsts id calls).length < bcap
          · have hshort : (firsts id calls).length ≤ bcap := by omega
            rw [List.take_of_length_le hshort] at hnew ⊢
            rw [if_pos hroom, if_neg hnew, List.take_of_length_le (by
              rw [List.length_append, List.length_singleton]
              omega), List.map_append, map_counted_concat hnew, List.map_singleton, counted,
              List.count_append, List.count_singleton_self, List.count_eq_zero.mpr fun h =>
                hnew (by simpa using (mem_keys_firsts id calls pair).mpr (by simpa using h))]
          · rw [if_neg hroom]
            split
            · rw [map_counted_concat hnew]
            · rw [List.take_append_of_le_length (by omega), map_counted_concat hnew]

end Counts

section Result

theorem sortByCount_perm (boundaries : List Boundary) :
    (sortByCount boundaries).Perm boundaries := by
  rw [sortByCount, List.foldl_eq_foldr_reverse]
  exact (List.reverse_perm _).trans
    ((List.perm_insertionSort (fun x y : Boundary => x.callCount ≤ y.callCount) _).trans
      (List.reverse_perm _))

theorem pairwise_sortByCount (boundaries : List Boundary) :
    (sortByCount boundaries).Pairwise fun x y => y.callCount ≤ x.callCount := by
  have : Std.Total (fun x y : Boundary => x.callCount ≤ y.callCount) :=
    ⟨fun x y => Nat.le_total x.callCount y.callCount⟩
  have : IsTrans Boundary (fun x y => x.callCount ≤ y.callCount) :=
    ⟨fun _ _ _ hxy hyz => Nat.le_trans hxy hyz⟩
  rw [sortByCount, List.foldl_eq_foldr_reverse, List.pairwise_reverse]
  exact List.pairwise_insertionSort (fun x y : Boundary => x.callCount ≤ y.callCount) _

/-- The pairs that the array has room for. -/
def kept (calls : List (CStr × CStr)) : List (CStr × CStr) :=
  (firsts id calls).take 32

def topEntries (calls : List (CStr × CStr)) : List Boundary :=
  (sortByCount ((kept calls).map (counted calls))).take 10

theorem archBoundaries_eq {nodes : List Node} (hids : (nodes.map Node.id).Nodup)
    (edges : List Edge) : archBoundaries nodes edges = topEntries (crossings nodes edges) := by
  have hlookup : lookupPkg (packageTable nodes) = packageOf nodes := funext (lookupPkg_eq hids)
  rw [archBoundaries, topEntries, kept, ← foldl_accumBoundary, crossings, hlookup]

variable {calls : List (CStr × CStr)}

theorem length_firsts_id (calls : List (CStr × CStr)) :
    (firsts id calls).length = calls.toFinset.card := by
  rw [← List.toFinset_card_of_nodup (nodup_firsts_id calls)]
  congr 1
  ext p
  rw [List.mem_toFinset, List.mem_toFinset, mem_firsts_id]

theorem nodup_kept (calls : List (CStr × CStr)) : (kept calls).Nodup :=
  (nodup_firsts_id calls).sublist (List.take_sublist _ _)

theorem length_kept (calls : List (CStr × CStr)) :
    (kept calls).length = min 32 calls.toFinset.card := by
  rw [kept, List.length_take, length_firsts_id]

theorem mem_topEntries {b : Boundary} (hb : b ∈ sortByCount ((kept calls).map (counted calls))) :
    ∃ p ∈ kept calls, b = counted calls p := by
  obtain ⟨p, hp, rfl⟩ := List.mem_map.mp ((sortByCount_perm _).mem_iff.mp hb)
  exact ⟨p, hp, rfl⟩

theorem countP_sortByCount (bound : Nat) :
    (sortByCount ((kept calls).map (counted calls))).countP (bound ≤ Boundary.callCount ·) +
      ((kept calls).filter fun q => calls.count q < bound).length = (kept calls).length := by
  rw [(sortByCount_perm _).countP_eq, List.countP_map, ← List.countP_eq_length_filter,
    List.length_eq_countP_add_countP (fun q => decide (bound ≤ calls.count q)) (l := kept calls)]
  congr 1
  refine List.countP_congr fun q _ => ?_
  simp only [decide_eq_true_eq, Nat.not_le]

theorem topTen_of_dropped (hdropped : ∀ p ∈ calls, p ∉ kept calls →
    ∀ b ∈ topEntries calls, calls.count p ≤ b.callCount) : TopTen calls (topEntries calls) where
  length := by
    rw [topEntries, List.length_take, (sortByCount_perm _).length_eq, List.length_map, length_kept]
    omega
  pairs := by
    have hpairs : ((sortByCount ((kept calls).map (counted calls))).map
        fun b => (b.fromPkg, b.toPkg)).Nodup := by
      rw [((sortByCount_perm _).map _).nodup_iff, List.map_map]
      exact (nodup_kept calls).map fun _ _ h => h
    exact hpairs.sublist ((List.take_sublist _ _).map _)
  counts := by
    intro b hb
    obtain ⟨p, hp, rfl⟩ := mem_topEntries (List.mem_of_mem_take hb)
    have hmem : p ∈ calls := mem_firsts_id.mp (List.mem_of_mem_take hp)
    exact ⟨List.count_pos_iff.mpr hmem, rfl⟩
  sorted := (pairwise_sortByCount _).sublist (List.take_sublist _ _)
  most := by
    intro p hp hout b hb
    by_cases hkept : p ∈ kept calls
    · have hentry : counted calls p ∈ sortByCount ((kept calls).map (counted calls)) :=
        (sortByCount_perm _).mem_iff.mpr (List.mem_map_of_mem hkept)
      rw [← List.take_append_drop 10 (sortByCount _), List.mem_append] at hentry
      exact pairwise_take_drop (pairwise_sortByCount _) hb
        (hentry.resolve_left fun h => hout _ h rfl)
    · exact hdropped p hp hkept b hb

theorem dropped_iff {p : CStr × CStr} (hp : p ∈ calls) (hdropped : p ∉ kept calls) :
    (∀ b ∈ topEntries calls, calls.count p ≤ b.callCount) ↔
      ((kept calls).filter fun q => calls.count q < calls.count p).length ≤ 22 := by
  have hfull : (kept calls).length = 32 := by
    rw [length_kept, Nat.min_eq_left]
    by_contra hfew
    refine hdropped ?_
    rw [kept, List.take_of_length_le (by rw [length_firsts_id]; omega)]
    exact mem_firsts_id.mpr hp
  have hcount := @countP_sortByCount calls (calls.count p)
  constructor
  · intro hall
    by_contra hmany
    have hlong : 10 ≤ (sortByCount ((kept calls).map (counted calls))).length := by
      rw [(sortByCount_perm _).length_eq, List.length_map, hfull]
      decide
    obtain ⟨b, hb, hlt⟩ := @exists_mem_take_lt _ Boundary.callCount _ 10 (calls.count p) hlong
      (by omega)
    have hle := hall b hb
    omega
  · intro hfew b hb
    exact @mem_take_le_of_countP _ Boundary.callCount _ _ _ (pairwise_sortByCount _) (by omega) _ hb

end Result

section Orders

variable {nodes : List Node} {edges : List Edge}

theorem crossings_append (edges edges' : List Edge) :
    crossings nodes (edges ++ edges') = crossings nodes edges ++ crossings nodes edges' := by
  rw [crossings, List.filter_append, List.filterMap_append]
  rfl

/-- The pair of an edge is one of `pairs`. -/
def crossesIn (nodes : List Node) (pairs : Finset (CStr × CStr)) (e : Edge) : Bool :=
  (crossing (packageOf nodes) e).any (· ∈ pairs)

variable {pairs : Finset (CStr × CStr)}
variable {calls : List (CStr × CStr)}

theorem mem_crossings_filter (hpairs : ∀ q ∈ pairs, q ∈ crossings nodes edges) (q : CStr × CStr) :
    q ∈ crossings nodes (edges.filter (crossesIn nodes pairs)) ↔ q ∈ pairs := by
  rw [crossings, List.mem_filterMap]
  constructor
  · rintro ⟨e, he, heq⟩
    have hin := (List.mem_filter.mp (List.mem_filter.mp he).1).2
    rw [crossesIn, heq, Option.any_some, decide_eq_true_iff] at hin
    exact hin
  · intro hq
    obtain ⟨e, he, heq⟩ := List.mem_filterMap.mp (hpairs q hq)
    obtain ⟨hmem, htype⟩ := List.mem_filter.mp he
    refine ⟨e, List.mem_filter.mpr ⟨List.mem_filter.mpr ⟨hmem, ?_⟩, htype⟩, heq⟩
    rw [crossesIn, heq, Option.any_some]
    exact decide_eq_true hq

theorem kept_of_first (hcard : pairs.card = 32) {calls' : List (CStr × CStr)}
    (hcalls : ∀ q, q ∈ calls ↔ q ∈ pairs) : kept (calls ++ calls') = firsts id calls := by
  have hset : calls.toFinset = pairs := by
    ext q
    rw [List.mem_toFinset, hcalls]
  have hlength : (firsts id calls).length = 32 := by
    rw [length_firsts_id, hset, hcard]
  obtain ⟨rest, hrest⟩ := firsts_prefix_append id calls calls'
  rw [kept, ← hrest, ← hlength, List.take_left]

theorem TopTen.perm {calls' : List (CStr × CStr)} {result : List Boundary}
    (hperm : calls.Perm calls') (htop : TopTen calls result) : TopTen calls' result where
  length := by rw [htop.length, List.toFinset_eq_of_perm _ _ hperm]
  pairs := htop.pairs
  counts b hb := by
    rw [← hperm.count_eq]
    exact htop.counts b hb
  sorted := htop.sorted
  most p hp hout := by
    rw [← hperm.count_eq]
    exact htop.most p (hperm.mem_iff.mpr hp) hout

theorem card_filter_le_of_topTen {first rest : List (CStr × CStr)}
    (hcalls : (first ++ rest).Perm calls) (hcard : pairs.card = 32)
    (hfirst : ∀ q, q ∈ first ↔ q ∈ pairs) {p : CStr × CStr} (hp : p ∈ calls) (hout : p ∉ pairs)
    (htop : TopTen calls (topEntries (first ++ rest))) :
    (pairs.filter fun q => calls.count q < calls.count p).card ≤ 22 := by
  have hkept : ∀ q, q ∈ kept (first ++ rest) ↔ q ∈ pairs := by
    intro q
    rw [kept_of_first hcard hfirst, mem_firsts_id, hfirst]
  have hdropped : p ∉ kept (first ++ rest) := fun h => hout ((hkept p).mp h)
  have hfew := (dropped_iff (hcalls.mem_iff.mpr hp) hdropped).mp fun b hb => by
    rw [hcalls.count_eq]
    refine htop.most p hp (fun b hb heq => ?_) b hb
    obtain ⟨q, hq, rfl⟩ := mem_topEntries (List.mem_of_mem_take hb)
    exact hdropped (heq ▸ hq)
  refine le_trans (le_trans (Finset.card_le_card fun q hq => ?_) (List.toFinset_card_le _)) hfew
  obtain ⟨hq, hlt⟩ := Finset.mem_filter.mp hq
  rw [List.mem_toFinset, List.mem_filter, hkept, decide_eq_true_iff, hcalls.count_eq,
    hcalls.count_eq]
  exact ⟨hq, hlt⟩

/-- The result is the top ten in every order of the edges if and only if there are at most 32 pairs,
or no pair has more calls than 23 others. -/
theorem topTen_iff (s : Store) :
    (∀ edges, edges.Perm s.edges →
        TopTen (crossings s.nodes s.edges) (archBoundaries s.nodes edges)) ↔
      (crossings s.nodes s.edges).toFinset.card ≤ 32 ∨
        ∀ p ∈ crossings s.nodes s.edges, (fewer (crossings s.nodes s.edges) p).card ≤ 22 := by
  have hcount : ∀ {edges : List Edge}, edges.Perm s.edges →
      (crossings s.nodes edges).Perm (crossings s.nodes s.edges) :=
    fun hperm => (hperm.filter _).filterMap _
  constructor
  · intro htop
    by_contra hneg
    simp only [not_or, not_le, not_forall] at hneg
    obtain ⟨hmany, p, hp, hfewer⟩ := hneg
    -- 32 other pairs, 23 of them with fewer calls
    obtain ⟨low, hlow, hlowCard⟩ := Finset.exists_subset_card_eq hfewer
    have hout : p ∉ low := fun h => absurd (Finset.mem_filter.mp (hlow h)).2 (lt_irrefl _)
    have hsub : low ⊆ (crossings s.nodes s.edges).toFinset.erase p := fun q hq =>
      Finset.mem_erase.mpr ⟨fun h => hout (h ▸ hq), (Finset.mem_filter.mp (hlow hq)).1⟩
    have hroom : 32 ≤ ((crossings s.nodes s.edges).toFinset.erase p).card := by
      rw [Finset.card_erase_of_mem (List.mem_toFinset.mpr hp)]
      omega
    obtain ⟨pairs, hlowPairs, hpairs, hcard⟩ :=
      Finset.exists_subsuperset_card_eq hsub (by omega) hroom
    have hin : ∀ q ∈ pairs, q ∈ crossings s.nodes s.edges := fun q hq =>
      List.mem_toFinset.mp (Finset.mem_of_mem_erase (hpairs hq))
    -- their edges come first
    have hperm := List.filter_append_perm (crossesIn s.nodes pairs) s.edges
    have htop := htop _ hperm
    have hcalls := hcount hperm
    rw [archBoundaries_eq s.nodeIds, crossings_append] at htop
    rw [crossings_append] at hcalls
    have hfew := card_filter_le_of_topTen hcalls hcard (mem_crossings_filter hin) hp
      (fun h => Finset.notMem_erase p _ (hpairs h)) htop
    have hmore : low.card ≤ (pairs.filter fun q => (crossings s.nodes s.edges).count q <
        (crossings s.nodes s.edges).count p).card :=
      Finset.card_le_card fun q hq =>
        Finset.mem_filter.mpr ⟨hlowPairs hq, (Finset.mem_filter.mp (hlow hq)).2⟩
    omega
  · intro hcond edges hperm
    have hcalls := hcount hperm
    rw [archBoundaries_eq s.nodeIds]
    refine TopTen.perm hcalls (topTen_of_dropped fun p hp hdropped => ?_)
    refine (dropped_iff hp hdropped).mpr ?_
    rcases hcond with hfew | hfewer
    · refine absurd (mem_firsts_id.mpr hp) fun h => hdropped ?_
      rw [kept, List.take_of_length_le]
      · exact h
      · rw [length_firsts_id, List.toFinset_eq_of_perm _ _ hcalls]
        exact hfew
    · refine le_trans ?_ (hfewer p (hcalls.mem_iff.mp hp))
      rw [← List.toFinset_card_of_nodup ((nodup_kept _).filter _)]
      refine Finset.card_le_card fun q hq => ?_
      rw [List.mem_toFinset, List.mem_filter, decide_eq_true_iff, hcalls.count_eq,
        hcalls.count_eq] at hq
      exact Finset.mem_filter.mpr ⟨List.mem_toFinset.mpr
        (hcalls.mem_iff.mp (mem_firsts_id.mp (List.mem_of_mem_take hq.1))), hq.2⟩

/-- A function of the package that `letter` names. -/
def functionOf (id : Nat) (letter : UInt8) : Node where
  id := id
  project := some (bytesOf "p")
  label := some (bytesOf "Function")
  name := some (bytesOf "f")
  qualifiedName := some [112, 46, letter]
  filePath := none
  startLine := 0
  endLine := 0
  propertiesJson := none

/-- One function calls the functions of 33 packages, the last one has two. -/
def callsOfOne : Store where
  nodes := (List.range 35).map fun i => functionOf i (65 + (min i 33).toUInt8)
  edges := (List.range 34).map fun i => ⟨i, 0, i + 1, bytesOf "CALLS", none⟩
  nodeIds := by decide +kernel
  edgeKeys := by decide +kernel

/-- The two calls of the last package are not counted, and pairs with one call are returned. -/
theorem not_topTen_callsOfOne : ¬ ∀ (s : Store) (edges : List Edge), edges.Perm s.edges →
    TopTen (crossings s.nodes s.edges) (archBoundaries s.nodes edges) := by
  intro hall
  have hmost := (hall callsOfOne callsOfOne.edges (List.Perm.refl _)).most ([65], [98])
    (by decide +kernel) (by decide +kernel)
  revert hmost
  decide +kernel

end Orders

end Query
end CodebaseMemory
