import Mathlib.Data.List.Basic
import Mathlib.Data.List.Find

/-!
# Hash indexes with chained entries

An index over an array that only grows: a bucket holds the number of the entry
added last to it, and every entry the number of the one that was there before.
-/

namespace CodebaseMemory
namespace Lib

universe u

section Chain

variable {H : Type u}

/-- An entry: its hash, what it stands for, and the next entry in its chain. -/
structure HashEntry (H : Type u) where
  hash : H
  payloadIndex : Nat
  nextIndex : Option Nat
  slot : Nat

/-- Buckets, each with the number of its first entry, and the entries. -/
structure HashIndex (H : Type u) where
  buckets : List (Option Nat)
  entries : List (HashEntry H)

/-- Add an entry in front of its chain. -/
def HashIndex.push (slotOf : H → Nat) (ix : HashIndex H) (item : H × Nat) : HashIndex H :=
  { buckets := ix.buckets.set (slotOf item.1) (some ix.entries.length)
    entries := ix.entries ++
      [{ hash := item.1
         payloadIndex := item.2
         nextIndex := (ix.buckets[slotOf item.1]?).join
         slot := slotOf item.1 }] }

def HashIndex.build (slotOf : H → Nat) (bucketCount : Nat) (items : List (H × Nat)) :
    HashIndex H :=
  items.foldl (HashIndex.push slotOf) { buckets := List.replicate bucketCount none, entries := [] }

/-- The entries from one on, along `nextIndex`. -/
def chainFrom (entries : List (HashEntry H)) : Nat → Option Nat → List (HashEntry H)
  | 0, _ => []
  | _ + 1, none => []
  | fuel + 1, some i =>
      match entries[i]? with
      | none => []
      | some e => e :: chainFrom entries fuel e.nextIndex

def HashIndex.chain (ix : HashIndex H) (slot : Nat) : List (HashEntry H) :=
  chainFrom ix.entries ix.entries.length (ix.buckets[slot]?).join

/-- The payload of the first entry of the chain of `h` that has the hash `h` and passes `p`. -/
def HashIndex.findIn [DecidableEq H] (slotOf : H → Nat) (ix : HashIndex H) (h : H)
    (p : Nat → Bool) : Option Nat :=
  ((ix.chain (slotOf h)).find? fun e => e.hash = h ∧ p e.payloadIndex).map
    HashEntry.payloadIndex

/-- What `push` keeps, for the items that were pushed. -/
structure Chained (slotOf : H → Nat) (bucketCount : Nat) (items : List (H × Nat))
    (ix : HashIndex H) : Prop where
  buckets_length : ix.buckets.length = bucketCount
  entries_map : ix.entries.map (fun e => (e.hash, e.payloadIndex)) = items
  slot_eq : ∀ e ∈ ix.entries, e.slot = slotOf e.hash
  next_lt : ∀ e ∈ ix.entries, ∀ i, e.nextIndex = some i → i < ix.entries.length
  head_lt : ∀ s i : Nat, (ix.buckets[s]?).join = some i → i < ix.entries.length
  /-- enough steps along a chain give the entries of the slot -/
  chain_eq : ∀ s : Nat, s < bucketCount → ∀ fuel, ix.entries.length ≤ fuel →
    chainFrom ix.entries fuel (ix.buckets[s]?).join =
      (ix.entries.filter fun e => e.slot = s).reverse

theorem chainFrom_append {entries : List (HashEntry H)} (more : List (HashEntry H))
    (hnext : ∀ e ∈ entries, ∀ i, e.nextIndex = some i → i < entries.length) (fuel : Nat) :
    ∀ start : Option Nat, (∀ i, start = some i → i < entries.length) →
      chainFrom (entries ++ more) fuel start = chainFrom entries fuel start := by
  induction fuel with
  | zero => exact fun _ _ => rfl
  | succ fuel ih =>
      intro start hstart
      cases start with
      | none => rfl
      | some i =>
          have hi : i < entries.length := hstart i rfl
          have hget : entries[i]? = some entries[i] := List.getElem?_eq_getElem hi
          rw [chainFrom, chainFrom, List.getElem?_append_left hi, hget]
          exact congrArg _ (ih _ (hnext _ (List.getElem_mem hi)))

variable {slotOf : H → Nat} {bucketCount : Nat} {items : List (H × Nat)} {ix : HashIndex H}

theorem chained_empty :
    Chained slotOf bucketCount []
      { buckets := List.replicate bucketCount none, entries := [] } := by
  have hnone : ∀ s : Nat, ((List.replicate bucketCount (none : Option Nat))[s]?).join = none := by
    intro s
    rw [List.getElem?_replicate]
    split <;> rfl
  exact
    { buckets_length := List.length_replicate
      entries_map := rfl
      slot_eq := fun e he => absurd he (by simp)
      next_lt := fun e he => absurd he (by simp)
      head_lt := fun s i h => absurd (h.symm.trans (hnone s)) (by simp)
      chain_eq := by
        intro s _ fuel _
        rw [hnone s]
        cases fuel <;> rfl }

theorem Chained.push (h : Chained slotOf bucketCount items ix) (item : H × Nat) :
    Chained slotOf bucketCount (items ++ [item]) (ix.push slotOf item) where
  buckets_length := by
    rw [HashIndex.push, List.length_set]
    exact h.buckets_length
  entries_map := by
    rw [HashIndex.push, List.map_append, h.entries_map]
    rfl
  slot_eq := by
    intro e he
    rcases List.mem_append.mp he with hold | hnew
    · exact h.slot_eq e hold
    · rw [List.mem_singleton.mp hnew]
  next_lt := by
    intro e he i hi
    rw [HashIndex.push, List.length_append]
    rcases List.mem_append.mp he with hold | hnew
    · exact Nat.lt_add_right _ (h.next_lt e hold i hi)
    · rw [List.mem_singleton.mp hnew] at hi
      exact Nat.lt_add_right _ (h.head_lt _ i hi)
  head_lt := by
    intro s i hi
    rw [HashIndex.push, List.length_append]
    rw [HashIndex.push, List.getElem?_set] at hi
    split at hi
    · split at hi
      · obtain rfl : ix.entries.length = i := Option.some.inj hi
        exact Nat.lt_succ_self _
      · exact absurd hi (by simp)
    · exact Nat.lt_add_right _ (h.head_lt s i hi)
  chain_eq := by
    intro s hs fuel hfuel
    simp only [HashIndex.push, List.length_append, List.length_singleton] at hfuel ⊢
    obtain ⟨fuel, rfl⟩ : ∃ m, fuel = m + 1 := ⟨fuel - 1, by omega⟩
    rw [List.filter_append, List.reverse_append, List.getElem?_set]
    by_cases hsame : slotOf item.1 = s
    · -- the new entry stands in front of the chain as it was
      subst hsame
      rw [if_pos rfl, if_pos (by rw [h.buckets_length]; exact hs)]
      have hold : ∀ e : HashEntry H,
          chainFrom (ix.entries ++ [e]) fuel (ix.buckets[slotOf item.1]?).join =
            (ix.entries.filter fun e => e.slot = slotOf item.1).reverse :=
        fun e => (chainFrom_append [e] h.next_lt fuel _ (h.head_lt _)).trans
          (h.chain_eq _ hs fuel (by omega))
      rw [Option.join_some, chainFrom, List.getElem?_append_right (Nat.le_refl _), Nat.sub_self]
      simp only [List.getElem?_cons_zero, List.filter_singleton, decide_true, cond_true,
        List.reverse_singleton, List.singleton_append]
      rw [hold]
    · rw [if_neg hsame, chainFrom_append _ h.next_lt _ _ (h.head_lt s),
        h.chain_eq s hs (fuel + 1) (by omega)]
      simp [hsame]

theorem Chained.foldl (h : Chained slotOf bucketCount items ix) (more : List (H × Nat)) :
    Chained slotOf bucketCount (items ++ more) (more.foldl (HashIndex.push slotOf) ix) := by
  induction more generalizing items ix with
  | nil => simpa using h
  | cons item more ih =>
      have hrest := ih (h.push item)
      rwa [List.append_assoc] at hrest

theorem chained_build (slotOf : H → Nat) (bucketCount : Nat) (items : List (H × Nat)) :
    Chained slotOf bucketCount items (HashIndex.build slotOf bucketCount items) := by
  have h := Chained.foldl (@chained_empty H slotOf bucketCount) items
  rwa [List.nil_append] at h

theorem chain_build (slotOf : H → Nat) (items : List (H × Nat)) {s : Nat} (hs : s < bucketCount) :
    ((HashIndex.build slotOf bucketCount items).chain s).map (fun e => (e.hash, e.payloadIndex)) =
      (items.filter fun item => slotOf item.1 = s).reverse := by
  have h := chained_build slotOf bucketCount items
  have hfilter : ((HashIndex.build slotOf bucketCount items).entries.filter fun e => e.slot = s) =
      (HashIndex.build slotOf bucketCount items).entries.filter fun e => slotOf e.hash = s :=
    List.filter_congr fun e he => by rw [h.slot_eq e he]
  rw [HashIndex.chain, h.chain_eq s hs _ (Nat.le_refl _), List.map_reverse, hfilter]
  conv_rhs => rw [← h.entries_map, List.filter_map]
  rfl

section Search

variable [DecidableEq H]
variable {p : Nat → Bool}
variable {h : H}

theorem findIn_build (hh : slotOf h < bucketCount)
    (hp : ∀ item ∈ items, p item.2 = true → item.1 = h) :
    (HashIndex.build slotOf bucketCount items).findIn slotOf h p =
      (items.map Prod.snd).reverse.find? p := by
  have hmap := chain_build slotOf items hh
  have hfind : (HashIndex.build slotOf bucketCount items).findIn slotOf h p =
      ((((HashIndex.build slotOf bucketCount items).chain (slotOf h)).map
        (fun e => (e.hash, e.payloadIndex))).find? fun item => item.1 = h ∧ p item.2).map
          Prod.snd := by
    rw [HashIndex.findIn, List.find?_map, Option.map_map]
    rfl
  rw [hfind, hmap, ← List.filter_reverse, List.find?_filter, ← List.map_reverse, List.find?_map]
  congr 1
  refine List.find?_congr fun item hitem => ?_
  have hitem' : item ∈ items := List.mem_reverse.mp hitem
  by_cases htest : p item.2 = true
  · simp [htest, hp item hitem' htest]
  · simp [htest]

theorem le_of_find?_reverse {l : List Nat} (hl : l.Pairwise (· < ·)) {i j : Nat}
    (h : l.reverse.find? p = some i) (hj : j ∈ l) (hpj : p j = true) : j ≤ i := by
  have hdesc : l.reverse.Pairwise (· > ·) := List.pairwise_reverse.mpr hl
  obtain ⟨_, before, after, hsplit, hbefore⟩ := List.find?_eq_some_iff_append.mp h
  have hj' : j ∈ before ++ i :: after := hsplit ▸ List.mem_reverse.mpr hj
  rw [hsplit] at hdesc
  rcases List.mem_append.mp hj' with hin | hin
  · exact absurd hpj (by simpa using hbefore j hin)
  · rcases List.mem_cons.mp hin with rfl | hin
    · exact Nat.le_refl _
    · exact Nat.le_of_lt ((List.pairwise_cons.mp (List.pairwise_append.mp hdesc).2.1).1 j hin)

theorem findIn_build_eq_some (hinc : (items.map Prod.snd).Pairwise (· < ·))
    (hh : slotOf h < bucketCount) (hp : ∀ item ∈ items, p item.2 = true → item.1 = h) {i : Nat}
    (hfind : (HashIndex.build slotOf bucketCount items).findIn slotOf h p = some i) :
    (i ∈ items.map Prod.snd ∧ p i = true) ∧ ∀ j ∈ items.map Prod.snd, p j = true → j ≤ i := by
  rw [findIn_build hh hp] at hfind
  have hi : i ∈ items.map Prod.snd := List.mem_reverse.mp (List.mem_of_find?_eq_some hfind)
  exact ⟨⟨hi, List.find?_some hfind⟩, fun j hj hpj => le_of_find?_reverse hinc hfind hj hpj⟩

theorem mem_chain_build (hh : slotOf h < bucketCount)
    (hp : ∀ item ∈ items, p item.2 = true → item.1 = h) :
    (∃ e ∈ (HashIndex.build slotOf bucketCount items).chain (slotOf h),
      e.hash = h ∧ p e.payloadIndex = true) ↔ ∃ item ∈ items, p item.2 = true := by
  have hfind := findIn_build hh hp
  have hsome : ((HashIndex.build slotOf bucketCount items).findIn slotOf h p).isSome = true ↔
      ∃ e ∈ (HashIndex.build slotOf bucketCount items).chain (slotOf h),
        e.hash = h ∧ p e.payloadIndex = true := by
    rw [HashIndex.findIn, Option.isSome_map, List.find?_isSome]
    simp
  rw [← hsome, hfind, List.find?_isSome]
  simp only [List.mem_reverse, List.mem_map, exists_exists_and_eq_and]

end Search

end Chain

end Lib
end CodebaseMemory
