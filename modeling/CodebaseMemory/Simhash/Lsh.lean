import CodebaseMemory.Lib.KeepFirst
import CodebaseMemory.Lib.LinearProbing
import CodebaseMemory.Simhash.MinHash

/-!
# Candidates for a fingerprint (`src/simhash/minhash.c`)

Each of 32 bands has buckets of entries, and a query goes through its bucket in each band,
unless the bucket is too large.  A table of the node ids keeps it from listing an entry
twice; the table has room for all entries of 32 buckets.
-/

namespace CodebaseMemory
namespace Simhash

open Lib
open Sqlite (CStr bytesOf)

def cbmLshBands : Nat := 32

def cbmLshRows : Nat := 2

def lshBucketCount : Nat := 65536

def maxBucketSize : Nat := 200

def seenSetSize : Nat := 16384

def knuthMult : Nat := 2654435761

/-- `cbm_lsh_entry_t` -/
structure LshEntry where
  nodeId : Int
  fingerprint : Minhash
  filePath : Option CStr
  fileExt : CStr

/-- `cbm_lsh_index`; a bucket has indices of entries. -/
structure LshIndex where
  bands : Nat → Nat → List Nat
  entries : List LshEntry

section Lsh

-- `XXH3_64bits` of two values
variable (xxh3 : UInt32 → UInt32 → Nat)

def bandHash (fp : Minhash) (band : Nat) : Nat :=
  let base := band * cbmLshRows
  xxh3 (fp.values.getD base 0) (fp.values.getD (base + 1) 0) % lshBucketCount

/-- `bucket_push`, for a bucket of a band. -/
def bucketPush (bands : Nat → Nat → List Nat) (b h entryIndex : Nat) : Nat → Nat → List Nat :=
  Function.update bands b (Function.update (bands b) h (bands b h ++ [entryIndex]))

def cbmLshNew : LshIndex :=
  { bands := fun _ _ => [], entries := [] }

def cbmLshInsert (idx : LshIndex) (entry : LshEntry) : LshIndex :=
  { entries := idx.entries ++ [entry]
    bands := (List.range cbmLshBands).foldl
      (fun bands b => bucketPush bands b (bandHash xxh3 entry.fingerprint b) idx.entries.length)
      idx.bands }

def seenSlot (nodeId : Int) : Nat :=
  (nodeId * knuthMult % seenSetSize).toNat

def seenSetInsert (slots : Nat → Int) (nodeId : Int) : Bool × (Nat → Int) :=
  insertInto 0 seenSetSize seenSlot slots nodeId

def bucketEntries (idx : LshIndex) (b h : Nat) : List LshEntry :=
  (idx.bands b h).filterMap fun i => idx.entries[i]?

/-- One round of the loop over a bucket, with the seen-set and the results. -/
def queryRound (st : (Nat → Int) × List LshEntry) (candidate : LshEntry) :
    (Nat → Int) × List LshEntry :=
  let seen := seenSetInsert st.1 candidate.nodeId
  (seen.2, if seen.1 then st.2 ++ [candidate] else st.2)

/-- One round of the loop over the bands. -/
def queryBand (idx : LshIndex) (fp : Minhash) (st : (Nat → Int) × List LshEntry) (b : Nat) :
    (Nat → Int) × List LshEntry :=
  let h := bandHash xxh3 fp b
  if maxBucketSize < (idx.bands b h).length then st
  else (bucketEntries idx b h).foldl queryRound st

def cbmLshQuery (idx : LshIndex) (fp : Minhash) : List LshEntry :=
  ((List.range cbmLshBands).foldl (queryBand xxh3 idx fp) (fun _ => 0, [])).2

/-- The loop over a bucket in `cbm_lsh_query_into`. -/
def intoBucket (outCap : Nat) : List LshEntry → (Nat → Int) × List LshEntry →
    (Nat → Int) × List LshEntry
  | [], st => st
  | candidate :: rest, st =>
      if st.2.length < outCap then intoBucket outCap rest (queryRound st candidate) else st

/-- The loop over the bands in `cbm_lsh_query_into`. -/
def intoBands (idx : LshIndex) (fp : Minhash) (outCap : Nat) :
    List Nat → (Nat → Int) × List LshEntry → (Nat → Int) × List LshEntry
  | [], st => st
  | b :: rest, st =>
      let h := bandHash xxh3 fp b
      if maxBucketSize < (idx.bands b h).length then intoBands idx fp outCap rest st
      else
        let st' := intoBucket outCap (bucketEntries idx b h) st
        if outCap ≤ st'.2.length then st' else intoBands idx fp outCap rest st'

def cbmLshQueryInto (idx : LshIndex) (fp : Minhash) (outCap : Int) : List LshEntry :=
  if outCap ≤ 0 then []
  else (intoBands xxh3 idx fp outCap.toNat (List.range cbmLshBands) (fun _ => 0, [])).2

def inserted (es : List LshEntry) : LshIndex :=
  es.foldl (cbmLshInsert xxh3) cbmLshNew

theorem inserted_concat (es : List LshEntry) (e : LshEntry) :
    inserted xxh3 (es ++ [e]) = cbmLshInsert xxh3 (inserted xxh3 es) e := by
  rw [inserted, List.foldl_append]
  rfl

theorem entries_inserted (es : List LshEntry) : (inserted xxh3 es).entries = es := by
  induction es using List.reverseRecOn with
  | nil => rfl
  | append_singleton es e ih => rw [inserted_concat, cbmLshInsert, ih]

theorem bucketPush_apply (bands : Nat → Nat → List Nat) (b h i c k : Nat) :
    bucketPush bands b h i c k = if c = b ∧ k = h then bands c k ++ [i] else bands c k := by
  rw [bucketPush, Function.update_apply]
  by_cases hc : c = b
  · subst hc
    rw [if_pos rfl, Function.update_apply]
    by_cases hk : k = h
    · rw [if_pos hk, if_pos ⟨rfl, hk⟩, hk]
    · rw [if_neg hk, if_neg fun hand => hk hand.2]
  · rw [if_neg hc, if_neg fun hand => hc hand.1]

theorem foldl_bucketPush (f : Nat → Nat) (i n : Nat) (bands : Nat → Nat → List Nat) (c k : Nat) :
    (List.range n).foldl (fun bands b => bucketPush bands b (f b) i) bands c k =
      if c < n ∧ k = f c then bands c k ++ [i] else bands c k := by
  induction n with
  | zero => rfl
  | succ n ih =>
      rw [List.range_succ, List.foldl_append, List.foldl_cons, List.foldl_nil, bucketPush_apply, ih]
      by_cases hc : c = n
      · subst hc
        have hbefore : ¬ (c < c ∧ k = f c) := fun hand => Nat.lt_irrefl c hand.1
        rw [if_neg hbefore]
        by_cases hk : k = f c
        · rw [if_pos ⟨rfl, hk⟩, if_pos ⟨Nat.lt_succ_self c, hk⟩]
        · rw [if_neg fun hand => hk hand.2, if_neg fun hand => hk hand.2]
      · rw [if_neg fun hand => hc hand.1]
        exact if_congr (by omega) rfl rfl

theorem bucket_inserted (es : List LshEntry) {b : Nat} (hb : b < cbmLshBands) (h : Nat) :
    (∀ i ∈ (inserted xxh3 es).bands b h, i < es.length) ∧
      ((inserted xxh3 es).bands b h).length =
        (es.filter fun e => bandHash xxh3 e.fingerprint b = h).length ∧
      bucketEntries (inserted xxh3 es) b h =
        es.filter fun e => bandHash xxh3 e.fingerprint b = h := by
  induction es using List.reverseRecOn with
  | nil => exact ⟨fun i hi => absurd hi List.not_mem_nil, rfl, rfl⟩
  | append_singleton es e ih =>
      obtain ⟨hbound, hcount, hentries⟩ := ih
      have hbands : (inserted xxh3 (es ++ [e])).bands b h =
          if h = bandHash xxh3 e.fingerprint b then
            (inserted xxh3 es).bands b h ++ [es.length]
          else (inserted xxh3 es).bands b h := by
        rw [inserted_concat, cbmLshInsert, entries_inserted]
        dsimp only
        rw [foldl_bucketPush (bandHash xxh3 e.fingerprint)]
        exact if_congr (and_iff_right hb) rfl rfl
      have hold : ((inserted xxh3 es).bands b h).filterMap (fun i => (es ++ [e])[i]?) =
          es.filter fun e => bandHash xxh3 e.fingerprint b = h := by
        rw [← hentries, bucketEntries, entries_inserted]
        refine List.filterMap_congr fun i hi => ?_
        rw [List.getElem?_append_left (hbound i hi)]
      have hlength : (es ++ [e]).length = es.length + 1 := by simp
      rw [bucketEntries, entries_inserted, hbands, hlength, List.filter_append]
      by_cases hh : h = bandHash xxh3 e.fingerprint b
      · rw [if_pos hh, List.filter_cons_of_pos (by simp [hh]), List.filter_nil]
        refine ⟨fun i hi => ?_, ?_, ?_⟩
        · rcases List.mem_append.mp hi with hi | hi
          · exact Nat.lt_succ_of_lt (hbound i hi)
          · rw [List.mem_singleton.mp hi]
            exact Nat.lt_succ_self _
        · rw [List.length_append, List.length_append, hcount]
          rfl
        · rw [List.filterMap_append, hold, List.filterMap_cons_some (b := e) (by simp),
            List.filterMap_nil]
      · rw [if_neg hh, List.filter_cons_of_neg (by simp [Ne.symm hh]), List.filter_nil,
          List.append_nil]
        exact ⟨fun i hi => Nat.lt_succ_of_lt (hbound i hi), hcount, hold⟩

end Lsh

/-- The comparison of the seen-set. -/
def sameNode (a b : LshEntry) : Bool :=
  a.nodeId == b.nodeId

theorem foldl_queryRound {cs : List LshEntry} (hpos : ∀ c ∈ cs, 0 < c.nodeId)
    (hsize : cs.length ≤ seenSetSize) :
    (cs.foldl queryRound (fun _ => 0, [])).2 = keepFirst sameNode cs ∧
      TableOf 0 seenSetSize seenSlot (cs.foldl queryRound (fun _ => 0, [])).1
        ((keepFirst sameNode cs).map LshEntry.nodeId) := by
  induction cs using List.reverseRecOn with
  | nil => exact ⟨rfl, tableOf_nil⟩
  | append_singleton cs c ih =>
      rw [List.length_append, List.length_singleton] at hsize
      obtain ⟨hlist, htable⟩ := ih (fun x hx => hpos x (List.mem_append_left _ hx)) (by omega)
      have hc : c.nodeId ≠ 0 :=
        Int.ne_of_gt (hpos c (List.mem_append_right _ List.mem_cons_self))
      have hlt : ((keepFirst sameNode cs).map LshEntry.nodeId).length < seenSetSize := by
        have hle := (keepFirst_sublist sameNode cs).length_le
        rw [List.length_map]
        omega
      rw [List.foldl_append, List.foldl_cons, List.foldl_nil, keepFirst_concat, queryRound,
        seenSetInsert, hlist]
      rcases insertInto_spec htable hc hlt with ⟨hmem, heq⟩ | ⟨hnew, hone, htable'⟩
      · -- a node that was seen
        obtain ⟨y, hy, hid⟩ := List.mem_map.mp hmem
        rw [heq, keepStep_of_any sameNode ⟨y, hy, beq_iff_eq.mpr hid.symm⟩]
        exact ⟨rfl, htable⟩
      · have hnone : ∀ y ∈ keepFirst sameNode cs, sameNode c y = false := by
          intro y hy
          refine Bool.eq_false_iff.mpr fun hid => hnew ?_
          exact List.mem_map.mpr ⟨y, hy, (beq_iff_eq.mp hid).symm⟩
        dsimp only
        rw [hone, keepStep_of_not_any sameNode hnone, List.map_append]
        exact ⟨rfl, htable'⟩

theorem prefix_foldl_queryRound (cs : List LshEntry) (st : (Nat → Int) × List LshEntry) :
    st.2 <+: (cs.foldl queryRound st).2 := by
  induction cs generalizing st with
  | nil => exact List.prefix_rfl
  | cons c cs ih =>
      refine List.IsPrefix.trans ?_ (ih (queryRound st c))
      rw [queryRound]
      dsimp only
      split
      · exact List.prefix_append _ _
      · exact List.prefix_rfl

theorem mem_foldl_queryRound {cs : List LshEntry} {st : (Nat → Int) × List LshEntry}
    {e : LshEntry} (he : e ∈ (cs.foldl queryRound st).2) : e ∈ st.2 ∨ e ∈ cs := by
  induction cs generalizing st with
  | nil => exact Or.inl he
  | cons c cs ih =>
      rcases ih he with hround | hlater
      · rw [queryRound] at hround
        dsimp only at hround
        split at hround
        · rcases List.mem_append.mp hround with hold | hc
          · exact Or.inl hold
          · exact Or.inr (List.mem_singleton.mp hc ▸ List.mem_cons_self)
        · exact Or.inl hround
      · exact Or.inr (List.mem_cons_of_mem c hlater)

theorem intoBucket_take (outCap : Nat) (cs : List LshEntry) (st : (Nat → Int) × List LshEntry)
    (hst : st.2.length ≤ outCap) :
    (intoBucket outCap cs st).2 = (cs.foldl queryRound st).2.take outCap ∧
      ((intoBucket outCap cs st).2.length < outCap →
        intoBucket outCap cs st = cs.foldl queryRound st) := by
  induction cs generalizing st with
  | nil => exact ⟨(List.take_of_length_le hst).symm, fun _ => rfl⟩
  | cons c cs ih =>
      rw [intoBucket]
      split
      · next hroom =>
          refine ih (queryRound st c) ?_
          rw [queryRound]
          dsimp only
          split
          · rw [List.length_append, List.length_singleton]
            omega
          · exact hst
      · next hfull =>
          refine ⟨?_, fun hlt => absurd hlt (by omega)⟩
          obtain ⟨rest, hrest⟩ := prefix_foldl_queryRound (c :: cs) st
          rw [← hrest, List.take_append_of_le_length (by omega), List.take_of_length_le hst]

section Query

variable (xxh3 : UInt32 → UInt32 → Nat) (idx : LshIndex) (fp : Minhash)

/-- What a query looks at in a band. -/
def looked (b : Nat) : List LshEntry :=
  if maxBucketSize < (idx.bands b (bandHash xxh3 fp b)).length then []
  else bucketEntries idx b (bandHash xxh3 fp b)

theorem foldl_queryBand (bs : List Nat) (st : (Nat → Int) × List LshEntry) :
    bs.foldl (queryBand xxh3 idx fp) st =
      (bs.flatMap (looked xxh3 idx fp)).foldl queryRound st := by
  rw [List.foldl_flatMap]
  congr 1
  funext st b
  rw [queryBand, looked]
  split <;> rfl

theorem intoBands_take (outCap : Nat) (bs : List Nat) (st : (Nat → Int) × List LshEntry)
    (hst : st.2.length ≤ outCap) :
    (intoBands xxh3 idx fp outCap bs st).2 =
      ((bs.flatMap (looked xxh3 idx fp)).foldl queryRound st).2.take outCap := by
  induction bs generalizing st with
  | nil => exact (List.take_of_length_le hst).symm
  | cons b bs ih =>
      rw [intoBands, List.flatMap_cons, List.foldl_append]
      by_cases hlarge : maxBucketSize < (idx.bands b (bandHash xxh3 fp b)).length
      · rw [if_pos hlarge, looked, if_pos hlarge]
        exact ih st hst
      · obtain ⟨htake, hsame⟩ := intoBucket_take outCap
          (bucketEntries idx b (bandHash xxh3 fp b)) st hst
        rw [if_neg hlarge, looked, if_neg hlarge]
        dsimp only
        split
        · next hfull =>
            -- what comes later is behind the capacity
            obtain ⟨rest, hrest⟩ := prefix_foldl_queryRound (bs.flatMap (looked xxh3 idx fp))
              ((bucketEntries idx b (bandHash xxh3 fp b)).foldl queryRound st)
            rw [htake, List.length_take] at hfull
            rw [htake, ← hrest, List.take_append_of_le_length (by omega)]
        · next hroom =>
            rw [hsame (by omega)]
            refine ih _ ?_
            rw [← hsame (by omega)]
            omega

end Query

section Exact

variable (xxh3 : UInt32 → UInt32 → Nat) (es : List LshEntry) (fp : Minhash)

def InBucket (b : Nat) (e : LshEntry) : Prop :=
  bandHash xxh3 e.fingerprint b = bandHash xxh3 fp b

instance (b : Nat) : DecidablePred (InBucket xxh3 fp b) := fun e =>
  inferInstanceAs (Decidable (bandHash xxh3 e.fingerprint b = bandHash xxh3 fp b))

def SharesBucket (e : LshEntry) : Prop :=
  ∃ b < cbmLshBands, InBucket xxh3 fp b e ∧
    (es.filter fun e' => InBucket xxh3 fp b e').length ≤ maxBucketSize

/-- A query lists exactly the entries that share a bucket with it, each once; and with a
capacity, the first of these. -/
structure QueryExact : Prop where
  mem : ∀ e, e ∈ cbmLshQuery xxh3 (inserted xxh3 es) fp ↔ e ∈ es ∧ SharesBucket xxh3 es fp e
  once : (cbmLshQuery xxh3 (inserted xxh3 es) fp).Nodup
  into : ∀ k : Int, cbmLshQueryInto xxh3 (inserted xxh3 es) fp k =
    (cbmLshQuery xxh3 (inserted xxh3 es) fp).take k.toNat

/-- All that a query looks at. -/
def candidates : List LshEntry :=
  (List.range cbmLshBands).flatMap (looked xxh3 (inserted xxh3 es) fp)

theorem looked_inserted {b : Nat} (hb : b < cbmLshBands) :
    looked xxh3 (inserted xxh3 es) fp b =
      if maxBucketSize < (es.filter fun e => InBucket xxh3 fp b e).length then []
      else es.filter fun e => InBucket xxh3 fp b e := by
  obtain ⟨_, hcount, hentries⟩ := bucket_inserted xxh3 es hb (bandHash xxh3 fp b)
  rw [looked, hcount, hentries]
  rfl

theorem mem_candidates (e : LshEntry) :
    e ∈ candidates xxh3 es fp ↔ e ∈ es ∧ SharesBucket xxh3 es fp e := by
  rw [candidates, List.mem_flatMap]
  constructor
  · rintro ⟨b, hb, he⟩
    rw [List.mem_range] at hb
    rw [looked_inserted xxh3 es fp hb] at he
    split at he
    · exact absurd he List.not_mem_nil
    · next hsmall =>
        obtain ⟨hmem, hbucket⟩ := List.mem_filter.mp he
        exact ⟨hmem, b, hb, of_decide_eq_true hbucket, Nat.le_of_not_lt hsmall⟩
  · rintro ⟨hmem, b, hb, hbucket, hsmall⟩
    refine ⟨b, List.mem_range.mpr hb, ?_⟩
    rw [looked_inserted xxh3 es fp hb, if_neg (Nat.not_lt.mpr hsmall)]
    exact List.mem_filter.mpr ⟨hmem, decide_eq_true hbucket⟩

theorem queryInto_subset (k : Int) :
    (∀ e ∈ cbmLshQueryInto xxh3 (inserted xxh3 es) fp k, e ∈ es) ∧
      (cbmLshQueryInto xxh3 (inserted xxh3 es) fp k).length ≤ k.toNat := by
  rw [cbmLshQueryInto]
  split
  · exact ⟨fun e he => absurd he List.not_mem_nil, Nat.zero_le _⟩
  · rw [intoBands_take xxh3 (inserted xxh3 es) fp _ _ _ (Nat.zero_le _)]
    refine ⟨fun e he => ?_, List.length_take_le _ _⟩
    rcases mem_foldl_queryRound (List.mem_of_mem_take he) with hnone | hlooked
    · exact absurd hnone List.not_mem_nil
    · exact ((mem_candidates xxh3 es fp e).mp hlooked).1

theorem length_candidates : (candidates xxh3 es fp).length ≤ seenSetSize := by
  have hsum : ∀ n, n ≤ cbmLshBands →
      ((List.range n).flatMap (looked xxh3 (inserted xxh3 es) fp)).length ≤ n * maxBucketSize := by
    intro n hn
    induction n with
    | zero => exact Nat.zero_le _
    | succ n ih =>
        have hlast : (looked xxh3 (inserted xxh3 es) fp n).length ≤ maxBucketSize := by
          rw [looked_inserted xxh3 es fp hn]
          split
          · exact Nat.zero_le _
          · next hsmall => exact Nat.le_of_not_lt hsmall
        have hfront := ih (by omega)
        rw [List.range_succ, List.flatMap_append, List.length_append, List.flatMap_singleton,
          Nat.succ_mul]
        omega
  exact (hsum cbmLshBands (Nat.le_refl _)).trans (by decide)

/-- The seen-set loses and repeats nothing. -/
theorem lsh_query_exact (hpos : ∀ e ∈ es, 0 < e.nodeId)
    (hdistinct : (es.map LshEntry.nodeId).Nodup) : QueryExact xxh3 es fp := by
  have hmem := mem_candidates xxh3 es fp
  have hcands : ∀ c ∈ candidates xxh3 es fp, 0 < c.nodeId := fun c hc =>
    hpos c ((hmem c).mp hc).1
  have hquery : cbmLshQuery xxh3 (inserted xxh3 es) fp =
      keepFirst sameNode (candidates xxh3 es fp) := by
    rw [cbmLshQuery, foldl_queryBand]
    exact (foldl_queryRound hcands (length_candidates xxh3 es fp)).1
  refine ⟨fun e => ?_, ?_, fun k => ?_⟩
  · rw [hquery, ← hmem]
    constructor
    · exact fun he => (keepFirst_sublist sameNode _).subset he
    · intro he
      have hrefl : ∀ c, sameNode c c = true := fun c => beq_self_eq_true c.nodeId
      obtain ⟨y, hy, hsame⟩ := exists_mem_keepFirst hrefl he
      have hy' := (keepFirst_sublist sameNode _).subset hy
      rwa [List.inj_on_of_nodup_map hdistinct ((hmem e).mp he).1 ((hmem y).mp hy').1
        (beq_iff_eq.mp hsame)]
  · rw [hquery]
    refine (pairwise_keepFirst sameNode _).imp fun {x y} hne heq => ?_
    rw [heq, sameNode, beq_self_eq_true] at hne
    exact Bool.false_ne_true hne.symm
  · rw [cbmLshQueryInto]
    split
    · next hk => rw [Int.toNat_of_nonpos hk, List.take_zero]
    · rw [intoBands_take xxh3 (inserted xxh3 es) fp _ _ _ (Nat.zero_le _), cbmLshQuery,
        foldl_queryBand]

end Exact

/-- All values are 0. -/
def zeroHash : Minhash :=
  { values := List.replicate cbmMinhashK 0, length := List.length_replicate }

/-- Two functions with the same fingerprint. -/
theorem lsh_query_exact_two :
    QueryExact (fun a b => a.toNat + b.toNat)
      [{ nodeId := 1, fingerprint := zeroHash, filePath := none, fileExt := [] },
        { nodeId := 2, fingerprint := zeroHash, filePath := none, fileExt := [] }] zeroHash :=
  lsh_query_exact _ _ _ (by simp) (by simp)

end Simhash
end CodebaseMemory
