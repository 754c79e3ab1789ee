import CodebaseMemory.GraphBuffer.EdgeProps
import CodebaseMemory.Lib.Threads
import CodebaseMemory.Simhash.Lsh

/-!
# Similarity edges (`src/pipeline/pass_similarity.c`, `src/pipeline/worker_pool.c`)

Threads claim worker numbers, and a worker claims entries, both from shared counters.  A
worker queries the index for its entry and pushes edges into the buffer of its number; the
buffers are merged when all threads have stopped.

A step of a thread has at most one access to what the threads share.
-/

namespace CodebaseMemory
namespace Pipeline

open Lib
open Sqlite (CStr bytesOf)
open GraphBuffer
open Simhash

def cbmMinhashMaxEdgesPerNode : Nat := 10

def simCandCap : Nat := 4096

def minFpEntries : Nat := 2

/-- The slots in which two fingerprints agree; `cbm_minhash_jaccard` is this number by 64. -/
def matching (a b : Minhash) : Nat :=
  (List.zipWith (fun x y => decide (x = y)) a.values b.values).count true

/-- `sim_deferred_edge_t` -/
structure SimEdge where
  sourceId : Int
  targetId : Int
  matching : Nat
  sameFile : Bool

/-- `strcmp` of two paths, if both are there. -/
def sameFile (a b : Option CStr) : Bool :=
  match a, b with
  | some a, some b => a == b
  | _, _ => false

/-- The tests before that of the limit. -/
def skipped (src cand : LshEntry) : Bool :=
  cand.nodeId == src.nodeId || src.fileExt != cand.fileExt || decide (cand.nodeId ≤ src.nodeId)

/-- The Jaccard value is at least `CBM_MINHASH_JACCARD_THRESHOLD`. -/
def similarEnough (src cand : LshEntry) : Bool :=
  decide (95 * cbmMinhashK ≤ 100 * matching src.fingerprint cand.fingerprint)

def edgeBetween (src cand : LshEntry) : SimEdge :=
  { sourceId := src.nodeId
    targetId := cand.nodeId
    matching := matching src.fingerprint cand.fingerprint
    sameFile := sameFile src.filePath cand.filePath }

/-- Where a thread stands: before it claims a worker number, or in `sim_query_worker`, with
the entry, the candidates that are left, and the number of edges pushed for the entry. -/
inductive SimPc where
  | pool
  | claim (w : Nat)
  | load (w i : Nat)
  | scan (w i : Nat) (src : LshEntry) (rest : List LshEntry) (emitted : Nat)
  | limit (w i : Nat) (src cand : LshEntry) (rest : List LshEntry) (emitted : Nat)
  | push (w i : Nat) (src cand : LshEntry) (rest : List LshEntry) (emitted : Nat)
  | finish (w i : Nat) (src : LshEntry) (emitted : Nat)
  | stopped

/-- `next_idx` of the pool, and `sim_query_ctx_t`. -/
structure SimShared where
  poolNext : Nat
  nextIdx : Nat
  edgeCounts : Nat → Nat
  workerBufs : Nat → List SimEdge

section Model

variable (xxh3 : UInt32 → UInt32 → Nat)
variable (entries : List LshEntry)
variable (workerCount : Nat)

/-- What the query of an entry gives. -/
def simCands (src : LshEntry) : List LshEntry :=
  cbmLshQueryInto xxh3 (inserted xxh3 entries) src.fingerprint simCandCap

def simStep (sh : SimShared) : SimPc → SimShared × SimPc
  | .pool =>
      ({ sh with poolNext := sh.poolNext + 1 },
        if sh.poolNext < workerCount then .claim sh.poolNext else .stopped)
  | .claim w =>
      ({ sh with nextIdx := sh.nextIdx + 1 },
        if sh.nextIdx < entries.length then .load w sh.nextIdx else .pool)
  | .load w i =>
      (sh, match entries[i]? with
        | none => .claim w
        | some src =>
            if cbmMinhashMaxEdgesPerNode ≤ sh.edgeCounts i then .claim w
            else .scan w i src (simCands xxh3 entries src) 0)
  | .scan w i src [] emitted => (sh, .finish w i src emitted)
  | .scan w i src (cand :: rest) emitted =>
      (sh, if skipped src cand then .scan w i src rest emitted
        else .limit w i src cand rest emitted)
  | .limit w i src cand rest emitted =>
      (sh, if cbmMinhashMaxEdgesPerNode ≤ sh.edgeCounts i + emitted then .finish w i src emitted
        else if similarEnough src cand then .push w i src cand rest emitted
        else .scan w i src rest emitted)
  | .push w i src cand rest emitted =>
      ({ sh with
          workerBufs :=
            Function.update sh.workerBufs w (sh.workerBufs w ++ [edgeBetween src cand]) },
        .scan w i src rest (emitted + 1))
  | .finish w i _ emitted =>
      ({ sh with edgeCounts := Function.update sh.edgeCounts i (sh.edgeCounts i + emitted) },
        .claim w)
  | .stopped => (sh, .stopped)

/-- Before the threads run. -/
def simStart : SimShared :=
  { poolNext := 0
    nextIdx := 0
    edgeCounts := fun _ => 0
    workerBufs := fun _ => [] }

/-- The threads after some steps in a given order. -/
def simRun {threads : Nat} (order : List (Fin threads)) : SimShared × (Fin threads → SimPc) :=
  runTurns (simStep xxh3 entries workerCount) (simStart, fun _ => .pool) order

/-- Thousandths of a number of slots by 64, rounded half to even. -/
def thousandths (m : Nat) : Nat :=
  m * 125 / 8 + if 4 < m * 125 % 8 ∨ m * 125 % 8 = 4 ∧ m * 125 / 8 % 2 = 1 then 1 else 0

/-- `snprintf` with `%.3f`. -/
def jaccardText (m : Nat) : CStr :=
  decimal (thousandths m / 1000 : Nat) ++ bytesOf "." ++
    [UInt8.ofNat (48 + thousandths m / 100 % 10), UInt8.ofNat (48 + thousandths m / 10 % 10),
      UInt8.ofNat (48 + thousandths m % 10)]

def simProps (e : SimEdge) : CStr :=
  bytesOf "\x7b\"jaccard\":" ++ jaccardText e.matching ++ bytesOf ",\"same_file\":" ++
    (if e.sameFile then bytesOf "true" else bytesOf "false") ++ [125]

/-- The type of the edges. -/
def similarTo : CStr :=
  bytesOf "SIMILAR_TO"

/-- One round of `merge_sim_edges`. -/
def mergeSimEdge (g : Gbuf) (e : SimEdge) : Gbuf :=
  (cbmGbufInsertEdge g e.sourceId e.targetId similarTo (some (simProps e))).1

def mergeSimEdges (g : Gbuf) (workerBufs : Nat → List SimEdge) : Gbuf :=
  ((List.range workerCount).flatMap workerBufs).foldl mergeSimEdge g

/-- `cbm_pipeline_pass_similarity` can lead from `g` to `g'`, with the fingerprints collected,
on some number of threads. -/
def PassSimilarity (g g' : Gbuf) : Prop :=
  if entries.length < minFpEntries then g' = g
  else ∃ threads, 0 < threads ∧ ∃ order : List (Fin threads),
    (∀ t, (simRun xxh3 entries workerCount order).2 t = .stopped) ∧
      g' = mergeSimEdges workerCount g (simRun xxh3 entries workerCount order).1.workerBufs

/-- The candidate has a larger id, the same extension and a Jaccard value that is enough. -/
def wanted (src cand : LshEntry) : Bool :=
  !skipped src cand && similarEnough src cand

def wantedEdges (src : LshEntry) : List SimEdge :=
  ((simCands xxh3 entries src).filter (wanted src)).map (edgeBetween src)

def simEdges (src : LshEntry) : List SimEdge :=
  (wantedEdges xxh3 entries src).take cbmMinhashMaxEdgesPerNode

/-- The edges of the entry with this index. -/
def edgesOf (i : Nat) : Multiset SimEdge :=
  match entries[i]? with
  | none => 0
  | some src => simEdges xxh3 entries src

end Model

def SimPc.entry : SimPc → Multiset Nat
  | .load _ i | .scan _ i _ _ _ | .limit _ i _ _ _ _ | .push _ i _ _ _ _ | .finish _ i _ _ => {i}
  | .pool | .claim _ | .stopped => 0

/-- The worker number of the thread. -/
def SimPc.worker : SimPc → Option Nat
  | .claim w | .load w _ | .scan w _ _ _ _ | .limit w _ _ _ _ _ | .push w _ _ _ _ _ |
    .finish w _ _ _ => some w
  | .pool | .stopped => none

section Invariant

variable (xxh3 : UInt32 → UInt32 → Nat)
variable (entries : List LshEntry)
variable (workerCount : Nat)

/-- The edges that have been pushed for the entry in work. -/
def SimPc.pushed : SimPc → Multiset SimEdge
  | .scan _ _ src _ emitted | .limit _ _ src _ _ emitted | .push _ _ src _ _ emitted |
    .finish _ _ src emitted => (wantedEdges xxh3 entries src).take emitted
  | .pool | .claim _ | .load _ _ | .stopped => 0

/-- The candidates in front of the rest have been looked at. -/
structure Scanned (i : Nat) (src : LshEntry) (rest : List LshEntry) (emitted : Nat) : Prop where
  source : entries[i]? = some src
  split : ∃ front, simCands xxh3 entries src = front ++ rest ∧
    (front.filter (wanted src)).length = emitted
  atMost : emitted ≤ cbmMinhashMaxEdgesPerNode

/-- What holds where a thread stands. -/
def SimPc.Ok (sh : SimShared) : SimPc → Prop
  | .pool | .claim _ => True
  | .load _ i => i < entries.length
  | .scan _ i src rest emitted => Scanned xxh3 entries i src rest emitted
  | .limit _ i src cand rest emitted =>
      Scanned xxh3 entries i src (cand :: rest) emitted ∧ skipped src cand = false
  | .push _ i src cand rest emitted =>
      Scanned xxh3 entries i src (cand :: rest) emitted ∧ wanted src cand = true ∧
        emitted < cbmMinhashMaxEdgesPerNode
  | .finish _ i src emitted =>
      entries[i]? = some src ∧
        (wantedEdges xxh3 entries src).take emitted = simEdges xxh3 entries src
  | .stopped => workerCount ≤ sh.poolNext

variable {threads : Nat}

/-- What the threads keep: each entry that was claimed is finished, or in work on one thread;
what is in the buffers was pushed for these; only finished entries have a count; and each worker
number is in use on one thread at most. -/
structure SimInv (s : SimShared × (Fin threads → SimPc)) : Prop where
  ledger : ∃ finished : Multiset Nat,
    finished + ∑ t, (s.2 t).entry = Multiset.range (min s.1.nextIdx entries.length) ∧
    ∑ w ∈ Finset.range workerCount, (s.1.workerBufs w : Multiset SimEdge) =
      finished.bind (edgesOf xxh3 entries) + ∑ t, (s.2 t).pushed xxh3 entries ∧
    ∀ i, i ∉ finished → s.1.edgeCounts i = 0
  ok : ∀ t, (s.2 t).Ok xxh3 entries workerCount s.1
  started : s.1.poolNext = 0 ∨ entries.length ≤ s.1.nextIdx ∨ ∃ t, (s.2 t).worker ≠ none
  range : ∀ t w, (s.2 t).worker = some w → w < workerCount ∧ w < s.1.poolNext
  unique : ∀ t u w, (s.2 t).worker = some w → (s.2 u).worker = some w → t = u

section Scanned

variable {xxh3 entries}

theorem Scanned.wantedEdges_take {i : Nat} {src : LshEntry} {rest : List LshEntry}
    {emitted : Nat} (h : Scanned xxh3 entries i src rest emitted) :
    ∃ front, simCands xxh3 entries src = front ++ rest ∧
      (front.filter (wanted src)).length = emitted ∧
      wantedEdges xxh3 entries src =
        (front.filter (wanted src)).map (edgeBetween src) ++
          (rest.filter (wanted src)).map (edgeBetween src) := by
  obtain ⟨front, hsplit, hcount⟩ := h.split
  refine ⟨front, hsplit, hcount, ?_⟩
  rw [wantedEdges, hsplit, List.filter_append, List.map_append]

theorem Scanned.skip {i : Nat} {src cand : LshEntry} {rest : List LshEntry} {emitted : Nat}
    (h : Scanned xxh3 entries i src (cand :: rest) emitted) (hno : wanted src cand = false) :
    Scanned xxh3 entries i src rest emitted := by
  obtain ⟨front, hsplit, hcount⟩ := h.split
  refine ⟨h.source, ⟨front ++ [cand], by rw [hsplit, List.append_cons], ?_⟩, h.atMost⟩
  rw [List.filter_append, List.filter_cons_of_neg (by rw [hno]; exact Bool.false_ne_true),
    List.filter_nil, List.append_nil, hcount]

theorem Scanned.push {i : Nat} {src cand : LshEntry} {rest : List LshEntry} {emitted : Nat}
    (h : Scanned xxh3 entries i src (cand :: rest) emitted) (hyes : wanted src cand = true)
    (hroom : emitted < cbmMinhashMaxEdgesPerNode) :
    Scanned xxh3 entries i src rest (emitted + 1) ∧
      (wantedEdges xxh3 entries src).take (emitted + 1) =
        (wantedEdges xxh3 entries src).take emitted ++ [edgeBetween src cand] := by
  obtain ⟨front, hsplit, hcount, hedges⟩ := h.wantedEdges_take
  refine ⟨⟨h.source, ⟨front ++ [cand], by rw [hsplit, List.append_cons], ?_⟩, hroom⟩, ?_⟩
  · rw [List.filter_append, List.filter_cons_of_pos hyes, List.filter_nil, List.length_append,
      hcount, List.length_singleton]
  · have hlength : ((front.filter (wanted src)).map (edgeBetween src)).length = emitted := by
      rw [List.length_map, hcount]
    rw [hedges, List.filter_cons_of_pos hyes, List.map_cons, ← hlength, List.take_left,
      List.take_length_add_append]
    rfl

theorem Scanned.finish_nil {i : Nat} {src : LshEntry} {emitted : Nat}
    (h : Scanned xxh3 entries i src [] emitted) :
    (wantedEdges xxh3 entries src).take emitted = simEdges xxh3 entries src := by
  obtain ⟨front, _, hcount, hedges⟩ := h.wantedEdges_take
  have hlength : (wantedEdges xxh3 entries src).length = emitted := by
    rw [hedges, List.filter_nil, List.map_nil, List.append_nil, List.length_map, hcount]
  rw [simEdges, List.take_of_length_le hlength.le, List.take_of_length_le]
  exact hlength.trans_le h.atMost

theorem Scanned.finish_limit {i : Nat} {src : LshEntry} {rest : List LshEntry} {emitted : Nat}
    (h : Scanned xxh3 entries i src rest emitted) (hfull : cbmMinhashMaxEdgesPerNode ≤ emitted) :
    (wantedEdges xxh3 entries src).take emitted = simEdges xxh3 entries src := by
  rw [simEdges, Nat.le_antisymm h.atMost hfull]

end Scanned

/-- What a step does to the shared state and to the thread. -/
structure SimTurn (sh : SimShared) (p : SimPc) (sh' : SimShared) (p' : SimPc) : Prop where
  pool : sh.poolNext ≤ sh'.poolNext
  next : sh.nextIdx ≤ sh'.nextIdx
  ledger : ∃ claimed finished : Multiset Nat,
    Multiset.range (min sh'.nextIdx entries.length) =
      Multiset.range (min sh.nextIdx entries.length) + claimed ∧
    finished + p'.entry = p.entry + claimed ∧
    ∑ w ∈ Finset.range workerCount, (sh'.workerBufs w : Multiset SimEdge) +
        p.pushed xxh3 entries =
      ∑ w ∈ Finset.range workerCount, (sh.workerBufs w : Multiset SimEdge) +
        finished.bind (edgesOf xxh3 entries) + p'.pushed xxh3 entries ∧
    ∀ i, i ∉ finished → sh'.edgeCounts i = sh.edgeCounts i
  ok : p'.Ok xxh3 entries workerCount sh'
  started : p'.worker ≠ none ∨ entries.length ≤ sh'.nextIdx ∨
    p.worker = none ∧ 0 < sh.poolNext
  worker : p'.worker = none ∨ p'.worker = p.worker ∨
    p'.worker = some sh.poolNext ∧ sh.poolNext < workerCount ∧ sh.poolNext < sh'.poolNext

variable {xxh3 entries workerCount}

theorem SimTurn.of_same {sh : SimShared} {p p' : SimPc} (hentry : p'.entry = p.entry)
    (hpushed : p'.pushed xxh3 entries = p.pushed xxh3 entries)
    (hok : p'.Ok xxh3 entries workerCount sh) (hworker : p'.worker = p.worker)
    (hstarted : p'.worker ≠ none ∨ 0 < sh.poolNext) :
    SimTurn xxh3 entries workerCount sh p sh p' where
  pool := Nat.le_refl _
  next := Nat.le_refl _
  ledger := by
    refine ⟨0, 0, (add_zero _).symm, ?_, ?_, fun _ _ => rfl⟩
    · rw [hentry, zero_add, add_zero]
    · rw [hpushed, Multiset.zero_bind, add_zero]
  ok := hok
  started := by
    by_cases hnone : p'.worker = none
    · exact Or.inr (Or.inr ⟨hworker ▸ hnone, hstarted.resolve_left fun h => h hnone⟩)
    · exact Or.inl hnone
  worker := Or.inr (Or.inl hworker)

theorem edgesOf_of_getElem? {i : Nat} {src : LshEntry} (h : entries[i]? = some src) :
    edgesOf xxh3 entries i = simEdges xxh3 entries src := by
  rw [edgesOf, h]

theorem simTurn_simStep (hworkers : 0 < workerCount) {sh : SimShared} {p : SimPc}
    (hok : p.Ok xxh3 entries workerCount sh) (hcount : ∀ i ∈ p.entry, sh.edgeCounts i = 0)
    (hrange : ∀ w, p.worker = some w → w < workerCount) :
    SimTurn xxh3 entries workerCount sh p (simStep xxh3 entries workerCount sh p).1
      (simStep xxh3 entries workerCount sh p).2 := by
  cases p with
  | pool =>
      rw [simStep]
      have hledger : ∀ p' : SimPc, p'.entry = 0 → p'.pushed xxh3 entries = 0 →
          ∃ claimed finished : Multiset Nat,
            Multiset.range (min sh.nextIdx entries.length) =
              Multiset.range (min sh.nextIdx entries.length) + claimed ∧
            finished + p'.entry = SimPc.pool.entry + claimed ∧
            ∑ w ∈ Finset.range workerCount, (sh.workerBufs w : Multiset SimEdge) +
                SimPc.pool.pushed xxh3 entries =
              ∑ w ∈ Finset.range workerCount, (sh.workerBufs w : Multiset SimEdge) +
                finished.bind (edgesOf xxh3 entries) + p'.pushed xxh3 entries ∧
            ∀ i, i ∉ finished → sh.edgeCounts i = sh.edgeCounts i := by
        intro p' hentry hpushed
        refine ⟨0, 0, (add_zero _).symm, ?_, ?_, fun _ _ => rfl⟩
        · rw [hentry]
          rfl
        · rw [hpushed, Multiset.zero_bind, add_zero]
          rfl
      dsimp only
      split
      · next hlt =>
          exact ⟨Nat.le_succ _, Nat.le_refl _, hledger _ rfl rfl, trivial,
            Or.inl (Option.some_ne_none _), Or.inr (Or.inr ⟨rfl, hlt, Nat.lt_succ_self _⟩)⟩
      · next hge =>
          refine ⟨Nat.le_succ _, Nat.le_refl _, hledger _ rfl rfl, ?_, Or.inr (Or.inr ⟨rfl, ?_⟩),
            Or.inl rfl⟩
          · exact Nat.le_succ_of_le (Nat.le_of_not_lt hge)
          · omega
  | claim w =>
      rw [simStep]
      dsimp only
      split
      · next hlt =>
          refine ⟨Nat.le_refl _, Nat.le_succ _, ⟨{sh.nextIdx}, 0, ?_, ?_, ?_, fun _ _ => rfl⟩, hlt,
            Or.inl (Option.some_ne_none _), Or.inr (Or.inl rfl)⟩
          · have hnext : min (sh.nextIdx + 1) entries.length = sh.nextIdx + 1 := by omega
            have hold : min sh.nextIdx entries.length = sh.nextIdx := by omega
            rw [hnext, hold, Multiset.range_succ, add_comm, Multiset.singleton_add]
          · rw [zero_add]
            exact (zero_add _).symm
          · rw [Multiset.zero_bind, add_zero]
            rfl
      · next hge =>
          refine ⟨Nat.le_refl _, Nat.le_succ _, ⟨0, 0, ?_, ?_, ?_, fun _ _ => rfl⟩, trivial,
            Or.inr (Or.inl ?_), Or.inl rfl⟩
          · have hnext : min (sh.nextIdx + 1) entries.length = min sh.nextIdx entries.length := by
              omega
            rw [hnext, add_zero]
          · rfl
          · rw [Multiset.zero_bind, add_zero]
            rfl
          · exact Nat.le_succ_of_le (Nat.le_of_not_lt hge)
  | load w i =>
      have hzero := hcount i (Multiset.mem_singleton_self i)
      rw [simStep, List.getElem?_eq_getElem hok]
      dsimp only
      rw [hzero, if_neg (by decide)]
      refine SimTurn.of_same rfl rfl ⟨List.getElem?_eq_getElem hok, ⟨[], rfl, rfl⟩, Nat.zero_le _⟩
        rfl (Or.inl (Option.some_ne_none _))
  | scan w i src rest emitted =>
      cases rest with
      | nil =>
          exact SimTurn.of_same rfl rfl ⟨hok.source, hok.finish_nil⟩ rfl
            (Or.inl (Option.some_ne_none _))
      | cons cand rest =>
          rw [simStep]
          dsimp only
          split
          · next hskip =>
              have hno : wanted src cand = false := by rw [wanted, hskip]; rfl
              exact SimTurn.of_same rfl rfl (hok.skip hno) rfl (Or.inl (Option.some_ne_none _))
          · next hkeep =>
              exact SimTurn.of_same rfl rfl ⟨hok, Bool.eq_false_iff.mpr hkeep⟩ rfl
                (Or.inl (Option.some_ne_none _))
  | limit w i src cand rest emitted =>
      have hzero := hcount i (Multiset.mem_singleton_self i)
      obtain ⟨hscanned, hkeep⟩ := hok
      rw [simStep, hzero, Nat.zero_add]
      split
      · next hfull =>
          exact SimTurn.of_same rfl rfl ⟨hscanned.source, hscanned.finish_limit hfull⟩ rfl
            (Or.inl (Option.some_ne_none _))
      · next hroom =>
          split
          · next hsimilar =>
              have hyes : wanted src cand = true := by rw [wanted, hkeep, hsimilar]; rfl
              exact SimTurn.of_same rfl rfl ⟨hscanned, hyes, Nat.lt_of_not_le hroom⟩ rfl
                (Or.inl (Option.some_ne_none _))
          · next hother =>
              have hno : wanted src cand = false := by
                rw [wanted, Bool.eq_false_iff.mpr hother, Bool.and_false]
              exact SimTurn.of_same rfl rfl (hscanned.skip hno) rfl
                (Or.inl (Option.some_ne_none _))
  | push w i src cand rest emitted =>
      obtain ⟨hscanned, hyes, hroom⟩ := hok
      obtain ⟨hscanned', htake⟩ := hscanned.push hyes hroom
      refine ⟨Nat.le_refl _, Nat.le_refl _, ⟨0, 0, (add_zero _).symm, ?_, ?_, fun _ _ => rfl⟩,
        hscanned', Or.inl (Option.some_ne_none _), Or.inr (Or.inl rfl)⟩
      · rw [zero_add]
        exact (add_zero _).symm
      · have hsum := sum_update_add (fun l : List SimEdge => (l : Multiset SimEdge)) sh.workerBufs
          (Finset.mem_range.mpr (hrange w rfl)) (sh.workerBufs w ++ [edgeBetween src cand])
        rw [← Multiset.coe_add, add_comm (sh.workerBufs w : Multiset SimEdge), ← add_assoc] at hsum
        have hpushed := add_right_cancel hsum
        dsimp only [simStep]
        rw [hpushed, SimPc.pushed, SimPc.pushed, htake, ← Multiset.coe_add, Multiset.zero_bind,
          add_zero]
        ac_rfl
  | finish w i src emitted =>
      obtain ⟨hsource, hedges⟩ := hok
      refine ⟨Nat.le_refl _, Nat.le_refl _, ⟨0, {i}, (add_zero _).symm, rfl, ?_, fun j hj => ?_⟩,
        trivial, Or.inl (Option.some_ne_none _), Or.inr (Or.inl rfl)⟩
      · rw [Multiset.singleton_bind, edgesOf_of_getElem? hsource, ← hedges]
        exact (add_zero _).symm
      · exact Function.update_of_ne (fun h => hj (Multiset.mem_singleton.mpr h)) _ _
  | stopped =>
      exact SimTurn.of_same rfl rfl hok rfl (Or.inr (Nat.lt_of_lt_of_le hworkers hok))

theorem SimInv.edgeCounts_eq {s : SimShared × (Fin threads → SimPc)}
    (h : SimInv xxh3 entries workerCount s) {t : Fin threads} {i : Nat}
    (hi : i ∈ (s.2 t).entry) : s.1.edgeCounts i = 0 := by
  obtain ⟨finished, hclaimed, _, hcounts⟩ := h.ledger
  refine hcounts i fun hfinished => ?_
  have hwork : i ∈ ∑ u, (s.2 u).entry := Multiset.mem_sum.mpr ⟨t, Finset.mem_univ t, hi⟩
  have hnodup := Multiset.nodup_range (min s.1.nextIdx entries.length)
  rw [← hclaimed, Multiset.nodup_add] at hnodup
  exact Multiset.disjoint_left.mp hnodup.2.2 hfinished hwork

theorem SimInv.step (hworkers : 0 < workerCount) {s : SimShared × (Fin threads → SimPc)}
    (h : SimInv xxh3 entries workerCount s) (t : Fin threads) :
    SimInv xxh3 entries workerCount (takeTurn (simStep xxh3 entries workerCount) s t) := by
  have hturn := simTurn_simStep hworkers (h.ok t) (fun i hi => h.edgeCounts_eq hi)
    fun w hw => (h.range t w hw).1
  rw [takeTurn]
  generalize simStep xxh3 entries workerCount s.1 (s.2 t) = r at hturn ⊢
  obtain ⟨sh', p'⟩ := r
  dsimp only at hturn ⊢
  have hself : Function.update s.2 t p' t = p' := Function.update_self ..
  have hother : ∀ u, u ≠ t → Function.update s.2 t p' u = s.2 u := fun u hu =>
    Function.update_of_ne hu ..
  -- the worker number of the thread is the one that it had, or it is claimed now
  have hmine : ∀ w, p'.worker = some w →
      (s.2 t).worker = some w ∨ w = s.1.poolNext ∧ w < workerCount ∧ w < sh'.poolNext := by
    intro w hw
    rcases hturn.worker with hnone | hsame | ⟨hnew, hlt, hnext⟩
    · exact absurd (hnone.symm.trans hw) (by simp)
    · exact Or.inl (hsame ▸ hw)
    · obtain rfl := Option.some.inj (hnew.symm.trans hw)
      exact Or.inr ⟨rfl, hlt, hnext⟩
  refine ⟨?_, fun u => ?_, ?_, fun u w hu => ?_, fun u v w hu hv => ?_⟩
  · obtain ⟨finished, hclaimed, hedges, hcounts⟩ := h.ledger
    obtain ⟨claimed, more, hrange, hentry, hbufs, hsame⟩ := hturn.ledger
    have hentries := sum_update_add SimPc.entry s.2 (Finset.mem_univ t) p'
    have hpushed := sum_update_add (SimPc.pushed xxh3 entries) s.2 (Finset.mem_univ t) p'
    refine ⟨finished + more, ?_, ?_, fun i hi => ?_⟩
    · refine add_right_cancel (b := (s.2 t).entry) ?_
      dsimp only
      rw [hrange, ← hclaimed, add_assoc, hentries, add_assoc (finished + _),
        add_comm claimed, ← hentry]
      ac_rfl
    · refine add_right_cancel (b := (s.2 t).pushed xxh3 entries) ?_
      dsimp only
      rw [hbufs, hedges, Multiset.add_bind, add_assoc (_ + _) (∑ i, _), hpushed]
      ac_rfl
    · rw [Multiset.mem_add, not_or] at hi
      dsimp only
      rw [hsame i hi.2]
      exact hcounts i hi.1
  · dsimp only
    by_cases hu : u = t
    · rw [hu, hself]
      exact hturn.ok
    · rw [hother u hu]
      have hold := h.ok u
      revert hold
      cases s.2 u with
      | stopped => exact fun hold => hold.trans hturn.pool
      | _ => exact id
  · dsimp only
    rcases hturn.started with hworking | hall | ⟨hidle, hpositive⟩
    · exact Or.inr (Or.inr ⟨t, by rwa [hself]⟩)
    · exact Or.inr (Or.inl hall)
    · rcases h.started with hzero | hall | ⟨u, hu⟩
      · omega
      · exact Or.inr (Or.inl (hall.trans hturn.next))
      · refine Or.inr (Or.inr ⟨u, ?_⟩)
        rwa [hother u]
        rintro rfl
        exact hu hidle
  · dsimp only at hu ⊢
    by_cases heq : u = t
    · rw [heq, hself] at hu
      rcases hmine w hu with hold | ⟨_, hlt, hnext⟩
      · obtain ⟨hlow, hpool⟩ := h.range t w hold
        exact ⟨hlow, hpool.trans_le hturn.pool⟩
      · exact ⟨hlt, hnext⟩
    · rw [hother u heq] at hu
      obtain ⟨hlow, hpool⟩ := h.range u w hu
      exact ⟨hlow, hpool.trans_le hturn.pool⟩
  · dsimp only at hu hv
    have hclash : ∀ v, v ≠ t → p'.worker = some w → (s.2 v).worker = some w → False := by
      intro v hne hw hv
      rcases hmine w hw with hold | ⟨rfl, _⟩
      · exact hne (h.unique v t w hv hold)
      · exact absurd (h.range v _ hv).2 (Nat.lt_irrefl _)
    by_cases hut : u = t
    · by_cases hvt : v = t
      · rw [hut, hvt]
      · rw [hut, hself] at hu
        rw [hother v hvt] at hv
        exact (hclash v hvt hu hv).elim
    · rw [hother u hut] at hu
      by_cases hvt : v = t
      · rw [hvt, hself] at hv
        exact (hclash u hut hv hu).elim
      · rw [hother v hvt] at hv
        exact h.unique u v w hu hv

theorem simInv_start : SimInv xxh3 entries workerCount
    (simStart, fun _ : Fin threads => SimPc.pool) where
  ledger := by
    have hentry : ∑ _t : Fin threads, SimPc.pool.entry = 0 := Finset.sum_eq_zero fun _ _ => rfl
    have hpushed : ∑ _t : Fin threads, SimPc.pool.pushed xxh3 entries = 0 :=
      Finset.sum_eq_zero fun _ _ => rfl
    have hbufs : ∑ w ∈ Finset.range workerCount, (simStart.workerBufs w : Multiset SimEdge) = 0 :=
      Finset.sum_eq_zero fun _ _ => rfl
    refine ⟨0, ?_, ?_, fun _ _ => rfl⟩
    · rw [hentry, simStart, Nat.zero_min]
      rfl
    · rw [hpushed, hbufs, Multiset.zero_bind]
      rfl
  ok := fun _ => trivial
  started := Or.inl rfl
  range := fun _ _ hw => absurd hw (by simp [SimPc.worker])
  unique := fun _ _ _ hw => absurd hw (by simp [SimPc.worker])

theorem simInv_run (hworkers : 0 < workerCount) (order : List (Fin threads)) :
    SimInv xxh3 entries workerCount (simRun xxh3 entries workerCount order) :=
  runTurns_invariant (fun _ t h => h.step hworkers t) simInv_start order

theorem mem_workerBufs (hworkers : 0 < workerCount) (hthreads : 0 < threads)
    {order : List (Fin threads)}
    (hstopped : ∀ t, (simRun xxh3 entries workerCount order).2 t = .stopped) (e : SimEdge) :
    e ∈ (List.range workerCount).flatMap (simRun xxh3 entries workerCount order).1.workerBufs ↔
      e ∈ entries.flatMap (simEdges xxh3 entries) := by
  have h := @simInv_run xxh3 entries workerCount threads hworkers order
  obtain ⟨finished, hclaimed, hedges, _⟩ := h.ledger
  have hpool : workerCount ≤ (simRun xxh3 entries workerCount order).1.poolNext := by
    have hok := h.ok ⟨0, hthreads⟩
    rwa [hstopped] at hok
  have hall : entries.length ≤ (simRun xxh3 entries workerCount order).1.nextIdx := by
    rcases h.started with hzero | hall | ⟨t, ht⟩
    · omega
    · exact hall
    · rw [hstopped t] at ht
      exact absurd rfl ht
  have hnone : ∑ t, ((simRun xxh3 entries workerCount order).2 t).entry = 0 :=
    Finset.sum_eq_zero fun t _ => by rw [hstopped t]; rfl
  have hpushed : ∑ t, ((simRun xxh3 entries workerCount order).2 t).pushed xxh3 entries = 0 :=
    Finset.sum_eq_zero fun t _ => by rw [hstopped t]; rfl
  rw [hnone, add_zero, Nat.min_eq_right hall] at hclaimed
  rw [hclaimed, hpushed, add_zero] at hedges
  have hmem : e ∈ ∑ w ∈ Finset.range workerCount,
      ((simRun xxh3 entries workerCount order).1.workerBufs w : Multiset SimEdge) ↔
      e ∈ (Multiset.range entries.length).bind (edgesOf xxh3 entries) := by
    rw [hedges]
  rw [Multiset.mem_sum, Multiset.mem_bind] at hmem
  rw [List.mem_flatMap, List.mem_flatMap]
  constructor
  · rintro ⟨w, hw, he⟩
    obtain ⟨i, hi, hei⟩ := hmem.mp ⟨w, Finset.mem_range.mpr (List.mem_range.mp hw), he⟩
    have hlt := Multiset.mem_range.mp hi
    rw [edgesOf_of_getElem? (List.getElem?_eq_getElem hlt)] at hei
    exact ⟨entries[i], List.getElem_mem hlt, hei⟩
  · rintro ⟨src, hsrc, he⟩
    obtain ⟨i, hlt, rfl⟩ := List.getElem_of_mem hsrc
    obtain ⟨w, hw, hew⟩ := hmem.mpr ⟨i, Multiset.mem_range.mpr hlt, by
      rwa [edgesOf_of_getElem? (List.getElem?_eq_getElem hlt)]⟩
    exact ⟨w, List.mem_range.mpr (Finset.mem_range.mp hw), hew⟩

/-- How many steps a thread can take where it stands. -/
def SimPc.measure : SimPc → Nat
  | .stopped => 0
  | .pool => 1
  | .claim _ => 2
  | .finish _ _ _ _ => 3
  | .scan _ _ _ rest _ => 4 + 3 * rest.length
  | .push _ _ _ _ rest _ => 5 + 3 * rest.length
  | .limit _ _ _ _ rest _ => 6 + 3 * rest.length
  | .load _ _ => 5 + 3 * simCandCap

variable (entries workerCount) in
/-- How many steps there can be. -/
def simMeasure (s : SimShared × (Fin threads → SimPc)) : Nat :=
  2 * (workerCount - s.1.poolNext) + (4 + 3 * simCandCap) * (entries.length - s.1.nextIdx) +
    ∑ t, (s.2 t).measure

theorem length_simCands (src : LshEntry) : (simCands xxh3 entries src).length ≤ simCandCap :=
  (queryInto_subset xxh3 entries src.fingerprint simCandCap).2

theorem measure_simStep (sh : SimShared) {p : SimPc} (hp : p ≠ .stopped) :
    2 * (workerCount - (simStep xxh3 entries workerCount sh p).1.poolNext) +
        (4 + 3 * simCandCap) *
          (entries.length - (simStep xxh3 entries workerCount sh p).1.nextIdx) +
        (simStep xxh3 entries workerCount sh p).2.measure <
      2 * (workerCount - sh.poolNext) + (4 + 3 * simCandCap) * (entries.length - sh.nextIdx) +
        p.measure := by
  cases p with
  | pool =>
      rw [simStep]
      dsimp only
      split <;> simp only [SimPc.measure] <;> omega
  | claim w =>
      rw [simStep]
      dsimp only
      split <;> simp only [SimPc.measure, simCandCap] <;> omega
  | load w i =>
      rw [simStep]
      cases entries[i]? with
      | none =>
          simp only [SimPc.measure]
          omega
      | some src =>
          have hcands := @length_simCands xxh3 entries src
          dsimp only
          split <;> simp only [SimPc.measure] <;> omega
  | scan w i src rest emitted =>
      cases rest with
      | nil =>
          simp only [simStep, SimPc.measure, List.length_nil]
          omega
      | cons cand rest =>
          rw [simStep]
          dsimp only
          split <;> simp only [SimPc.measure, List.length_cons] <;> omega
  | limit w i src cand rest emitted =>
      rw [simStep]
      dsimp only
      split
      · simp only [SimPc.measure]
        omega
      · split <;> simp only [SimPc.measure] <;> omega
  | push w i src cand rest emitted =>
      simp only [simStep, SimPc.measure]
      omega
  | finish w i src emitted =>
      simp only [simStep, SimPc.measure]
      omega
  | stopped => exact absurd rfl hp

theorem simMeasure_takeTurn (s : SimShared × (Fin threads → SimPc)) {t : Fin threads}
    (ht : s.2 t ≠ .stopped) :
    simMeasure entries workerCount (takeTurn (simStep xxh3 entries workerCount) s t) <
      simMeasure entries workerCount s := by
  have hsum := sum_update_add SimPc.measure s.2 (Finset.mem_univ t)
    (simStep xxh3 entries workerCount s.1 (s.2 t)).2
  have hstep := @measure_simStep xxh3 entries workerCount s.1 _ ht
  rw [simMeasure, simMeasure, takeTurn]
  dsimp only
  omega

theorem sim_runs_end {order : List (Fin threads)}
    (h : AllActive (simStep xxh3 entries workerCount) (· = .stopped)
      (simStart, fun _ => .pool) order) :
    order.length ≤ simMeasure entries workerCount (simStart, fun _ : Fin threads => .pool) :=
  length_le_of_measure (P := fun _ => True) (fun s _ _ ht => ⟨trivial, simMeasure_takeTurn s ht⟩)
    trivial h

theorem exists_sim_stopped :
    ∃ order : List (Fin threads),
      ∀ t, (simRun xxh3 entries workerCount order).2 t = .stopped :=
  @exists_all_stopped _ _ _ _ _ (fun _ => True) (· = .stopped) _
    (fun s _ _ ht => ⟨trivial, simMeasure_takeTurn s ht⟩) _ trivial

end Invariant

/-- The buffer has these edges, with their properties, and what it had of other triples. -/
structure PutsEdges (g g' : Gbuf) (es : List SimEdge) : Prop where
  put : ∀ e ∈ es, edgeProps g' e.sourceId e.targetId similarTo = some (simProps e)
  rest : ∀ {src tgt : Int} {type : CStr}, InI64 src → InI64 tgt → type.length ≤ 80 →
    (∀ e ∈ es, ¬ (e.sourceId = src ∧ e.targetId = tgt ∧ similarTo = type)) →
    edgeProps g' src tgt type = edgeProps g src tgt type

theorem simProps_ne_empty (e : SimEdge) : simProps e ≠ emptyObject := by
  intro h
  have hlength := congrArg List.length h
  have hhead : (bytesOf "\x7b\"jaccard\":").length = 11 := by decide
  have hempty : emptyObject.length = 2 := by decide
  rw [simProps, List.length_append, List.length_append, List.length_append, List.length_append,
    hhead, hempty] at hlength
  omega

theorem length_similarTo : similarTo.length ≤ 80 := by
  decide

/-- Edges of the buffers have endpoints of 64 bits, which determine the edge. -/
structure MergeOk (es : List SimEdge) : Prop where
  source : ∀ e ∈ es, InI64 e.sourceId
  target : ∀ e ∈ es, InI64 e.targetId
  determined : ∀ e ∈ es, ∀ e' ∈ es,
    e.sourceId = e'.sourceId → e.targetId = e'.targetId → e = e'

theorem putsEdges_foldl {g : Gbuf} (h : KeyInv g) {es : List SimEdge} (hok : MergeOk es) :
    KeyInv (es.foldl mergeSimEdge g) ∧ PutsEdges g (es.foldl mergeSimEdge g) es := by
  induction es using List.reverseRecOn with
  | nil => exact ⟨h, fun e he => absurd he List.not_mem_nil, fun _ _ _ _ => rfl⟩
  | append_singleton es e ih =>
      have hfront : ∀ {x}, x ∈ es → x ∈ es ++ [e] := fun hx => List.mem_append_left _ hx
      have hlast : e ∈ es ++ [e] := List.mem_append_right _ (List.mem_singleton_self e)
      obtain ⟨hkey, hputs⟩ := ih ⟨fun x hx => hok.source x (hfront hx),
        fun x hx => hok.target x (hfront hx),
        fun x hx y hy => hok.determined x (hfront hx) y (hfront hy)⟩
      rw [List.foldl_append, List.foldl_cons, List.foldl_nil]
      generalize es.foldl mergeSimEdge g = g' at hkey hputs ⊢
      have hinsert : ∀ {src tgt : Int} {type : CStr}, InI64 src → InI64 tgt → type.length ≤ 80 →
          edgeProps (mergeSimEdge g' e) src tgt type =
            if e.sourceId = src ∧ e.targetId = tgt ∧ similarTo = type then some (simProps e)
            else edgeProps g' src tgt type := by
        intro src tgt type hsrc htgt htype
        rw [mergeSimEdge, edgeProps_insertEdge hkey _ (hok.source e hlast) (hok.target e hlast)
          length_similarTo hsrc htgt htype, mergedProperties, if_neg (simProps_ne_empty e)]
      refine ⟨hkey.insertEdge _ (hok.source e hlast) (hok.target e hlast) length_similarTo,
        fun x hx => ?_, fun hsrc htgt htype hnone => ?_⟩
      · rw [hinsert (hok.source x hx) (hok.target x hx) length_similarTo]
        split
        · next hsame => rw [hok.determined e hlast x hx hsame.1 hsame.2.1]
        · next hother =>
            rcases List.mem_append.mp hx with hold | hnew
            · exact hputs.put x hold
            · rw [List.mem_singleton.mp hnew] at hother
              exact absurd ⟨rfl, rfl, rfl⟩ hother
      · rw [hinsert hsrc htgt htype, if_neg (hnone e hlast)]
        exact hputs.rest hsrc htgt htype fun x hx => hnone x (hfront hx)

section Schedule

variable {xxh3 : UInt32 → UInt32 → Nat} {entries : List LshEntry}

theorem exists_of_mem_simEdges {src : LshEntry} {e : SimEdge}
    (he : e ∈ simEdges xxh3 entries src) :
    ∃ cand ∈ entries, wanted src cand = true ∧ e = edgeBetween src cand := by
  obtain ⟨cand, hcand, rfl⟩ := List.mem_map.mp (List.mem_of_mem_take he)
  obtain ⟨hmem, hwanted⟩ := List.mem_filter.mp hcand
  exact ⟨cand, (queryInto_subset xxh3 entries src.fingerprint simCandCap).1 cand hmem, hwanted, rfl⟩

theorem simEdges_eq_nil (hfew : entries.length < minFpEntries) :
    entries.flatMap (simEdges xxh3 entries) = [] := by
  refine List.flatMap_eq_nil_iff.mpr fun src hsrc => List.eq_nil_iff_forall_not_mem.mpr ?_
  intro e he
  obtain ⟨cand, hcand, hwanted, -⟩ := exists_of_mem_simEdges he
  obtain ⟨x, hx⟩ : ∃ x, entries = [x] :=
    List.length_eq_one_iff.mp (Nat.le_antisymm (Nat.le_of_lt_succ hfew)
      (List.length_pos_of_mem hsrc))
  rw [hx, List.mem_singleton] at hsrc hcand
  rw [hsrc, hcand, wanted, skipped, beq_self_eq_true] at hwanted
  exact Bool.false_ne_true hwanted

theorem mergeOk_simEdges (hids : ∀ e ∈ entries, InI64 e.nodeId)
    (hdistinct : (entries.map LshEntry.nodeId).Nodup) {es : List SimEdge}
    (hes : ∀ e, e ∈ es ↔ e ∈ entries.flatMap (simEdges xxh3 entries)) : MergeOk es := by
  have hends : ∀ e ∈ es, ∃ src ∈ entries, ∃ cand ∈ entries, e = edgeBetween src cand := by
    intro e he
    obtain ⟨src, hsrc, hedge⟩ := List.mem_flatMap.mp ((hes e).mp he)
    obtain ⟨cand, hcand, -, rfl⟩ := exists_of_mem_simEdges hedge
    exact ⟨src, hsrc, cand, hcand, rfl⟩
  refine ⟨fun e he => ?_, fun e he => ?_, fun e he e' he' hsource htarget => ?_⟩
  · obtain ⟨src, hsrc, cand, -, rfl⟩ := hends e he
    exact hids src hsrc
  · obtain ⟨src, -, cand, hcand, rfl⟩ := hends e he
    exact hids cand hcand
  · obtain ⟨src, hsrc, cand, hcand, rfl⟩ := hends e he
    obtain ⟨src', hsrc', cand', hcand', rfl⟩ := hends e' he'
    rw [List.inj_on_of_nodup_map hdistinct hsrc hsrc' hsource,
      List.inj_on_of_nodup_map hdistinct hcand hcand' htarget]

variable (xxh3 entries) in
/-- The threads stop, whatever their number and the order of their steps, and the edges that
are put into the graph buffer depend on neither. -/
structure AnySchedule (workerCount : Nat) (g : Gbuf) : Prop where
  ends : ∀ threads (order : List (Fin threads)),
    AllActive (simStep xxh3 entries workerCount) (· = .stopped) (simStart, fun _ => .pool) order →
      order.length ≤ simMeasure entries workerCount (simStart, fun _ : Fin threads => .pool)
  result : ∃ g', PassSimilarity xxh3 entries workerCount g g'
  edges : ∀ g', PassSimilarity xxh3 entries workerCount g g' →
    PutsEdges g g' (entries.flatMap (simEdges xxh3 entries))

theorem similarity_any_schedule {workerCount : Nat} (hworkers : 0 < workerCount)
    (hids : ∀ e ∈ entries, InI64 e.nodeId) (hdistinct : (entries.map LshEntry.nodeId).Nodup)
    {g : Gbuf} (h : Reachable TypedOp g) : AnySchedule xxh3 entries workerCount g := by
  refine ⟨fun threads order horder => sim_runs_end horder, ?_, fun g' hpass => ?_⟩
  · by_cases hfew : entries.length < minFpEntries
    · exact ⟨g, by rw [PassSimilarity, if_pos hfew]⟩
    · obtain ⟨order, hstopped⟩ := @exists_sim_stopped xxh3 entries workerCount 1
      refine ⟨mergeSimEdges workerCount g (simRun xxh3 entries workerCount order).1.workerBufs, ?_⟩
      rw [PassSimilarity, if_neg hfew]
      exact ⟨1, Nat.one_pos, order, hstopped, rfl⟩
  · rw [PassSimilarity] at hpass
    split at hpass
    · next hfew =>
        rw [hpass, simEdges_eq_nil hfew]
        exact ⟨fun e he => absurd he List.not_mem_nil, fun _ _ _ _ => rfl⟩
    · obtain ⟨threads, hthreads, order, hstopped, rfl⟩ := hpass
      have hmem := mem_workerBufs hworkers hthreads hstopped
      have hputs := (putsEdges_foldl (h.invariant typedInv_new fun _ _ => TypedInv.step).keyInv
        (mergeOk_simEdges hids hdistinct hmem)).2
      exact ⟨fun e he => hputs.put e ((hmem e).mpr he), fun hsrc htgt htype hnone =>
        hputs.rest hsrc htgt htype fun e he => hnone e ((hmem e).mp he)⟩

end Schedule

/-- Two functions with the same fingerprint, on an empty buffer. -/
theorem similarity_any_schedule_two :
    AnySchedule (fun a b => a.toNat + b.toNat)
      [{ nodeId := 1, fingerprint := zeroHash, filePath := none, fileExt := [] },
        { nodeId := 2, fingerprint := zeroHash, filePath := none, fileExt := [] }] 4
      (cbmGbufNew [] none) :=
  similarity_any_schedule (by decide) (by simp [InI64]) (by simp)
    ⟨[], none, .refl⟩

end Pipeline
end CodebaseMemory
