import CodebaseMemory.Lib.Capped
import CodebaseMemory.Lib.Counting
import CodebaseMemory.Lib.Text
import CodebaseMemory.Sqlite.IndexOrder
import Mathlib.Data.Set.Card
import Mathlib.Tactic.NormNum

/-!
# Files that change together (`src/pipeline/pass_githistory.c`)

`cbm_compute_change_coupling` counts the commits of each file and of each pair of files.  A pair
is one key in its tables, the two paths in order with a byte 1 between them.

Reading aids:
* A hash table is a finite map; `visit` is the order in which `cbm_ht_foreach` goes through it.
* The score is a rational number.
* A text has no zero byte.
-/

namespace CodebaseMemory
namespace Pipeline

open Lib
open Sqlite (CStr bytesOf strcmp compares_strcmp)

def ghMinCommits : Nat := 3

def ghMaxFiles : Nat := 20

/-- `cbm_commit_files_t` -/
structure CommitFiles where
  files : List CStr
  timestamp : Int

/-- `cbm_change_coupling_t` -/
structure ChangeCoupling where
  fileA : CStr
  fileB : CStr
  coChangeCount : Nat
  couplingScore : ℚ
  lastCoChange : Int

structure CouplingTables where
  fileCounts : Table CStr Nat
  pairCounts : Table CStr Nat
  pairTimestamps : Table CStr Int

def pairKey (a b : CStr) : CStr :=
  if strcmp a b = .gt then b ++ 1 :: a else a ++ 1 :: b

/-- One round of the loop over the pairs of a commit. -/
def countPair (timestamp : Int) (t : CouplingTables) (pair : CStr × CStr) : CouplingTables :=
  let pk := pairKey pair.1 pair.2
  match t.pairCounts.lookup pk with
  | some n =>
      { t with
        pairCounts := t.pairCounts.insert pk (n + 1)
        pairTimestamps := match t.pairTimestamps.lookup pk with
          | some ts => if ts < timestamp then t.pairTimestamps.insert pk timestamp
              else t.pairTimestamps
          | none => t.pairTimestamps }
  | none =>
      { t with
        pairCounts := t.pairCounts.insert pk 1
        pairTimestamps := t.pairTimestamps.insert pk timestamp }

/-- One round of the loop over the commits. -/
def countCommit (t : CouplingTables) (c : CommitFiles) : CouplingTables :=
  if ghMaxFiles < c.files.length then t
  else
    let t' := { t with fileCounts := c.files.foldl bump t.fileCounts }
    (pairsOf c.files).foldl (countPair c.timestamp) t'

def countCommits (commits : List CommitFiles) : CouplingTables :=
  commits.foldl countCommit { fileCounts := ∅, pairCounts := ∅, pairTimestamps := ∅ }

/-- What `collect_coupling_cb` writes for a pair. -/
def couplingOf (t : CouplingTables) (pk : CStr) (coCount : Nat) : Option ChangeCoupling :=
  match splitFirst 1 pk with
  | none => none
  | some (fileA, fileB) =>
      if 512 ≤ fileA.length then none
      else
        match t.fileCounts.lookup fileA, t.fileCounts.lookup fileB with
        | some countA, some countB =>
            let minTotal := min countA countB
            let score : ℚ := coCount / minTotal
            if minTotal = 0 then none
            -- MIN_COUPLING_SCORE
            else if score < 3 / 10 then none
            else
              some
                { fileA := fileA.take 511
                  fileB := fileB.take 511
                  coChangeCount := coCount
                  couplingScore := score
                  lastCoChange := (t.pairTimestamps.lookup pk).getD 0 }
        | _, _ => none

def collectCouplingCb (t : CouplingTables) (maxOut : Nat) (out : List ChangeCoupling)
    (entry : CStr × Nat) : List ChangeCoupling :=
  if entry.2 < ghMinCommits then out
  else if maxOut ≤ out.length then out
  else out ++ (couplingOf t entry.1 entry.2).toList

def cbmComputeChangeCoupling (visit : List (CStr × Nat) → List (CStr × Nat))
    (commits : List CommitFiles) (maxOut : Nat) : List ChangeCoupling :=
  let t := countCommits commits
  (visit (t.pairCounts.entries.map fun e => (e.1, e.2))).foldl (collectCouplingCb t maxOut) []

def counted (commits : List CommitFiles) : List CommitFiles :=
  commits.filter fun c => c.files.length ≤ ghMaxFiles

def touching (commits : List CommitFiles) (f : CStr) : List CommitFiles :=
  (counted commits).filter fun c => f ∈ c.files

def together (commits : List CommitFiles) (a b : CStr) : List CommitFiles :=
  (counted commits).filter fun c => a ∈ c.files ∧ b ∈ c.files

/-- Two files occur together often enough. -/
def Coupled (commits : List CommitFiles) (a b : CStr) : Prop :=
  a ≠ b ∧ ghMinCommits ≤ (together commits a b).length ∧
    3 * min (touching commits a).length (touching commits b).length ≤
      10 * (together commits a b).length

/-- The entry is of these two files. -/
def ChangeCoupling.Of (e : ChangeCoupling) (a b : CStr) : Prop :=
  e.fileA = a ∧ e.fileB = b ∨ e.fileA = b ∧ e.fileB = a

/-- There is one entry for each two files that are coupled, with the number of their commits and
the largest timestamp of these. -/
structure CouplingExact (commits : List CommitFiles) (out : List ChangeCoupling) : Prop where
  pairs : ∀ a b, (∃ e ∈ out, e.Of a b) ↔ Coupled commits a b
  once : out.Pairwise fun e e' => ∀ a b, e.Of a b → ¬ e'.Of a b
  count : ∀ e ∈ out, e.coChangeCount = (together commits e.fileA e.fileB).length
  last : ∀ e ∈ out, (∃ c ∈ together commits e.fileA e.fileB, c.timestamp = e.lastCoChange) ∧
    ∀ c ∈ together commits e.fileA e.fileB, c.timestamp ≤ e.lastCoChange

/-- The paths of a commit differ, fit a buffer and do not have the byte of the keys. -/
structure CommitFiles.Ok (c : CommitFiles) : Prop where
  nodup : c.files.Nodup
  short : ∀ f ∈ c.files, f.length < 512
  no_separator : ∀ f ∈ c.files, (1 : UInt8) ∉ f

/-- The same commits with the same files, in other orders. -/
def Rearranged (commits commits' : List CommitFiles) : Prop :=
  ∃ mid, List.Forall₂ (fun c c' => c.files.Perm c'.files ∧ c.timestamp = c'.timestamp) commits mid ∧
    mid.Perm commits'

variable {a b : CStr}
variable {t : CouplingTables}

theorem strcmp_eq_lt_or (h : a ≠ b) :
    strcmp a b = .lt ∧ strcmp b a = .gt ∨ strcmp a b = .gt ∧ strcmp b a = .lt := by
  have hne : a.map UInt8.toNat ≠ b.map UInt8.toNat := fun heq =>
    h (List.map_injective_iff.mpr (fun _ _ => UInt8.toNat_inj.mp) heq)
  have hab := compares_strcmp a b
  have hba := compares_strcmp b a
  rcases lt_or_gt_of_ne hne with hlt | hgt
  · refine Or.inl ⟨?_, ?_⟩
    · exact Ordering.Compares.inj hab hlt
    · exact Ordering.Compares.inj hba hlt
  · refine Or.inr ⟨?_, ?_⟩
    · exact Ordering.Compares.inj hab hgt
    · exact Ordering.Compares.inj hba hgt

theorem ne_of_strcmp_lt (h : strcmp a b = .lt) : a ≠ b := by
  have hab := compares_strcmp a b
  rw [h] at hab
  exact fun heq => (ne_of_lt hab) (congrArg _ heq)

theorem pairKey_comm (h : a ≠ b) : pairKey a b = pairKey b a := by
  rw [pairKey, pairKey]
  rcases strcmp_eq_lt_or h with ⟨hab, hba⟩ | ⟨hab, hba⟩
  · rw [hab, hba]
    rfl
  · rw [hab, hba]
    rfl

theorem pairKey_of_lt (h : strcmp a b = .lt) : pairKey a b = a ++ 1 :: b := by
  rw [pairKey, h]
  rfl

theorem append_one_inj {c d : CStr} (ha : (1 : UInt8) ∉ a) (hc : (1 : UInt8) ∉ c)
    (h : a ++ 1 :: b = c ++ 1 :: d) : a = c ∧ b = d := by
  have hsplit := congrArg (splitFirst 1) h
  rw [splitFirst_append ha, splitFirst_append hc] at hsplit
  exact Prod.mk.inj (Option.some.inj hsplit)

theorem pairKey_inj {c d : CStr} (ha : (1 : UInt8) ∉ a) (hb : (1 : UInt8) ∉ b)
    (hc : (1 : UInt8) ∉ c) (hd : (1 : UInt8) ∉ d) (h : pairKey a b = pairKey c d) :
    a = c ∧ b = d ∨ a = d ∧ b = c := by
  rw [pairKey, pairKey] at h
  split at h <;> split at h
  · exact Or.inl (append_one_inj hb hd h).symm
  · exact Or.inr (append_one_inj hb hc h).symm
  · exact Or.inr (append_one_inj ha hd h)
  · exact Or.inl (append_one_inj ha hc h)

def pairKeys (c : CommitFiles) : List CStr :=
  (pairsOf c.files).map fun pair => pairKey pair.1 pair.2

/-- The two tables of the pairs have the same keys. -/
def CouplingTables.Agree (t : CouplingTables) : Prop :=
  ∀ pk, (t.pairTimestamps.lookup pk).isSome = (t.pairCounts.lookup pk).isSome

theorem countPair_eq (h : t.Agree) (timestamp : Int) (pair : CStr × CStr) :
    countPair timestamp t pair =
      { t with
        pairCounts := bump t.pairCounts (pairKey pair.1 pair.2)
        pairTimestamps := raise t.pairTimestamps (pairKey pair.1 pair.2) timestamp } := by
  have hpk := h (pairKey pair.1 pair.2)
  rw [countPair, bump, raise]
  cases hcount : t.pairCounts.lookup (pairKey pair.1 pair.2) with
  | none =>
      rw [hcount, Option.isSome_none, Option.isSome_eq_false_iff, Option.isNone_iff_eq_none] at hpk
      rw [hpk]
  | some n =>
      rw [hcount, Option.isSome_some] at hpk
      obtain ⟨ts, hts⟩ := Option.isSome_iff_exists.mp hpk
      rw [hts]

theorem agree_countPair (h : t.Agree) (timestamp : Int) (pair : CStr × CStr) :
    (countPair timestamp t pair).Agree := by
  intro pk
  rw [countPair_eq h, lookup_bump, lookup_raise]
  split
  · rfl
  · exact h pk

theorem foldl_countPair (h : t.Agree) (timestamp : Int) (pairs : List (CStr × CStr)) :
    (pairs.foldl (countPair timestamp) t).Agree ∧
      pairs.foldl (countPair timestamp) t =
        { t with
          pairCounts := (pairs.map fun pair => pairKey pair.1 pair.2).foldl bump t.pairCounts
          pairTimestamps := (pairs.map fun pair => (pairKey pair.1 pair.2, timestamp)).foldl
            (fun t w => raise t w.1 w.2) t.pairTimestamps } := by
  induction pairs generalizing t with
  | nil => exact ⟨h, rfl⟩
  | cons pair pairs ih =>
      obtain ⟨hagree, heq⟩ := ih (agree_countPair h timestamp pair)
      rw [List.foldl_cons]
      refine ⟨hagree, ?_⟩
      rw [heq, countPair_eq h]
      rfl

def pairStamps (c : CommitFiles) : List (CStr × Int) :=
  (pairKeys c).map fun pk => (pk, c.timestamp)

theorem foldl_countCommit (commits : List CommitFiles) (h : t.Agree) :
    (commits.foldl countCommit t).Agree ∧
      commits.foldl countCommit t =
        { fileCounts := ((counted commits).flatMap CommitFiles.files).foldl bump t.fileCounts
          pairCounts := ((counted commits).flatMap pairKeys).foldl bump t.pairCounts
          pairTimestamps := ((counted commits).flatMap pairStamps).foldl
            (fun t w => raise t w.1 w.2) t.pairTimestamps } := by
  induction commits generalizing t with
  | nil => exact ⟨h, rfl⟩
  | cons c commits ih =>
      rw [List.foldl_cons, countCommit, counted, List.filter_cons, ← counted]
      by_cases hbig : ghMaxFiles < c.files.length
      · rw [if_pos hbig, if_neg (by rw [decide_eq_true_iff]; exact Nat.not_le_of_lt hbig)]
        exact ih h
      · rw [if_neg hbig, if_pos (decide_eq_true (Nat.le_of_not_lt hbig))]
        dsimp only
        obtain ⟨hagree, heq⟩ := foldl_countPair
          (t := { t with fileCounts := c.files.foldl bump t.fileCounts }) h c.timestamp
          (pairsOf c.files)
        obtain ⟨hagree', heq'⟩ := ih hagree
        refine ⟨hagree', ?_⟩
        rw [heq', heq, List.flatMap_cons, List.flatMap_cons, List.flatMap_cons,
          List.foldl_append, List.foldl_append, List.foldl_append, pairStamps, pairKeys,
          List.map_map]
        rfl

theorem countCommits_eq (commits : List CommitFiles) : countCommits commits =
    { fileCounts := ((counted commits).flatMap CommitFiles.files).foldl bump ∅
      pairCounts := ((counted commits).flatMap pairKeys).foldl bump ∅
      pairTimestamps := ((counted commits).flatMap pairStamps).foldl
        (fun t w => raise t w.1 w.2) ∅ } :=
  (foldl_countCommit commits fun _ => rfl).2

section Counts

variable {commits : List CommitFiles}
variable {a b : CStr}
variable {c : CommitFiles}

theorem ok_of_mem_counted (hok : ∀ c ∈ commits, c.Ok) (hc : c ∈ counted commits) : c.Ok :=
  hok c (List.mem_filter.mp hc).1

theorem lookup_fileCounts (hok : ∀ c ∈ commits, c.Ok) (f : CStr) :
    (countCommits commits).fileCounts.lookup f =
      if (touching commits f).length = 0 then none else some (touching commits f).length := by
  rw [countCommits_eq]
  dsimp only
  rw [lookup_foldl_bump, count_flatMap_eq fun c hc => (ok_of_mem_counted hok hc).nodup, touching]

theorem mem_pairKeys (hok : c.Ok) (ha : (1 : UInt8) ∉ a) (hb : (1 : UInt8) ∉ b) (hne : a ≠ b) :
    pairKey a b ∈ pairKeys c ↔ a ∈ c.files ∧ b ∈ c.files := by
  rw [pairKeys, List.mem_map]
  constructor
  · rintro ⟨⟨x, y⟩, hxy, heq⟩
    obtain ⟨hx, hy⟩ := mem_pairsOf hxy
    rcases pairKey_inj (hok.no_separator x hx) (hok.no_separator y hy) ha hb heq with h | h
    · exact ⟨h.1 ▸ hx, h.2 ▸ hy⟩
    · exact ⟨h.2 ▸ hy, h.1 ▸ hx⟩
  · rintro ⟨hac, hbc⟩
    rcases pairsOf_total hac hbc hne with h | h
    · exact ⟨(a, b), h, rfl⟩
    · exact ⟨(b, a), h, pairKey_comm hne.symm⟩

theorem nodup_pairKeys (hok : c.Ok) : (pairKeys c).Nodup :=
  nodup_map_pairsOf hok.nodup fun a ha b hb x hx y hy _ h =>
    pairKey_inj (hok.no_separator a ha) (hok.no_separator b hb) (hok.no_separator x hx)
      (hok.no_separator y hy) h

theorem lookup_pairCounts (hok : ∀ c ∈ commits, c.Ok) (ha : (1 : UInt8) ∉ a) (hb : (1 : UInt8) ∉ b)
    (hne : a ≠ b) :
    (countCommits commits).pairCounts.lookup (pairKey a b) =
      if (together commits a b).length = 0 then none else some (together commits a b).length := by
  have hfilter : ((counted commits).filter fun c => pairKey a b ∈ pairKeys c) =
      together commits a b := by
    refine List.filter_congr fun c hc => ?_
    exact decide_eq_decide.mpr (mem_pairKeys (ok_of_mem_counted hok hc) ha hb hne)
  rw [countCommits_eq]
  dsimp only
  rw [lookup_foldl_bump, count_flatMap_eq fun c hc => nodup_pairKeys (ok_of_mem_counted hok hc),
    hfilter]

theorem lookup_pairTimestamps (hok : ∀ c ∈ commits, c.Ok) (ha : (1 : UInt8) ∉ a)
    (hb : (1 : UInt8) ∉ b) (hne : a ≠ b) (htogether : together commits a b ≠ []) :
    ∃ ts, (countCommits commits).pairTimestamps.lookup (pairKey a b) = some ts ∧
      (∃ c ∈ together commits a b, c.timestamp = ts) ∧
      ∀ c ∈ together commits a b, c.timestamp ≤ ts := by
  have hmem : ∀ v, (pairKey a b, v) ∈ (counted commits).flatMap pairStamps ↔
      ∃ c ∈ together commits a b, c.timestamp = v := by
    intro v
    rw [List.mem_flatMap]
    constructor
    · rintro ⟨c, hc, hv⟩
      obtain ⟨pk, hpk, heq⟩ := List.mem_map.mp hv
      obtain ⟨rfl, rfl⟩ := Prod.mk.inj heq
      have hfiles := (mem_pairKeys (ok_of_mem_counted hok hc) ha hb hne).mp hpk
      exact ⟨c, List.mem_filter.mpr ⟨hc, decide_eq_true hfiles⟩, rfl⟩
    · rintro ⟨c, hc, rfl⟩
      obtain ⟨hcounted, hfiles⟩ := List.mem_filter.mp hc
      have hpk := (mem_pairKeys (ok_of_mem_counted hok hcounted) ha hb hne).mpr
        (of_decide_eq_true hfiles)
      exact ⟨c, hcounted, List.mem_map.mpr ⟨_, hpk, rfl⟩⟩
  obtain ⟨c, hc⟩ := List.exists_mem_of_ne_nil _ htogether
  rw [countCommits_eq]
  obtain ⟨hsome, hmax⟩ := @lookup_foldl_raise _ _ _ _ ((counted commits).flatMap pairStamps)
    (pairKey a b)
  obtain ⟨ts, hts⟩ := hsome c.timestamp ((hmem _).mpr ⟨c, hc, rfl⟩)
  obtain ⟨hin, hle⟩ := hmax ts hts
  exact ⟨ts, hts, (hmem ts).mp hin, fun c hc => hle c.timestamp ((hmem _).mpr ⟨c, hc, rfl⟩)⟩

theorem exists_of_lookup_pairCounts (hok : ∀ c ∈ commits, c.Ok) {pk : CStr} {n : Nat}
    (h : (countCommits commits).pairCounts.lookup pk = some n) :
    ∃ a b, strcmp a b = .lt ∧ pk = a ++ 1 :: b ∧ ∃ c ∈ together commits a b, c.Ok := by
  rw [countCommits_eq] at h
  obtain ⟨c, hc, hpk⟩ := List.mem_flatMap.mp (mem_of_lookup_foldl_bump h)
  obtain ⟨⟨x, y⟩, hxy, rfl⟩ := List.mem_map.mp hpk
  have hc' := ok_of_mem_counted hok hc
  obtain ⟨hx, hy⟩ := mem_pairsOf hxy
  have hne := ne_of_mem_pairsOf hc'.nodup hxy
  have htogether : ∀ {a b}, a ∈ c.files → b ∈ c.files → c ∈ together commits a b :=
    fun ha hb => List.mem_filter.mpr ⟨hc, decide_eq_true ⟨ha, hb⟩⟩
  rcases strcmp_eq_lt_or hne with ⟨hlt, -⟩ | ⟨-, hlt⟩
  · exact ⟨x, y, hlt, pairKey_of_lt hlt, c, htogether hx hy, hc'⟩
  · refine ⟨y, x, hlt, ?_, c, htogether hy hx, hc'⟩
    dsimp only
    rw [pairKey_comm hne, pairKey_of_lt hlt]

variable (commits) in
/-- The largest timestamp of the commits of two files. -/
def IsLast (a b : CStr) (ts : Int) : Prop :=
  (∃ c ∈ together commits a b, c.timestamp = ts) ∧ ∀ c ∈ together commits a b, c.timestamp ≤ ts

variable (commits) in
def entryOf (a b : CStr) (ts : Int) : ChangeCoupling :=
  { fileA := a
    fileB := b
    coChangeCount := (together commits a b).length
    couplingScore := (together commits a b).length /
      (min (touching commits a).length (touching commits b).length : Nat)
    lastCoChange := ts }

theorem length_together_le (a b : CStr) :
    (together commits a b).length ≤ (touching commits a).length ∧
      (together commits a b).length ≤ (touching commits b).length := by
  have hle : ∀ f, (∀ c : CommitFiles, a ∈ c.files ∧ b ∈ c.files → f ∈ c.files) →
      (together commits a b).length ≤ (touching commits f).length := by
    intro f hf
    rw [together, touching, ← List.countP_eq_length_filter, ← List.countP_eq_length_filter]
    refine List.countP_mono_left fun c _ hc => ?_
    exact decide_eq_true (hf c (of_decide_eq_true hc))
  exact ⟨hle a fun _ h => h.1, hle b fun _ h => h.2⟩

theorem couplingOf_eq (hok : ∀ c ∈ commits, c.Ok) (hlt : strcmp a b = .lt)
    (hc : c ∈ together commits a b) :
    ∃ ts, IsLast commits a b ts ∧
      couplingOf (countCommits commits) (a ++ 1 :: b) (together commits a b).length =
        if 3 * min (touching commits a).length (touching commits b).length ≤
          10 * (together commits a b).length then some (entryOf commits a b ts) else none := by
  obtain ⟨hcounted, hfiles⟩ := List.mem_filter.mp hc
  obtain ⟨hac, hbc⟩ := of_decide_eq_true hfiles
  have hc' := ok_of_mem_counted hok hcounted
  have ha := hc'.no_separator a hac
  have hne := ne_of_strcmp_lt hlt
  obtain ⟨ts, hts, hlast⟩ := lookup_pairTimestamps hok ha (hc'.no_separator b hbc) hne
    (List.ne_nil_of_mem hc)
  refine ⟨ts, hlast, ?_⟩
  obtain ⟨hka, hkb⟩ := @length_together_le commits a b
  have hpos : 0 < (together commits a b).length := List.length_pos_of_mem hc
  rw [pairKey_of_lt hlt] at hts
  rw [couplingOf, splitFirst_append ha]
  dsimp only
  rw [if_neg (Nat.not_le_of_lt (hc'.short a hac)), lookup_fileCounts hok, lookup_fileCounts hok,
    if_neg (by omega), if_neg (by omega)]
  dsimp only
  rw [if_neg (by omega), hts, List.take_of_length_le (Nat.le_of_lt_succ (hc'.short a hac)),
    List.take_of_length_le (Nat.le_of_lt_succ (hc'.short b hbc))]
  have hscore : ((together commits a b).length : ℚ) /
      (min (touching commits a).length (touching commits b).length : Nat) < 3 / 10 ↔
      ¬ 3 * min (touching commits a).length (touching commits b).length ≤
        10 * (together commits a b).length := by
    have hmin : (0 : ℚ) < (min (touching commits a).length (touching commits b).length : Nat) := by
      exact_mod_cast (by omega : 0 < min (touching commits a).length (touching commits b).length)
    rw [div_lt_div_iff₀ hmin (by norm_num), not_le]
    constructor
    · intro h
      have : (together commits a b).length * 10 <
          3 * min (touching commits a).length (touching commits b).length := by exact_mod_cast h
      omega
    · intro h
      have : (together commits a b).length * 10 <
          3 * min (touching commits a).length (touching commits b).length := by omega
      exact_mod_cast this
  by_cases henough : 3 * min (touching commits a).length (touching commits b).length ≤
      10 * (together commits a b).length
  · rw [if_neg (fun h => hscore.mp h henough), if_pos henough]
    rfl
  · rw [if_pos (hscore.mpr henough), if_neg henough]

def written (t : CouplingTables) (entry : CStr × Nat) : List ChangeCoupling :=
  if entry.2 < ghMinCommits then [] else (couplingOf t entry.1 entry.2).toList

theorem foldl_collectCouplingCb (t : CouplingTables) (maxOut : Nat) (order : List (CStr × Nat)) :
    order.foldl (collectCouplingCb t maxOut) [] = (order.flatMap (written t)).take maxOut := by
  have hround : ∀ acc x, collectCouplingCb t maxOut acc x =
      acc ++ takeRoom (some maxOut) acc.length (written t x) := by
    intro acc x
    rw [collectCouplingCb, written, takeRoom]
    split
    · rw [List.take_nil, List.append_nil]
    · split
      · next hfull => rw [Nat.sub_eq_zero_of_le hfull, List.take_zero, List.append_nil]
      · next hroom =>
          rw [List.take_of_length_le]
          have hone : (couplingOf t x.1 x.2).toList.length ≤ 1 := by
            cases couplingOf t x.1 x.2 <;> simp
          omega
  rw [foldl_takeRoom (some maxOut) hround, List.nil_append]
  rfl

section Returned

variable {visit : List (CStr × Nat) → List (CStr × Nat)}

variable (commits visit) in
/-- The entries of the pairs, in the order in which they are visited. -/
def found : List ChangeCoupling :=
  (visit ((countCommits commits).pairCounts.entries.map fun e => (e.1, e.2))).flatMap
    (written (countCommits commits))

theorem mem_visited (hvisit : ∀ l, (visit l).Perm l) (t : Table CStr Nat) {pk : CStr} {n : Nat} :
    (pk, n) ∈ visit (t.entries.map fun e => (e.1, e.2)) ↔ t.lookup pk = some n := by
  rw [(hvisit _).mem_iff, List.mem_map, ← Option.mem_def, AList.mem_lookup_iff]
  constructor
  · rintro ⟨⟨k, v⟩, hmem, heq⟩
    obtain ⟨rfl, rfl⟩ := Prod.mk.inj heq
    exact hmem
  · exact fun h => ⟨⟨pk, n⟩, h, rfl⟩

theorem lookup_of_together (hok : ∀ c ∈ commits, c.Ok) (hlt : strcmp a b = .lt)
    (hc : c ∈ together commits a b) :
    (countCommits commits).pairCounts.lookup (a ++ 1 :: b) =
      some (together commits a b).length := by
  obtain ⟨hcounted, hfiles⟩ := List.mem_filter.mp hc
  obtain ⟨hac, hbc⟩ := of_decide_eq_true hfiles
  have hc' := ok_of_mem_counted hok hcounted
  rw [← pairKey_of_lt hlt, lookup_pairCounts hok (hc'.no_separator a hac)
    (hc'.no_separator b hbc) (ne_of_strcmp_lt hlt),
    if_neg (Nat.ne_of_gt (List.length_pos_of_mem hc))]

theorem mem_written (hok : ∀ c ∈ commits, c.Ok) (hlt : strcmp a b = .lt)
    (hc : c ∈ together commits a b) {e : ChangeCoupling} :
    e ∈ written (countCommits commits) (a ++ 1 :: b, (together commits a b).length) ↔
      Coupled commits a b ∧ ∃ ts, IsLast commits a b ts ∧ e = entryOf commits a b ts := by
  obtain ⟨ts, hts, hwritten⟩ := couplingOf_eq hok hlt hc
  have hunique : ∀ ts', IsLast commits a b ts' → ts' = ts := by
    rintro ts' ⟨⟨c', hc', rfl⟩, hle'⟩
    obtain ⟨⟨d, hd, rfl⟩, hle⟩ := hts
    exact le_antisymm (hle c' hc') (hle' d hd)
  have hright : (∃ ts', IsLast commits a b ts' ∧ e = entryOf commits a b ts') ↔
      e = entryOf commits a b ts :=
    ⟨fun ⟨ts', hts', heq⟩ => hunique ts' hts' ▸ heq, fun heq => ⟨ts, hts, heq⟩⟩
  rw [hright, written, hwritten, Coupled]
  dsimp only
  split
  · next hfew =>
      refine iff_of_false List.not_mem_nil fun hall => ?_
      exact absurd hall.1.2.1 (Nat.not_le_of_lt hfew)
  · next hmany =>
      split
      · next henough =>
          rw [Option.toList_some, List.mem_singleton]
          exact (and_iff_right ⟨ne_of_strcmp_lt hlt, Nat.le_of_not_lt hmany, henough⟩).symm
      · next hno => exact iff_of_false List.not_mem_nil fun hall => hno hall.1.2.2

theorem mem_found (hok : ∀ c ∈ commits, c.Ok) (hvisit : ∀ l, (visit l).Perm l)
    {e : ChangeCoupling} :
    e ∈ found commits visit ↔ ∃ a b ts, strcmp a b = .lt ∧ Coupled commits a b ∧
      IsLast commits a b ts ∧ e = entryOf commits a b ts := by
  rw [found, List.mem_flatMap]
  constructor
  · rintro ⟨⟨pk, n⟩, hentry, he⟩
    rw [mem_visited hvisit] at hentry
    obtain ⟨a, b, hlt, rfl, c, hc, -⟩ := exists_of_lookup_pairCounts hok hentry
    obtain rfl := Option.some.inj ((lookup_of_together hok hlt hc).symm.trans hentry)
    obtain ⟨hcoupled, ts, hts, heq⟩ := (mem_written hok hlt hc).mp he
    exact ⟨a, b, ts, hlt, hcoupled, hts, heq⟩
  · rintro ⟨a, b, ts, hlt, hcoupled, hts, rfl⟩
    obtain ⟨c, hc, -⟩ := hts.1
    exact ⟨_, (mem_visited hvisit _).mpr (lookup_of_together hok hlt hc),
      (mem_written hok hlt hc).mpr ⟨hcoupled, ts, hts, rfl⟩⟩

theorem pairwise_found (hok : ∀ c ∈ commits, c.Ok) (hvisit : ∀ l, (visit l).Perm l) :
    (found commits visit).Pairwise fun e e' => ∀ a b, e.Of a b → ¬ e'.Of a b := by
  have hkeys : ((visit ((countCommits commits).pairCounts.entries.map
      fun e => (e.1, e.2))).map Prod.fst).Nodup := by
    refine ((hvisit _).map Prod.fst).nodup_iff.mpr ?_
    rw [List.map_map]
    exact (countCommits commits).pairCounts.nodupKeys
  have hof : ∀ {pk n e}, (pk, n) ∈ visit ((countCommits commits).pairCounts.entries.map
      fun e => (e.1, e.2)) → e ∈ written (countCommits commits) (pk, n) →
      strcmp e.fileA e.fileB = .lt ∧ pk = e.fileA ++ 1 :: e.fileB := by
    intro pk n e hentry he
    rw [mem_visited hvisit] at hentry
    obtain ⟨a, b, hlt, rfl, c, hc, -⟩ := exists_of_lookup_pairCounts hok hentry
    obtain rfl := Option.some.inj ((lookup_of_together hok hlt hc).symm.trans hentry)
    obtain ⟨-, ts, -, rfl⟩ := (mem_written hok hlt hc).mp he
    exact ⟨hlt, rfl⟩
  refine List.pairwise_flatMap.mpr ⟨fun entry _ => ?_, ?_⟩
  · rw [written]
    split
    · exact List.Pairwise.nil
    · cases couplingOf (countCommits commits) entry.1 entry.2 with
      | none => exact List.Pairwise.nil
      | some e => exact List.pairwise_singleton _ _
  · refine (List.pairwise_map.mp hkeys).imp_of_mem ?_
    rintro ⟨pk, n⟩ ⟨pk', n'⟩ hentry hentry' hne e he e' he' a b hab hab'
    obtain ⟨hlt, hpk⟩ := hof hentry he
    obtain ⟨hlt', hpk'⟩ := hof hentry' he'
    have hswap : ∀ {x y : CStr}, strcmp x y = .lt → strcmp y x ≠ .lt := by
      intro x y hxy hyx
      rcases strcmp_eq_lt_or (ne_of_strcmp_lt hxy) with ⟨-, hgt⟩ | ⟨hgt, -⟩
      · rw [hyx] at hgt
        exact absurd hgt (by decide)
      · rw [hxy] at hgt
        exact absurd hgt (by decide)
    refine hne ?_
    dsimp only
    rw [hpk, hpk']
    rcases hab with ⟨rfl, rfl⟩ | ⟨rfl, rfl⟩ <;> rcases hab' with ⟨h1, h2⟩ | ⟨h1, h2⟩
    · rw [h1, h2]
    · rw [h1, h2] at hlt'
      exact absurd hlt' (hswap hlt)
    · rw [h1, h2] at hlt'
      exact absurd hlt' (hswap hlt)
    · rw [h1, h2]

variable (commits) in
/-- The pairs of coupled files, each in the order of `strcmp`. -/
def coupledPairs : Set (CStr × CStr) :=
  { pair | strcmp pair.1 pair.2 = .lt ∧ Coupled commits pair.1 pair.2 }

theorem cbmComputeChangeCoupling_eq (hok : ∀ c ∈ commits, c.Ok)
    (hvisit : ∀ l, (visit l).Perm l) {maxOut : Nat}
    (hroom : (coupledPairs commits).encard ≤ maxOut) :
    cbmComputeChangeCoupling visit commits maxOut = found commits visit := by
  rw [cbmComputeChangeCoupling, foldl_collectCouplingCb, ← found]
  refine List.take_of_length_le ?_
  have hnodup : ((found commits visit).map fun e => (e.fileA, e.fileB)).Nodup := by
    refine List.pairwise_map.mpr ((pairwise_found hok hvisit).imp ?_)
    intro e e' hne heq
    obtain ⟨ha, hb⟩ := Prod.mk.inj heq
    exact hne e.fileA e.fileB (Or.inl ⟨rfl, rfl⟩) (Or.inl ⟨ha.symm, hb.symm⟩)
  have hsub : ((((found commits visit).map fun e => (e.fileA, e.fileB)).toFinset :
      Finset (CStr × CStr)) : Set (CStr × CStr)) ⊆ coupledPairs commits := by
    intro pair hpair
    obtain ⟨e, he, rfl⟩ := List.mem_map.mp (List.mem_toFinset.mp (Finset.mem_coe.mp hpair))
    obtain ⟨a, b, ts, hlt, hcoupled, -, rfl⟩ := (mem_found hok hvisit).mp he
    exact ⟨hlt, hcoupled⟩
  have hle := (Set.encard_le_encard hsub).trans hroom
  rw [Set.encard_coe_eq_coe_finsetCard, List.toFinset_card_of_nodup hnodup, List.length_map,
    Nat.cast_le] at hle
  exact hle

theorem together_comm (commits : List CommitFiles) (a b : CStr) :
    together commits a b = together commits b a :=
  List.filter_congr fun _ _ => decide_eq_decide.mpr and_comm

theorem Coupled.symm (h : Coupled commits a b) : Coupled commits b a := by
  obtain ⟨hne, hmany, hscore⟩ := h
  rw [Coupled, together_comm commits b a, min_comm]
  exact ⟨hne.symm, hmany, hscore⟩

theorem exists_isLast (hok : ∀ c ∈ commits, c.Ok) (h : Coupled commits a b) :
    ∃ ts, IsLast commits a b ts := by
  obtain ⟨hne, hmany, -⟩ := h
  have htogether : together commits a b ≠ [] := by
    intro hnil
    rw [hnil] at hmany
    exact absurd hmany (by decide)
  obtain ⟨c, hc⟩ := List.exists_mem_of_ne_nil _ htogether
  obtain ⟨hcounted, hfiles⟩ := List.mem_filter.mp hc
  obtain ⟨ha, hb⟩ := of_decide_eq_true hfiles
  have hc' := ok_of_mem_counted hok hcounted
  obtain ⟨ts, -, hlast⟩ := lookup_pairTimestamps hok (hc'.no_separator a ha)
    (hc'.no_separator b hb) hne htogether
  exact ⟨ts, hlast⟩

theorem couplingExact_found (hok : ∀ c ∈ commits, c.Ok) (hvisit : ∀ l, (visit l).Perm l) :
    CouplingExact commits (found commits visit) := by
  have hfound : ∀ {a b}, strcmp a b = .lt → Coupled commits a b →
      ∃ ts, entryOf commits a b ts ∈ found commits visit := by
    intro a b hlt hcoupled
    obtain ⟨ts, hts⟩ := exists_isLast hok hcoupled
    exact ⟨ts, (mem_found hok hvisit).mpr ⟨a, b, ts, hlt, hcoupled, hts, rfl⟩⟩
  refine ⟨fun a b => ⟨?_, fun hcoupled => ?_⟩, pairwise_found hok hvisit, ?_, ?_⟩
  · rintro ⟨e, he, hof⟩
    obtain ⟨x, y, ts, -, hcoupled, -, rfl⟩ := (mem_found hok hvisit).mp he
    rcases hof with ⟨rfl, rfl⟩ | ⟨rfl, rfl⟩
    · exact hcoupled
    · exact hcoupled.symm
  · rcases strcmp_eq_lt_or hcoupled.1 with ⟨hlt, -⟩ | ⟨-, hlt⟩
    · obtain ⟨ts, hmem⟩ := hfound hlt hcoupled
      exact ⟨_, hmem, Or.inl ⟨rfl, rfl⟩⟩
    · obtain ⟨ts, hmem⟩ := hfound hlt hcoupled.symm
      exact ⟨_, hmem, Or.inr ⟨rfl, rfl⟩⟩
  · intro e he
    obtain ⟨x, y, ts, -, -, -, rfl⟩ := (mem_found hok hvisit).mp he
    rfl
  · intro e he
    obtain ⟨x, y, ts, -, -, hlast, rfl⟩ := (mem_found hok hvisit).mp he
    exact hlast

end Returned

section Orders

variable {commits' : List CommitFiles}

theorem Rearranged.filter (h : Rearranged commits commits') {p : CommitFiles → Bool}
    (hp : ∀ c c' : CommitFiles, c.files.Perm c'.files → p c = p c') :
    Rearranged (commits.filter p) (commits'.filter p) := by
  obtain ⟨mid, hmid, hperm⟩ := h
  refine ⟨mid.filter p, ?_, hperm.filter p⟩
  exact List.rel_filter (fun c c' hc => Bool.eq_iff_iff.mp (hp c c' hc.1)) hmid

theorem Rearranged.timestamps (h : Rearranged commits commits') :
    (commits.map CommitFiles.timestamp).Perm (commits'.map CommitFiles.timestamp) := by
  obtain ⟨mid, hmid, hperm⟩ := h
  have hsame : commits.map CommitFiles.timestamp = mid.map CommitFiles.timestamp := by
    clear hperm
    induction hmid with
    | nil => rfl
    | cons hc _ ih => rw [List.map_cons, List.map_cons, hc.2, ih]
  rw [hsame]
  exact hperm.map _

theorem Rearranged.counted (h : Rearranged commits commits') :
    Rearranged (counted commits) (counted commits') :=
  h.filter fun c c' hc => by rw [hc.length_eq]

theorem Rearranged.together (h : Rearranged commits commits') (a b : CStr) :
    Rearranged (together commits a b) (together commits' a b) :=
  h.counted.filter fun _ _ hc =>
    decide_eq_decide.mpr (and_congr hc.mem_iff hc.mem_iff)

theorem Rearranged.touching (h : Rearranged commits commits') (f : CStr) :
    Rearranged (touching commits f) (touching commits' f) :=
  h.counted.filter fun _ _ hc => decide_eq_decide.mpr hc.mem_iff

theorem Rearranged.length_eq (h : Rearranged commits commits') :
    commits.length = commits'.length := by
  have hlength := h.timestamps.length_eq
  rwa [List.length_map, List.length_map] at hlength

theorem Rearranged.coupled_iff (h : Rearranged commits commits') (a b : CStr) :
    Coupled commits a b ↔ Coupled commits' a b := by
  rw [Coupled, Coupled, (h.together a b).length_eq, (h.touching a).length_eq,
    (h.touching b).length_eq]

theorem Rearranged.isLast_iff (h : Rearranged commits commits') (a b : CStr) (ts : Int) :
    IsLast commits a b ts ↔ IsLast commits' a b ts := by
  have hmem : ∀ v, (∃ c ∈ Pipeline.together commits a b, c.timestamp = v) ↔
      ∃ c ∈ Pipeline.together commits' a b, c.timestamp = v := by
    intro v
    rw [← List.mem_map, ← List.mem_map]
    exact (h.together a b).timestamps.mem_iff
  have hbound : ∀ {cs : List CommitFiles}, (∀ c ∈ cs, c.timestamp ≤ ts) ↔
      ∀ v, (∃ c ∈ cs, c.timestamp = v) → v ≤ ts :=
    ⟨fun hle v ⟨c, hc, heq⟩ => heq ▸ hle c hc, fun hle c hc => hle _ ⟨c, hc, rfl⟩⟩
  rw [IsLast, IsLast, hbound, hbound, hmem]
  simp only [hmem]

theorem Rearranged.entryOf_eq (h : Rearranged commits commits') (a b : CStr) (ts : Int) :
    entryOf commits a b ts = entryOf commits' a b ts := by
  rw [entryOf, entryOf, (h.together a b).length_eq, (h.touching a).length_eq,
    (h.touching b).length_eq]

theorem Rearranged.ok (h : Rearranged commits commits') (hok : ∀ c ∈ commits, c.Ok) :
    ∀ c ∈ commits', c.Ok := by
  obtain ⟨mid, hmid, hperm⟩ := h
  have hmid' : ∀ c ∈ mid, c.Ok := by
    clear hperm
    induction hmid with
    | nil => exact fun c hc => absurd hc List.not_mem_nil
    | cons hc _ ih =>
        obtain ⟨hfirst, hrest⟩ := List.forall_mem_cons.mp hok
        refine List.forall_mem_cons.mpr ⟨⟨?_, ?_, ?_⟩, ih hrest⟩
        · exact hc.1.nodup_iff.mp hfirst.nodup
        · exact fun f hf => hfirst.short f (hc.1.mem_iff.mpr hf)
        · exact fun f hf => hfirst.no_separator f (hc.1.mem_iff.mpr hf)
  exact fun c hc => hmid' c (hperm.mem_iff.mpr hc)

/-- What is returned, and that it depends neither on the order of the commits and their files nor
on that in which the table is visited. -/
theorem coupling_exact (hok : ∀ c ∈ commits, c.Ok)
    {visit : List (CStr × Nat) → List (CStr × Nat)} (hvisit : ∀ l, (visit l).Perm l)
    {maxOut : Nat} (hroom : (coupledPairs commits).encard ≤ maxOut) :
    CouplingExact commits (cbmComputeChangeCoupling visit commits maxOut) ∧
      ∀ commits', Rearranged commits commits' → ∀ visit' : List (CStr × Nat) → List (CStr × Nat),
        (∀ l, (visit' l).Perm l) → ∀ e,
          e ∈ cbmComputeChangeCoupling visit' commits' maxOut ↔
            e ∈ cbmComputeChangeCoupling visit commits maxOut := by
  rw [cbmComputeChangeCoupling_eq hok hvisit hroom]
  refine ⟨couplingExact_found hok hvisit, fun commits' h visit' hvisit' e => ?_⟩
  have hsame : coupledPairs commits' = coupledPairs commits := by
    ext pair
    exact and_congr_right fun _ => (h.coupled_iff pair.1 pair.2).symm
  rw [cbmComputeChangeCoupling_eq (h.ok hok) hvisit' (hsame ▸ hroom), mem_found hok hvisit,
    mem_found (h.ok hok) hvisit']
  simp only [h.coupled_iff, h.isLast_iff, h.entryOf_eq]

end Orders

end Counts

def threeCommits : List CommitFiles :=
  [1, 3, 2].map fun timestamp =>
    { files := [bytesOf "a.c", bytesOf "b.c"]
      timestamp := timestamp }

theorem coupling_exact_three :
    CouplingExact threeCommits (cbmComputeChangeCoupling id threeCommits 1) ∧
      ∀ commits', Rearranged threeCommits commits' →
        ∀ visit' : List (CStr × Nat) → List (CStr × Nat), (∀ l, (visit' l).Perm l) → ∀ e,
          e ∈ cbmComputeChangeCoupling visit' commits' 1 ↔
            e ∈ cbmComputeChangeCoupling id threeCommits 1 := by
  refine coupling_exact (fun c hc => ?_) (fun l => List.Perm.refl l) ?_
  · obtain ⟨timestamp, -, rfl⟩ := List.mem_map.mp hc
    have hnodup : [bytesOf "a.c", bytesOf "b.c"].Nodup := by decide
    have hshort : ∀ f ∈ [bytesOf "a.c", bytesOf "b.c"], f.length < 512 := by decide
    have hclean : ∀ f ∈ [bytesOf "a.c", bytesOf "b.c"], (1 : UInt8) ∉ f := by decide
    exact ⟨hnodup, hshort, hclean⟩
  · refine Set.encard_le_one_iff.mpr ?_
    have hfiles : ∀ {a b}, (a, b) ∈ coupledPairs threeCommits →
        a ∈ [bytesOf "a.c", bytesOf "b.c"] ∧ b ∈ [bytesOf "a.c", bytesOf "b.c"] := by
      rintro a b ⟨-, -, hmany, -⟩
      obtain ⟨c, hc⟩ := List.exists_mem_of_length_pos (Nat.lt_of_lt_of_le (by decide) hmany)
      obtain ⟨hcounted, hin⟩ := List.mem_filter.mp hc
      obtain ⟨timestamp, -, rfl⟩ := List.mem_map.mp (List.mem_filter.mp hcounted).1
      exact of_decide_eq_true hin
    rintro ⟨a, b⟩ ⟨c, d⟩ hab hcd
    obtain ⟨ha, hb⟩ := hfiles hab
    obtain ⟨hc, hd⟩ := hfiles hcd
    have hlt := hab.1
    have hlt' := hcd.1
    simp only [List.mem_cons, List.not_mem_nil, or_false] at ha hb hc hd
    rcases ha with rfl | rfl <;> rcases hb with rfl | rfl <;>
      rcases hc with rfl | rfl <;> rcases hd with rfl | rfl <;> first
      | rfl
      | exact absurd hlt (by decide)
      | exact absurd hlt' (by decide)

end Pipeline
end CodebaseMemory
