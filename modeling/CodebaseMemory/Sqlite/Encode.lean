import CodebaseMemory.Sqlite.RecordFormat
import Mathlib.Algebra.Order.Ring.Int

/-!
# Lists of values as records

`rec_add_null`, `rec_add_int`, `rec_add_text`, `rec_add_blob` and
`rec_finalize`, this time with the capacities of the two buffers of the builder.
`dynbuf_ensure` doubles an `int` until it is large enough; past `2 ^ 30` the
doubling overflows and the loop goes on forever.
-/

namespace CodebaseMemory
namespace Sqlite

open Lib

def recAdd (r : RecordBuilder) : Value → RecordBuilder
  | .null => recAddNull r
  | .int i => recAddInt r i
  | .text bytes => recAddText r (some bytes)
  | .blob bytes => recAddBlob r (some bytes) bytes.length

def recAdds (vs : List Value) : RecordBuilder :=
  vs.foldl recAdd recInit

def Value.serialType : Value → Int
  | .null => 0
  | .int i => intSerialType i
  | .text bytes => textSerialType bytes.length
  | .blob bytes => if bytes.length > 0 then bytes.length * 2 + 12 else 0

/-- The bytes of a value in the body. -/
def Value.stored : Value → List UInt8
  | .null => []
  | .int i => putIntBe i (intStorageBytes (intSerialType i))
  | .text bytes => bytes
  | .blob bytes => bytes

/-- The values a column can have: an `int64_t`, a text whose length is an `int`
twice over, a blob that is not empty. -/
def Value.Valid : Value → Prop
  | .null => True
  | .int i => -2 ^ 63 ≤ i ∧ i < 2 ^ 63
  | .text bytes => bytes.length < 2 ^ 30
  | .blob bytes => bytes ≠ []

theorem header_recAdd (r : RecordBuilder) (v : Value) :
    (recAdd r v).header = r.header ++ putVarint v.serialType := by
  cases v with
  | null => rfl
  | int i => rfl
  | text bytes => rfl
  | blob bytes => rfl

theorem body_recAdd (r : RecordBuilder) (v : Value) :
    (recAdd r v).body = r.body ++ v.stored := by
  cases v with
  | null => exact (List.append_nil _).symm
  | int i => rfl
  | text bytes => rfl
  | blob bytes =>
      change r.body ++ bytes.take bytes.length = r.body ++ bytes
      rw [List.take_length]

theorem header_foldl (vs : List Value) (r : RecordBuilder) :
    (vs.foldl recAdd r).header = r.header ++ vs.flatMap fun v => putVarint v.serialType := by
  induction vs generalizing r with
  | nil => simp
  | cons v vs ih => rw [List.foldl_cons, ih, header_recAdd, List.flatMap_cons, List.append_assoc]

theorem body_foldl (vs : List Value) (r : RecordBuilder) :
    (vs.foldl recAdd r).body = r.body ++ vs.flatMap Value.stored := by
  induction vs generalizing r with
  | nil => simp
  | cons v vs ih => rw [List.foldl_cons, ih, body_recAdd, List.flatMap_cons, List.append_assoc]

theorem header_recAdds (vs : List Value) :
    (recAdds vs).header = vs.flatMap fun v => putVarint v.serialType :=
  header_foldl vs recInit

theorem body_recAdds (vs : List Value) : (recAdds vs).body = vs.flatMap Value.stored :=
  body_foldl vs recInit

/-- The doubling loop of `dynbuf_ensure`; `none` when the fuel runs out. -/
def growCap : Nat → Int → Int → Option Int
  | 0, _, _ => none
  | fuel + 1, newcap, needed =>
      if newcap < needed then growCap fuel (toI32 (newcap * 2)) needed else some newcap

/-- `dynbuf_append` of `added` bytes to a buffer with `len` bytes: its capacity
afterwards. -/
def dynbufAppend (cap : Int) (len added : Nat) : Option Int :=
  if added = 0 then some cap
  else if (len + added : Int) ≤ cap then some cap
  else growCap 32 (if cap = 0 then 4096 else cap) (len + added)

/-- A builder with the capacities of its buffers. -/
structure SizedBuilder where
  record : RecordBuilder
  headerCap : Int
  bodyCap : Int

/-- `rec_init`. -/
def SizedBuilder.init : SizedBuilder :=
  { record := recInit, headerCap := 0, bodyCap := 0 }

/-- A call that adds a value; `none` when it does not return. -/
def addValue (b : SizedBuilder) (v : Value) : Option SizedBuilder := do
  let record := recAdd b.record v
  let headerCap ← dynbufAppend b.headerCap b.record.header.length
    (record.header.length - b.record.header.length)
  let bodyCap ← dynbufAppend b.bodyCap b.record.body.length
    (record.body.length - b.record.body.length)
  return { record, headerCap, bodyCap }

def addValues (vs : List Value) : Option SizedBuilder :=
  vs.foldlM addValue SizedBuilder.init

/-- `total_header` in `rec_finalize`. -/
def totalHeader (r : RecordBuilder) : Nat :=
  let contentLen := r.header.length
  let guess := varintLen (contentLen + varintLen contentLen)
  let recalc := varintLen (guess + contentLen)
  if recalc ≠ guess then recalc + contentLen else guess + contentLen

/-- The number of bytes `rec_finalize` allocates. -/
def recAllocated (r : RecordBuilder) : Nat :=
  totalHeader r + r.body.length

/-- The record of a list of values, and the size of the block it is written to. -/
def encodeRecord (vs : List Value) : Option (List UInt8 × Nat) :=
  (addValues vs).map fun b => (recFinalize b.record, recAllocated b.record)

/-- The capacity of a buffer with `len` bytes. -/
def CapOk (cap : Int) (len : Nat) : Prop :=
  (cap = 0 ∧ len = 0) ∨ ∃ k, k ≤ 18 ∧ cap = 4096 * 2 ^ k ∧ (len : Int) ≤ cap

theorem two_pow_le {k : Nat} (hk : k ≤ 18) : (2 : Int) ^ k ≤ 2 ^ 18 :=
  pow_le_pow_right₀ (by norm_num) hk

theorem two_pow_pos (k : Nat) : (0 : Int) < 2 ^ k :=
  Int.pow_pos (by norm_num)

theorem toI32_double {k : Nat} (hk : k < 18) :
    toI32 (4096 * 2 ^ k * 2) = 4096 * 2 ^ (k + 1) := by
  have hle := two_pow_le (k := k + 1) hk
  have hpos := two_pow_pos (k + 1)
  rw [show (4096 * 2 ^ k * 2 : Int) = 4096 * 2 ^ (k + 1) by ring, toI32]
  omega

theorem growCap_zero (fuel : Nat) {needed : Int} (h : 0 < needed) :
    growCap fuel 0 needed = none := by
  induction fuel with
  | zero => rfl
  | succ fuel ih =>
      rw [growCap, if_pos h]
      exact ih

theorem growCap_none (d : Nat) :
    ∀ (fuel k : Nat), k + d = 18 → ∀ {needed : Int}, 2 ^ 30 < needed →
      growCap fuel (4096 * 2 ^ k) needed = none := by
  induction d with
  | zero =>
      rintro fuel k rfl needed hneeded
      cases fuel with
      | zero => rfl
      | succ fuel =>
          rw [growCap, if_pos (by norm_num; omega)]
          -- `2 ^ 31` wraps to the least `int`, whose double is 0
          cases fuel with
          | zero => rfl
          | succ fuel =>
              rw [growCap, if_pos (by norm_num [toI32]; omega)]
              exact growCap_zero fuel (by omega)
  | succ d ih =>
      intro fuel k hk needed hneeded
      cases fuel with
      | zero => rfl
      | succ fuel =>
          have hle := two_pow_le (k := k) (by omega)
          rw [growCap, if_pos (by omega), toI32_double (by omega)]
          exact ih fuel (k + 1) (by omega) hneeded

theorem growCap_some (d : Nat) :
    ∀ (fuel k : Nat), k + d = 18 → d < fuel → ∀ {needed : Int}, needed ≤ 2 ^ 30 →
      ∃ k', k' ≤ 18 ∧ growCap fuel (4096 * 2 ^ k) needed = some (4096 * 2 ^ k') ∧
        needed ≤ 4096 * 2 ^ k' := by
  induction d with
  | zero =>
      rintro fuel k rfl hfuel needed hneeded
      obtain ⟨fuel, rfl⟩ : ∃ n, fuel = n + 1 := ⟨fuel - 1, by omega⟩
      refine ⟨18, le_refl _, ?_, by norm_num; omega⟩
      rw [growCap, if_neg (by norm_num; omega)]
  | succ d ih =>
      intro fuel k hk hfuel needed hneeded
      obtain ⟨fuel, rfl⟩ : ∃ n, fuel = n + 1 := ⟨fuel - 1, by omega⟩
      by_cases hlt : (4096 * 2 ^ k : Int) < needed
      · rw [growCap, if_pos hlt, toI32_double (by omega)]
        exact ih fuel (k + 1) (by omega) (by omega) hneeded
      · refine ⟨k, by omega, ?_, by omega⟩
        rw [growCap, if_neg hlt]

theorem CapOk.le {cap : Int} {len : Nat} (h : CapOk cap len) : len ≤ 2 ^ 30 := by
  rcases h with ⟨_, rfl⟩ | ⟨k, hk, rfl, hle⟩
  · exact Nat.zero_le _
  · have hpow := two_pow_le hk
    omega

theorem dynbufAppend_spec {cap : Int} {len : Nat} (h : CapOk cap len) (added : Nat) :
    if len + added ≤ 2 ^ 30 then
      ∃ cap', dynbufAppend cap len added = some cap' ∧ CapOk cap' (len + added)
    else dynbufAppend cap len added = none := by
  have hlen := h.le
  by_cases hzero : added = 0
  · subst hzero
    rw [if_pos (by omega)]
    exact ⟨cap, if_pos rfl, h⟩
  obtain ⟨k, hk, hstart⟩ : ∃ k, k ≤ 18 ∧ (if cap = 0 then 4096 else cap) = 4096 * 2 ^ k := by
    rcases h with ⟨rfl, _⟩ | ⟨k, hk, rfl, _⟩
    · exact ⟨0, by omega, rfl⟩
    · have hpos := two_pow_pos k
      exact ⟨k, hk, if_neg (by omega)⟩
  split
  · next hfits =>
      by_cases hroom : (len + added : Int) ≤ cap
      · refine ⟨cap, by rw [dynbufAppend, if_neg hzero, if_pos hroom], ?_⟩
        rcases h with ⟨rfl, rfl⟩ | ⟨k, hk, hcap, _⟩
        · omega
        · exact Or.inr ⟨k, hk, hcap, by push_cast; exact hroom⟩
      · obtain ⟨k', hk', hgrown, hroom'⟩ := growCap_some (18 - k) 32 k (by omega) (by omega)
          (show (len + added : Int) ≤ 2 ^ 30 by omega)
        refine ⟨4096 * 2 ^ k', ?_, Or.inr ⟨k', hk', rfl, by push_cast; exact hroom'⟩⟩
        rw [dynbufAppend, if_neg hzero, if_neg hroom, hstart, hgrown]
  · next hfull =>
      have hroom : ¬ (len + added : Int) ≤ cap := by
        rcases h with ⟨rfl, rfl⟩ | ⟨k, hk, rfl, _⟩
        · omega
        · have hpow := two_pow_le hk
          omega
      rw [dynbufAppend, if_neg hzero, if_neg hroom, hstart]
      exact growCap_none (18 - k) 32 k (by omega) (by omega)

/-- Both buffers have room for their bytes. -/
def SizedBuilder.Ok (b : SizedBuilder) : Prop :=
  CapOk b.headerCap b.record.header.length ∧ CapOk b.bodyCap b.record.body.length

/-- The buffers of a builder can hold their bytes. -/
def RecordBuilder.Fits (r : RecordBuilder) : Prop :=
  r.header.length ≤ 2 ^ 30 ∧ r.body.length ≤ 2 ^ 30

theorem length_header_recAdd (r : RecordBuilder) (v : Value) :
    r.header.length + ((recAdd r v).header.length - r.header.length) =
      (recAdd r v).header.length := by
  rw [header_recAdd, List.length_append]
  omega

theorem length_body_recAdd (r : RecordBuilder) (v : Value) :
    r.body.length + ((recAdd r v).body.length - r.body.length) = (recAdd r v).body.length := by
  rw [body_recAdd, List.length_append]
  omega

theorem addValue_spec {b : SizedBuilder} (h : b.Ok) (v : Value) :
    (RecordBuilder.Fits (recAdd b.record v) →
      ∃ b', addValue b v = some b' ∧ b'.record = recAdd b.record v ∧ b'.Ok) ∧
      (¬ RecordBuilder.Fits (recAdd b.record v) → addValue b v = none) := by
  have hheader := dynbufAppend_spec h.1
    ((recAdd b.record v).header.length - b.record.header.length)
  have hbody := dynbufAppend_spec h.2 ((recAdd b.record v).body.length - b.record.body.length)
  rw [length_header_recAdd] at hheader
  rw [length_body_recAdd] at hbody
  constructor
  · rintro ⟨hfitsHeader, hfitsBody⟩
    rw [if_pos hfitsHeader] at hheader
    rw [if_pos hfitsBody] at hbody
    obtain ⟨headerCap, hgrown, hcap⟩ := hheader
    obtain ⟨bodyCap, hgrown', hcap'⟩ := hbody
    refine ⟨⟨recAdd b.record v, headerCap, bodyCap⟩, ?_, rfl, hcap, hcap'⟩
    simp only [addValue, hgrown, hgrown', Option.bind_eq_bind, Option.bind_some, Option.pure_def]
  · intro hfull
    by_cases hfitsHeader : (recAdd b.record v).header.length ≤ 2 ^ 30
    · rw [if_neg fun hfitsBody => hfull ⟨hfitsHeader, hfitsBody⟩] at hbody
      rw [if_pos hfitsHeader] at hheader
      obtain ⟨headerCap, hgrown, _⟩ := hheader
      simp only [addValue, hgrown, hbody, Option.bind_eq_bind, Option.bind_some, Option.bind_none]
    · rw [if_neg hfitsHeader] at hheader
      simp only [addValue, hheader, Option.bind_eq_bind, Option.bind_none]

theorem RecordBuilder.Fits.of_foldl (vs : List Value) {r : RecordBuilder}
    (h : RecordBuilder.Fits (vs.foldl recAdd r)) : RecordBuilder.Fits r := by
  obtain ⟨hheader, hbody⟩ := h
  rw [header_foldl, List.length_append] at hheader
  rw [body_foldl, List.length_append] at hbody
  exact ⟨by omega, by omega⟩

theorem foldlM_addValue (vs : List Value) :
    ∀ b : SizedBuilder, b.Ok →
      (RecordBuilder.Fits (vs.foldl recAdd b.record) →
        ∃ b', vs.foldlM addValue b = some b' ∧ b'.record = vs.foldl recAdd b.record) ∧
        (¬ RecordBuilder.Fits (vs.foldl recAdd b.record) → RecordBuilder.Fits b.record →
          vs.foldlM addValue b = none) := by
  induction vs with
  | nil =>
      intro b _
      exact ⟨fun _ => ⟨b, rfl, rfl⟩, fun hfull hfits => absurd hfits hfull⟩
  | cons v vs ih =>
      intro b hb
      obtain ⟨hreturns, hloops⟩ := addValue_spec hb v
      rw [List.foldl_cons, List.foldlM_cons]
      constructor
      · intro hfits
        obtain ⟨b', hadd, hrecord, hok⟩ := hreturns (RecordBuilder.Fits.of_foldl vs hfits)
        rw [hadd]
        rw [← hrecord] at hfits ⊢
        exact (ih b' hok).1 hfits
      · intro hfull _
        by_cases hone : RecordBuilder.Fits (recAdd b.record v)
        · obtain ⟨b', hadd, hrecord, hok⟩ := hreturns hone
          rw [hadd]
          rw [← hrecord] at hfull hone
          exact (ih b' hok).2 hfull hone
        · rw [hloops hone]
          rfl

theorem addValues_spec (vs : List Value) :
    (RecordBuilder.Fits (recAdds vs) → ∃ b, addValues vs = some b ∧ b.record = recAdds vs) ∧
      (¬ RecordBuilder.Fits (recAdds vs) → addValues vs = none) := by
  have hinit : SizedBuilder.init.Ok := ⟨Or.inl ⟨rfl, rfl⟩, Or.inl ⟨rfl, rfl⟩⟩
  obtain ⟨hreturns, hloops⟩ := foldlM_addValue vs SizedBuilder.init hinit
  exact ⟨hreturns, fun hfull => hloops hfull ⟨Nat.zero_le _, Nat.zero_le _⟩⟩

theorem encodeRecord_of_fits {vs : List Value} (h : RecordBuilder.Fits (recAdds vs)) :
    encodeRecord vs = some (recFinalize (recAdds vs), recAllocated (recAdds vs)) := by
  obtain ⟨b, hadd, hrecord⟩ := (addValues_spec vs).1 h
  rw [encodeRecord, hadd, Option.map_some, hrecord]

theorem encodeRecord_of_not_fits {vs : List Value} (h : ¬ RecordBuilder.Fits (recAdds vs)) :
    encodeRecord vs = none := by
  rw [encodeRecord, (addValues_spec vs).2 h]
  rfl

/-- The length of a varint below `2 ^ 35`. -/
def groupCount (n : Nat) : Nat :=
  if n < 128 then 1
  else if n < 16384 then 2
  else if n < 2097152 then 3
  else if n < 268435456 then 4
  else 5

theorem varintLen_eq {n : Nat} (h : n < 2 ^ 35) : varintLen n = groupCount n := by
  have hcast : toU64 (n : Int) = n := by
    rw [toU64_of_nonneg (by omega) (by omega)]
    exact Int.toNat_natCast n
  simp only [varintLen, hcast, varintLenLoop, groupCount]
  split_ifs <;> omega

theorem groupCount_spec (n : Nat) :
    (groupCount n = 1 ∧ n < 128) ∨ (groupCount n = 2 ∧ 128 ≤ n ∧ n < 16384) ∨
      (groupCount n = 3 ∧ 16384 ≤ n ∧ n < 2097152) ∨
      (groupCount n = 4 ∧ 2097152 ≤ n ∧ n < 268435456) ∨
      (groupCount n = 5 ∧ 268435456 ≤ n) := by
  rw [groupCount]
  split_ifs <;> omega

theorem groupCount_fixed (c : Nat) :
    groupCount (groupCount (c + groupCount c) + c) = groupCount (c + groupCount c) := by
  have hcontent := groupCount_spec c
  have hguess := groupCount_spec (c + groupCount c)
  have hrecalc := groupCount_spec (groupCount (c + groupCount c) + c)
  omega

theorem totalHeader_eq {r : RecordBuilder} (h : r.header.length < 2 ^ 31) :
    totalHeader r = (putVarint (totalHeader r)).length + r.header.length := by
  have hle := groupCount_spec r.header.length
  have hle' := groupCount_spec (r.header.length + groupCount r.header.length)
  have hguess : varintLen ((r.header.length : Int) + varintLen r.header.length) =
      groupCount (r.header.length + groupCount r.header.length) := by
    rw [varintLen_eq (n := r.header.length) (by omega), ← Nat.cast_add, varintLen_eq (by omega)]
  have htotal : totalHeader r =
      groupCount (r.header.length + groupCount r.header.length) + r.header.length := by
    simp only [totalHeader]
    rw [hguess, ← Nat.cast_add, varintLen_eq (by omega), groupCount_fixed]
    exact if_neg fun hne => hne rfl
  rw [length_putVarint, htotal, varintLen_eq (by omega), groupCount_fixed]

theorem recFinalize_eq (r : RecordBuilder) :
    recFinalize r = putVarint (totalHeader r) ++ r.header ++ r.body := by
  simp only [recFinalize, totalHeader]

theorem length_recFinalize {r : RecordBuilder} (h : r.header.length < 2 ^ 31) :
    (recFinalize r).length = recAllocated r := by
  have htotal := totalHeader_eq h
  rw [recFinalize_eq, List.length_append, List.length_append, recAllocated]
  omega

end Sqlite
end CodebaseMemory
