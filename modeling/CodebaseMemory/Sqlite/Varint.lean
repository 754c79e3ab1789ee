import CodebaseMemory.Lib.Memory

/-!
# Varints (`internal/cbm/sqlite_writer.c`)

The writer's `put_varint` and `varint_len`, and `get_varint`, the reader of
the same file, which follows the SQLite format: at most nine bytes, seven
value bits in each of the first eight and eight in the ninth.

`value` is an `int64_t` that the code casts to `uint64_t`; `toU64` is that
cast.  A bit operation on a value is written as the arithmetic it performs:
`v & 0x7f` is `v % 128`, `v >> 7` is `v / 128`, `(v << 7) | b` is
`128 * v + b`, and `b | 0x80` on a group below 128 is `b + 128`.
-/

namespace CodebaseMemory
namespace Sqlite

open Lib

/-- The cast `(uint64_t)value` of an `int64_t`. -/
def toU64 (value : Int) : Nat :=
  (value % 2 ^ 64).toNat

/-- The cast `(int64_t)v` of a `uint64_t`. -/
def toI64 (v : Nat) : Int :=
  if v < 2 ^ 63 then v else (v : Int) - 2 ^ 64

/-- The array `tmp` of `put_varint`: groups of seven bits, least significant
first.  Its size is `VARINT_BUF_SIZE`, so nine rounds of the loop suffice. -/
@[simp] def varintGroups : Nat → Nat → List Nat
  | 0, v => [v]
  | fuel + 1, v =>
      if v > 0x7f then (v % 128) :: varintGroups fuel (v / 128) else [v]

/-- Every group but the last gets the continuation bit. -/
@[simp] def setContinue : List Nat → List UInt8
  | [] => []
  | [b] => [UInt8.ofNat b]
  | b :: bs => UInt8.ofNat (b + 128) :: setContinue bs

/-- `put_varint`: the bytes written; their number is the returned length. -/
def putVarint (value : Int) : List UInt8 :=
  if toU64 value ≤ 0x7f then [UInt8.ofNat (toU64 value)]
  else setContinue (varintGroups 9 (toU64 value)).reverse

/-- The loop of `varint_len`. -/
@[simp] def varintLenLoop : Nat → Nat → Nat
  | 0, _ => 1
  | fuel + 1, v => if v > 0x7f then varintLenLoop fuel (v / 128) + 1 else 1

def varintLen (value : Int) : Nat :=
  varintLenLoop 9 (toU64 value)

/-- The loop of `get_varint` with `n` of its eight rounds left, at byte `i`
and with the bits `v` read so far.  Returns the value and the bytes consumed. -/
@[simp] def getVarintFrom (buf : Memory) : Nat → Nat → Nat → Nat × Nat
  | 0, i, v => (256 * v + (buf i).toNat, i + 1)
  | n + 1, i, v =>
      if (buf i).toNat < 128 then (128 * v + (buf i).toNat % 128, i + 1)
      else getVarintFrom buf n (i + 1) (128 * v + (buf i).toNat % 128)

def getVarint (buf : Memory) : Nat × Nat :=
  getVarintFrom buf 8 0 0

theorem toU64_of_nonneg {value : Int} (h₀ : 0 ≤ value) (h₁ : value < 2 ^ 64) :
    toU64 value = value.toNat := by
  rw [toU64, Int.emod_eq_of_lt h₀ h₁]

theorem toU64_lt (value : Int) : toU64 value < 2 ^ 64 := by
  unfold toU64
  omega

theorem toI64_toU64 {value : Int} (h₀ : -2 ^ 63 ≤ value) (h₁ : value < 2 ^ 63) :
    toI64 (toU64 value) = value := by
  unfold toI64 toU64
  split <;> omega

theorem toI64_injective {a b : Nat} (ha : a < 2 ^ 64) (hb : b < 2 ^ 64)
    (h : toI64 a = toI64 b) : a = b := by
  unfold toI64 at h
  split at h <;> split at h <;> omega

/-- The number that groups of seven bits spell, most significant first. -/
def ofGroups (gs : List Nat) : Nat :=
  gs.foldl (fun v g => 128 * v + g) 0

theorem ofGroups_snoc (gs : List Nat) (g : Nat) :
    ofGroups (gs ++ [g]) = 128 * ofGroups gs + g := by
  simp [ofGroups]

theorem varintGroups_small (fuel : Nat) {v : Nat} (h : v ≤ 0x7f) :
    varintGroups fuel v = [v] := by
  cases fuel with
  | zero => rfl
  | succ fuel => simp [varintGroups, Nat.not_lt.mpr h]

theorem varintGroups_large (fuel : Nat) {v : Nat} (h : 0x7f < v) :
    varintGroups (fuel + 1) v = (v % 128) :: varintGroups fuel (v / 128) := by
  simp [varintGroups, h]

theorem ofGroups_varintGroups (fuel v : Nat) :
    ofGroups (varintGroups fuel v).reverse = v := by
  induction fuel generalizing v with
  | zero => simp [varintGroups, ofGroups]
  | succ fuel ih =>
      by_cases h : v ≤ 0x7f
      · rw [varintGroups_small _ h]
        simp [ofGroups]
      · rw [varintGroups_large _ (by omega), List.reverse_cons, ofGroups_snoc, ih]
        omega

theorem varintGroups_ne_nil (fuel v : Nat) : varintGroups fuel v ≠ [] := by
  cases fuel with
  | zero => simp [varintGroups]
  | succ fuel =>
      unfold varintGroups
      split <;> simp

theorem varintGroups_lt (fuel : Nat) {v : Nat} (h : v < 128 ^ (fuel + 1)) :
    ∀ g, g ∈ varintGroups fuel v → g < 128 := by
  induction fuel generalizing v with
  | zero =>
      intro g hg
      simp only [varintGroups, List.mem_singleton] at hg
      subst hg
      simpa using h
  | succ fuel ih =>
      intro g hg
      by_cases hv : v ≤ 0x7f
      · rw [varintGroups_small _ hv, List.mem_singleton] at hg
        omega
      · rw [varintGroups_large _ (by omega), List.mem_cons] at hg
        have hdiv : v / 128 < 128 ^ (fuel + 1) := by
          rw [Nat.pow_succ] at h
          exact Nat.div_lt_of_lt_mul (by omega)
        rcases hg with rfl | hg
        · exact Nat.mod_lt _ (by omega)
        · exact ih hdiv g hg

theorem length_varintGroups_le {k : Nat} (hk : 0 < k) :
    ∀ (fuel : Nat) {v : Nat}, v < 128 ^ k → (varintGroups fuel v).length ≤ k := by
  induction k with
  | zero => omega
  | succ k ih =>
      intro fuel v hv
      by_cases hs : v ≤ 0x7f
      · rw [varintGroups_small _ hs]
        simp
      · cases fuel with
        | zero => simp [varintGroups]
        | succ fuel =>
            rw [varintGroups_large _ (by omega), List.length_cons]
            have hk0 : 0 < k := by
              rcases Nat.eq_zero_or_pos k with rfl | h
              · simp at hv
                omega
              · exact h
            have hdiv : v / 128 < 128 ^ k := by
              rw [Nat.pow_succ] at hv
              exact Nat.div_lt_of_lt_mul (by omega)
            have := ih hk0 fuel hdiv
            omega

theorem length_varintGroups (fuel v : Nat) :
    (varintGroups fuel v).length = varintLenLoop fuel v := by
  induction fuel generalizing v with
  | zero => rfl
  | succ fuel ih =>
      unfold varintGroups varintLenLoop
      split
      · simp [ih]
      · rfl

theorem setContinue_snoc (gs : List Nat) (g : Nat) :
    setContinue (gs ++ [g]) =
      gs.map (fun a => UInt8.ofNat (a + 128)) ++ [UInt8.ofNat g] := by
  induction gs with
  | nil => rfl
  | cons a gs ih =>
      cases gs with
      | nil => rfl
      | cons b gs =>
          simp only [List.cons_append, setContinue, List.map_cons] at ih ⊢
          rw [ih]

@[simp] theorem length_setContinue (gs : List Nat) :
    (setContinue gs).length = gs.length := by
  rcases List.eq_nil_or_concat gs with rfl | ⟨as, a, rfl⟩
  · rfl
  · rw [List.concat_eq_append, setContinue_snoc]
    simp

theorem putVarint_eq (value : Int) :
    putVarint value = setContinue (varintGroups 9 (toU64 value)).reverse := by
  unfold putVarint
  split
  · next h =>
      rw [varintGroups_small 9 h]
      rfl
  · rfl

theorem length_putVarint (value : Int) : (putVarint value).length = varintLen value := by
  rw [putVarint_eq, length_setContinue, List.length_reverse, length_varintGroups, varintLen]

theorem length_putVarint_pos (value : Int) : 0 < (putVarint value).length := by
  rw [putVarint_eq, length_setContinue, List.length_reverse]
  exact List.length_pos_iff.mpr (varintGroups_ne_nil _ _)

theorem length_putVarint_le {k : Nat} (hk : 0 < k) {value : Int}
    (h : toU64 value < 128 ^ k) : (putVarint value).length ≤ k := by
  rw [putVarint_eq, length_setContinue, List.length_reverse]
  exact length_varintGroups_le hk 9 h

theorem length_putVarint_le_ten (value : Int) : (putVarint value).length ≤ 10 := by
  have := toU64_lt value
  exact length_putVarint_le (by omega) (by omega)

theorem toNat_group {g : Nat} (h : g < 128) : (UInt8.ofNat (g + 128)).toNat = g + 128 := by
  simp
  omega

theorem getVarintFrom_groups (buf : Memory) (gs : List Nat) :
    ∀ (n i v : Nat), (∀ g, g ∈ gs → g < 128) →
      buf.Holds i (gs.map (fun a => UInt8.ofNat (a + 128))) →
      getVarintFrom buf (n + gs.length) i v =
        getVarintFrom buf n (i + gs.length) (gs.foldl (fun v g => 128 * v + g) v) := by
  induction gs with
  | nil => simp
  | cons g gs ih =>
      intro n i v hlt hh
      have hg : g < 128 := hlt g (by simp)
      have hb : (buf i).toNat = g + 128 := by
        have := hh.apply (i := 0) (by simp)
        simp only [Nat.add_zero, List.map_cons, List.getElem_cons_zero] at this
        rw [this, toNat_group hg]
      have hrest : buf.Holds (i + 1) (gs.map (fun a => UInt8.ofNat (a + 128))) :=
        (show buf.Holds i ([UInt8.ofNat (g + 128)] ++ _) from hh).right
      have hstep : getVarintFrom buf (n + gs.length + 1) i v =
          getVarintFrom buf (n + gs.length) (i + 1) (128 * v + g) := by
        rw [getVarintFrom, hb, if_neg (by omega)]
        congr 2
        omega
      rw [List.length_cons, ← Nat.add_assoc, hstep,
        ih n (i + 1) _ (fun a ha => hlt a (List.mem_cons_of_mem _ ha)) hrest]
      simp only [List.foldl_cons]
      congr 1
      omega

theorem getVarint_groups (buf : Memory) (gs : List Nat) (g : Nat)
    (hlt : ∀ a, a ∈ gs → a < 128) (hg : g < 128) (hlen : gs.length < 8)
    (hh : buf.Holds 0 (setContinue (gs ++ [g]))) :
    getVarint buf = (ofGroups (gs ++ [g]), gs.length + 1) := by
  rw [setContinue_snoc] at hh
  have hlast : (buf gs.length).toNat = g := by
    have := hh.right.apply (i := 0) (by simp)
    simp only [List.length_map, Nat.zero_add, Nat.add_zero, List.getElem_cons_zero] at this
    rw [this]
    simp
    omega
  obtain ⟨n, hn⟩ : ∃ n, 8 = (n + 1) + gs.length := ⟨7 - gs.length, by omega⟩
  rw [getVarint, hn, getVarintFrom_groups buf gs _ _ _ hlt hh.left, Nat.zero_add,
    getVarintFrom, hlast, if_pos hg, ofGroups_snoc, Nat.mod_eq_of_lt hg]
  rfl

theorem getVarint_nine (buf : Memory) (gs : List Nat) (b : UInt8)
    (hlt : ∀ a, a ∈ gs → a < 128) (hlen : gs.length = 8)
    (hh : buf.Holds 0 (gs.map (fun a => UInt8.ofNat (a + 128)) ++ [b])) :
    getVarint buf = (256 * ofGroups gs + b.toNat, 9) := by
  have hlast : buf 8 = b := by
    have := hh.right.apply (i := 0) (by simp)
    simpa [hlen] using this
  have hstep := getVarintFrom_groups buf gs 0 0 0 hlt hh.left
  rw [hlen] at hstep
  rw [getVarint, hstep, getVarintFrom, Nat.zero_add, hlast]
  rfl

theorem exists_groups_snoc (v : Nat) (hv : v < 2 ^ 64) :
    ∃ gs, (varintGroups 9 v).reverse = gs ++ [v % 128] ∧ ofGroups gs = v / 128 ∧
      (∀ a, a ∈ gs → a < 128) := by
  have hlt := varintGroups_lt 9 (v := v) (by omega)
  by_cases h : v ≤ 0x7f
  · refine ⟨[], ?_, ?_, by simp⟩
    · rw [varintGroups_small _ h, Nat.mod_eq_of_lt (by omega)]
      rfl
    · rw [Nat.div_eq_of_lt (by omega)]
      rfl
  · rw [varintGroups_large 8 (by omega)] at hlt ⊢
    refine ⟨(varintGroups 8 (v / 128)).reverse, by simp, ofGroups_varintGroups _ _, ?_⟩
    intro a ha
    exact hlt a (List.mem_cons_of_mem _ (List.mem_reverse.mp ha))

theorem getVarint_putVarint {buf : Memory} {off : Nat} {value : Int}
    (hv : toU64 value < 2 ^ 56) (hh : buf.Holds off (putVarint value)) :
    getVarint (buf.shift off) = (toU64 value, (putVarint value).length) := by
  obtain ⟨gs, hgs, hval, hlt⟩ := exists_groups_snoc (toU64 value) (toU64_lt value)
  have hlen : (putVarint value).length = gs.length + 1 := by
    rw [putVarint_eq, hgs, length_setContinue]
    simp
  have h8 := length_putVarint_le (by omega) (show toU64 value < 128 ^ 8 by omega)
  rw [putVarint_eq, hgs] at hh
  rw [getVarint_groups (buf.shift off) gs _ hlt (Nat.mod_lt _ (by omega)) (by omega)
    ((Memory.holds_shift _ _ _ _).mpr hh), ofGroups_snoc, hval, hlen]
  congr 1
  omega

theorem lt_length_varintGroups {k fuel v : Nat} (hk : k ≤ fuel) (hv : 128 ^ k ≤ v) :
    k < (varintGroups fuel v).length := by
  induction k generalizing fuel v with
  | zero => exact List.length_pos_iff.mpr (varintGroups_ne_nil _ _)
  | succ k ih =>
      obtain ⟨fuel, rfl⟩ : ∃ f, fuel = f + 1 := ⟨fuel - 1, by omega⟩
      have hpow : 128 ^ k * 128 ≤ v := by rwa [← Nat.pow_succ]
      have hpos : 0 < 128 ^ k := Nat.pow_pos (by omega)
      have hdiv : 128 ^ k ≤ v / 128 := (Nat.le_div_iff_mul_le (by omega)).mpr hpow
      rw [varintGroups_large _ (by omega), List.length_cons]
      exact Nat.succ_lt_succ (ih (by omega) hdiv)

theorem varintGroups_eight (fuel : Nat) {v : Nat} (hf : 7 ≤ fuel) (h₀ : 128 ^ 7 ≤ v)
    (h₁ : v < 128 ^ 8) :
    (varintGroups fuel v).reverse.length = 8 ∧
      ∀ a, a ∈ (varintGroups fuel v).reverse → a < 128 := by
  have hlo := lt_length_varintGroups hf h₀
  have hhi := length_varintGroups_le (k := 8) (by omega) fuel h₁
  refine ⟨by rw [List.length_reverse]; omega, fun a ha => ?_⟩
  have hpow : (128 : Nat) ^ 8 ≤ 128 ^ (fuel + 1) := Nat.pow_le_pow_right (by omega) (by omega)
  exact varintGroups_lt fuel (by omega) a (List.mem_reverse.mp ha)

theorem getVarint_putVarint_ne {buf : Memory} {off : Nat} {value : Int}
    (hv : 2 ^ 56 ≤ toU64 value) (hh : buf.Holds off (putVarint value)) :
    (getVarint (buf.shift off)).1 ≠ toU64 value ∧
      (getVarint (buf.shift off)).1 < 2 ^ 64 := by
  have hu := toU64_lt value
  have hsh := (Memory.holds_shift buf off 0 (putVarint value)).mpr hh
  rw [putVarint_eq, varintGroups_large 8 (by omega), List.reverse_cons,
    setContinue_snoc] at hsh
  by_cases h63 : toU64 value < 2 ^ 63
  · -- nine groups: the ninth byte has seven bits where the format has eight
    obtain ⟨hlen, hlt⟩ := varintGroups_eight 8 (v := toU64 value / 128)
      (by omega) (by omega) (by omega)
    rw [getVarint_nine _ _ _ hlt hlen hsh, ofGroups_varintGroups]
    simp only [UInt8.toNat_ofNat']
    omega
  · -- ten groups: the reader stops before the last one
    obtain ⟨hlen, hlt⟩ := varintGroups_eight 7 (v := toU64 value / 128 / 128)
      (by omega) (by omega) (by omega)
    rw [varintGroups_large 7 (by omega), List.reverse_cons, List.map_append,
      List.map_cons, List.map_nil] at hsh
    rw [getVarint_nine _ _ _ hlt hlen hsh.left, ofGroups_varintGroups]
    simp only [UInt8.toNat_ofNat']
    omega

theorem toU64_natCast {n : Nat} (h : n < 2 ^ 31) : toU64 (n : Int) = n := by
  rw [toU64_of_nonneg (by omega) (by omega)]
  simp

theorem getVarint_length {mem : Memory} {n off : Nat} (hn : n < 2 ^ 31)
    (h : mem.Holds off (putVarint (n : Int))) :
    getVarint (mem.shift off) = (n, (putVarint (n : Int)).length) := by
  have hu := toU64_natCast hn
  rw [getVarint_putVarint (by omega) h, hu]

theorem length_putVarint_le_five {n : Nat} (hn : n < 2 ^ 31) :
    (putVarint (n : Int)).length ≤ 5 := by
  have hu := toU64_natCast hn
  exact length_putVarint_le (by omega) (by omega)

/-- `varint_len` tells the number of the bytes, they are at most nine
(`VARINT_MAX_BYTES`), and whatever follows them, they are read back as the
unsigned value, all of them and no more. -/
structure VarintRoundTrips (value : Int) : Prop where
  length : (putVarint value).length = varintLen value
  atMost : varintLen value ≤ 9
  back : ∀ buf : Memory, buf.Holds 0 (putVarint value) →
    getVarint buf = (toU64 value, varintLen value)

/-- Exactly the values below `2 ^ 56` are read back from at most nine bytes. -/
theorem varintRoundTrips_iff (value : Int) :
    VarintRoundTrips value ↔ toU64 value < 2 ^ 56 := by
  constructor
  · intro h
    by_contra hge
    have hholds := Memory.holds_memcpy Memory.zero 0 (putVarint value)
    have hread := h.back _ hholds
    rw [← Memory.shift_zero (Memory.zero.memcpy 0 (putVarint value))] at hread
    exact (getVarint_putVarint_ne (Nat.le_of_not_lt hge) hholds).1 (congrArg Prod.fst hread)
  · intro hlt
    refine ⟨length_putVarint value, ?_, fun buf hbuf => ?_⟩
    · rw [← length_putVarint]
      have hle := @length_putVarint_le 8 (by omega) value (by omega)
      omega
    · rw [← length_putVarint, ← buf.shift_zero]
      exact getVarint_putVarint hlt hbuf

/-- Nine groups of seven bits are read as eight groups and a byte of eight bits. -/
theorem not_varintRoundTrips : ¬ VarintRoundTrips (2 ^ 56) := by
  intro h
  have hread := h.back _ (Memory.holds_memcpy Memory.zero 0 (putVarint (2 ^ 56)))
  have hvalue : (getVarint (Memory.zero.memcpy 0 (putVarint (2 ^ 56)))).1 = 2 ^ 57 := by decide
  rw [hread] at hvalue
  exact absurd hvalue (by decide)

end Sqlite
end CodebaseMemory
