import CodebaseMemory.Sqlite.Encode

/-!
# Reading a record back

Three kinds of columns are not read back:
* an integer outside of 48 bits.  `int_serial_type` returns the *size* 8 as its
  type, which is the type of the integer 0, and nothing is stored;
* a text of `2 ^ 30 - 6` bytes or more.  `text_serial_type` overflows;
* columns whose types or values take more than `2 ^ 30` bytes together: the
  buffer cannot grow that far.
-/

namespace CodebaseMemory
namespace Sqlite

open Lib

theorem decodeRecord_recFinalize {r : RecordBuilder} (h : r.header.length < 2 ^ 31) :
    decodeRecord (recFinalize r) =
      (readTypes r.header.length r.header).bind fun types => readValues types r.body := by
  have htotal := totalHeader_eq h
  have hpos := length_putVarint_le_five (n := r.header.length) h
  have hlength : (recFinalize r).length =
      (putVarint (totalHeader r)).length + (r.header.length + r.body.length) := by
    rw [recFinalize_eq, List.length_append, List.length_append, Nat.add_assoc]
  have hten := length_putVarint_le_ten (totalHeader r)
  have hread : takeVarint (recFinalize r) = some (totalHeader r, r.header ++ r.body) := by
    have hcast : toU64 (totalHeader r : Int) = totalHeader r := by
      rw [toU64_of_nonneg (by omega) (by omega)]
      exact Int.toNat_natCast _
    rw [recFinalize_eq, List.append_assoc, takeVarint_putVarint (by rw [hcast]; omega), hcast]
  have hheader : (r.header ++ r.body).take (totalHeader r -
      ((recFinalize r).length - (r.header ++ r.body).length)) = r.header := by
    rw [hlength, List.length_append, show totalHeader r - ((putVarint (totalHeader r)).length +
      (r.header.length + r.body.length) - (r.header.length + r.body.length)) =
        r.header.length by omega]
    exact List.take_left
  have hbody : (recFinalize r).drop (totalHeader r) = r.body := by
    rw [recFinalize_eq]
    refine List.drop_left' ?_
    rw [List.length_append]
    omega
  simp only [decodeRecord, hread, Option.bind_eq_bind, Option.bind_some]
  rw [if_pos (by omega), hheader, hbody]

/-- The values whose columns can be read back. -/
def Value.Kept : Value → Prop
  | .null => True
  | .int i => -2 ^ 47 ≤ i ∧ i < 2 ^ 47
  | .text bytes => bytes.length ≤ 2 ^ 30 - 7
  | .blob _ => True

theorem textSerialType_of_short {n : Nat} (h : n ≤ 2 ^ 30 - 7) :
    textSerialType n = n * 2 + 13 := by
  unfold textSerialType toI32
  omega

theorem textSerialType_of_long {n : Nat} (h : 2 ^ 30 - 7 < n) (h' : n ≤ 2 ^ 30) :
    textSerialType n = n * 2 + 13 - 2 ^ 32 := by
  unfold textSerialType toI32
  omega

theorem intSerialType_bounds (i : Int) : 1 ≤ intSerialType i ∧ intSerialType i ≤ 9 := by
  unfold intSerialType
  split_ifs <;> omega

theorem toU64_serialType {v : Value} (hsize : v.stored.length ≤ 2 ^ 30)
    (hshort : ∀ bytes, v = .text bytes → bytes.length ≤ 2 ^ 30 - 7) :
    toU64 v.serialType = v.serialType.toNat ∧ v.serialType.toNat < 2 ^ 33 := by
  have hbounds : 0 ≤ v.serialType ∧ v.serialType < 2 ^ 33 := by
    cases v with
    | null =>
        simp only [Value.serialType]
        omega
    | int i =>
        have := intSerialType_bounds i
        simp only [Value.serialType]
        omega
    | text bytes =>
        have hlength := hshort bytes rfl
        rw [Value.serialType, textSerialType_of_short hlength]
        omega
    | blob bytes =>
        simp only [Value.stored] at hsize
        simp only [Value.serialType]
        split_ifs <;> omega
  refine ⟨toU64_of_nonneg hbounds.1 (by omega), by omega⟩

theorem readValue_int {i : Int} (h : -2 ^ 47 ≤ i) (h' : i < 2 ^ 47) (rest : List UInt8) :
    readValue (intSerialType i).toNat (putIntBe i (intStorageBytes (intSerialType i)) ++ rest) =
      some (.int i, rest) := by
  have hwidth : ∀ t width : Nat, t ≤ 6 → 0 < t → intWidth t = some width → width ≤ 8 →
      -256 ^ width ≤ 2 * i → 2 * i < 256 ^ width →
        readValue t (putIntBe i width ++ rest) = some (.int i, rest) := by
    intro t width ht hpos hw hle hlow hhigh
    have htake := takeBytes_append (putIntBe i width) rest
    rw [show (putIntBe i width).length = width from length_bigEndian _ _] at htake
    rw [readValue, if_neg (by omega), if_neg (by omega), if_neg (by omega), if_neg (by omega), hw]
    simp only [Option.bind_eq_bind, Option.bind_some, htake, signedBigEndian_putIntBe hle hlow hhigh,
      Option.pure_def]
  unfold intSerialType
  split_ifs with hzero hone h8 h16 h24 h32 h48
  · subst hzero
    rfl
  · subst hone
    rfl
  · exact hwidth 1 1 (by omega) (by omega) rfl (by omega) (by omega) (by omega)
  · exact hwidth 2 2 (by omega) (by omega) rfl (by omega) (by omega) (by omega)
  · exact hwidth 3 3 (by omega) (by omega) rfl (by omega) (by omega) (by omega)
  · exact hwidth 4 4 (by omega) (by omega) rfl (by omega) (by omega) (by omega)
  · exact hwidth 6 8 (by omega) (by omega) rfl (by omega) (by omega) (by omega)
  · omega

theorem readValue_stored {v : Value} (hblob : v ≠ .blob []) (hkept : v.Kept) (rest : List UInt8) :
    readValue v.serialType.toNat (v.stored ++ rest) = some (v, rest) := by
  cases v with
  | null => rfl
  | int i => exact readValue_int hkept.1 hkept.2 rest
  | text bytes =>
      have htype : (Value.text bytes).serialType.toNat = bytes.length * 2 + 13 := by
        rw [Value.serialType, textSerialType_of_short hkept]
        omega
      rw [htype, readValue, if_neg (by omega), if_neg (by omega), if_neg (by omega),
        if_pos (by omega), show (bytes.length * 2 + 13 - 12) / 2 = bytes.length by omega]
      simp only [Value.stored, takeBytes_append, Option.bind_eq_bind, Option.bind_some,
        Option.pure_def]
      rw [if_neg (by omega)]
  | blob bytes =>
      have hpos : 0 < bytes.length := List.length_pos_iff.mpr fun hnil => hblob (hnil ▸ rfl)
      have htype : (Value.blob bytes).serialType.toNat = bytes.length * 2 + 12 := by
        rw [Value.serialType, if_pos hpos]
        omega
      rw [htype, readValue, if_neg (by omega), if_neg (by omega), if_neg (by omega),
        if_pos (by omega), show (bytes.length * 2 + 12 - 12) / 2 = bytes.length by omega]
      simp only [Value.stored, takeBytes_append, Option.bind_eq_bind, Option.bind_some,
        Option.pure_def]
      rw [if_pos (by omega)]

theorem readValue_wide {i : Int} (h : ¬ (-2 ^ 47 ≤ i ∧ i < 2 ^ 47)) (body : List UInt8) :
    readValue (intSerialType i).toNat body = some (.int 0, body) := by
  have htype : intSerialType i = 8 := by
    unfold intSerialType
    split_ifs <;> omega
  rw [htype]
  rfl

theorem takeVarint_long {value : Int} (h : 2 ^ 63 ≤ toU64 value) (rest : List UInt8) :
    ∃ t rest', takeVarint (putVarint value ++ rest) = some (t, rest') ∧ 2 ^ 57 ≤ t := by
  have hu := toU64_lt value
  obtain ⟨hlen, hlt⟩ := varintGroups_eight 7 (v := toU64 value / 128 / 128)
    (by omega) (by omega) (by omega)
  -- ten groups: the reader stops before the last one
  have hbytes : putVarint value =
      ((varintGroups 7 (toU64 value / 128 / 128)).reverse.map (fun a => UInt8.ofNat (a + 128)) ++
        [UInt8.ofNat (toU64 value / 128 % 128 + 128)]) ++ [UInt8.ofNat (toU64 value % 128)] := by
    rw [putVarint_eq, varintGroups_large 8 (by omega), List.reverse_cons, setContinue_snoc,
      varintGroups_large 7 (by omega), List.reverse_cons, List.map_append, List.map_cons,
      List.map_nil]
  have hholds := holds_memoryOf (putVarint value) rest
  rw [hbytes] at hholds
  have hread := getVarint_nine _ _ _ hlt hlen hholds.left
  rw [← hbytes, ofGroups_varintGroups] at hread
  have hnine : 9 ≤ (putVarint value ++ rest).length := by
    rw [hbytes]
    simp only [List.length_append, List.length_map, hlen, List.length_cons, List.length_nil]
    omega
  refine ⟨256 * (toU64 value / 128 / 128) +
    (UInt8.ofNat (toU64 value / 128 % 128 + 128)).toNat, (putVarint value ++ rest).drop 9, ?_,
    by omega⟩
  rw [takeVarint, hread]
  exact if_pos hnine

section Columns

theorem putVarint_append_ne_nil (value : Int) (rest : List UInt8) :
    putVarint value ++ rest ≠ [] := by
  intro hnil
  have hpos := length_putVarint_pos value
  rw [(List.append_eq_nil_iff.mp hnil).1] at hpos
  exact lt_irrefl 0 hpos

variable {vs : List Value}
variable {v : Value}

theorem readTypes_cons {n : Nat} (hn : toU64 v.serialType = n) (hlt : n < 2 ^ 56) (fuel : Nat)
    (rest : List UInt8) :
    readTypes (fuel + 1) (putVarint v.serialType ++ rest) =
      (readTypes fuel rest).map (n :: ·) := by
  have hread : takeVarint (putVarint v.serialType ++ rest) = some (toU64 v.serialType, rest) :=
    takeVarint_putVarint (by omega) rest
  rw [readTypes.eq_3 _ fuel (putVarint_append_ne_nil _ _), hread, hn]
  simp only [Option.bind_eq_bind, Option.bind_some]
  cases readTypes fuel rest <;> rfl

theorem readColumns (vs : List Value) (hblobs : ∀ v, v ∈ vs → v ≠ .blob [])
    (hkept : ∀ v, v ∈ vs → v.Kept) (hsize : ∀ v, v ∈ vs → v.stored.length ≤ 2 ^ 30) :
    ∀ fuel, (vs.flatMap fun v => putVarint v.serialType).length ≤ fuel →
      (readTypes fuel (vs.flatMap fun v => putVarint v.serialType)).bind
        (fun types => readValues types (vs.flatMap Value.stored)) = some vs := by
  induction vs with
  | nil =>
      intro fuel _
      cases fuel <;> rfl
  | cons v vs ih =>
      intro fuel hfuel
      have hpos := length_putVarint_pos v.serialType
      rw [List.flatMap_cons, List.length_append] at hfuel
      obtain ⟨fuel, rfl⟩ : ∃ n, fuel = n + 1 := ⟨fuel - 1, by omega⟩
      have hshort : ∀ bytes, v = .text bytes → bytes.length ≤ 2 ^ 30 - 7 := by
        rintro bytes rfl
        exact hkept _ List.mem_cons_self
      obtain ⟨htype, hlt⟩ := toU64_serialType (hsize v List.mem_cons_self) hshort
      have hrest := ih (fun u hu => hblobs u (List.mem_cons_of_mem _ hu))
        (fun u hu => hkept u (List.mem_cons_of_mem _ hu))
        (fun u hu => hsize u (List.mem_cons_of_mem _ hu)) fuel (by omega)
      obtain ⟨types, htypes, hvalues⟩ := Option.bind_eq_some_iff.mp hrest
      rw [List.flatMap_cons, List.flatMap_cons, readTypes_cons htype (by omega), htypes]
      simp only [Option.map_some, Option.bind_some, readValues,
        readValue_stored (hblobs v List.mem_cons_self) (hkept v List.mem_cons_self),
        Option.bind_eq_bind, hvalues, Option.pure_def]

theorem length_of_takeBytes {n : Nat} {bytes front rest : List UInt8}
    (h : takeBytes n bytes = some (front, rest)) :
    n ≤ bytes.length ∧ rest.length ≤ bytes.length := by
  rw [takeBytes] at h
  split at h
  · next hle =>
      obtain ⟨-, rfl⟩ := Prod.mk.inj (Option.some.inj h)
      exact ⟨hle, by rw [List.length_drop]; omega⟩
  · exact absurd h (by simp)

theorem length_of_readValue {t : Nat} {body rest : List UInt8}
    (h : readValue t body = some (v, rest)) :
    rest.length ≤ body.length ∧ (12 ≤ t → (t - 12) / 2 ≤ body.length) := by
  have hsame : body = rest → rest.length ≤ body.length := fun h => h ▸ le_refl _
  rw [readValue] at h
  by_cases hlong : 12 ≤ t
  · rw [if_neg (by omega), if_neg (by omega), if_neg (by omega), if_pos hlong] at h
    obtain ⟨⟨front, rest'⟩, htake, hvalue⟩ := Option.bind_eq_some_iff.mp h
    obtain ⟨-, rfl⟩ := Prod.mk.inj (Option.some.inj hvalue)
    obtain ⟨hfits, hrest⟩ := length_of_takeBytes htake
    exact ⟨hrest, fun _ => hfits⟩
  · refine ⟨?_, fun ht => absurd ht hlong⟩
    rw [if_neg hlong] at h
    split_ifs at h with hnull hzero hone
    · exact hsame (Prod.mk.inj (Option.some.inj h)).2
    · exact hsame (Prod.mk.inj (Option.some.inj h)).2
    · exact hsame (Prod.mk.inj (Option.some.inj h)).2
    · obtain ⟨width, -, hread⟩ := Option.bind_eq_some_iff.mp h
      obtain ⟨⟨front, rest'⟩, htake, hvalue⟩ := Option.bind_eq_some_iff.mp hread
      obtain ⟨-, rfl⟩ := Prod.mk.inj (Option.some.inj hvalue)
      exact (length_of_takeBytes htake).2

theorem kept_of_readBack (vs : List Value) :
    ∀ (fuel : Nat) (types : List Nat) (body : List UInt8),
      (∀ v, v ∈ vs → v.stored.length ≤ 2 ^ 30) → body.length ≤ 2 ^ 30 →
        readTypes fuel (vs.flatMap fun v => putVarint v.serialType) = some types →
          readValues types body = some vs → ∀ v, v ∈ vs → v.Kept := by
  induction vs with
  | nil => exact fun _ _ _ _ _ _ _ v hv => absurd hv List.not_mem_nil
  | cons v vs ih =>
      intro fuel types body hsize hbody htypes hvalues
      obtain ⟨fuel, rfl⟩ : ∃ n, fuel = n + 1 := by
        cases fuel with
        | succ n => exact ⟨n, rfl⟩
        | zero =>
            rw [List.flatMap_cons] at htypes
            obtain ⟨b, bs, hbytes⟩ := List.exists_cons_of_ne_nil
              (putVarint_append_ne_nil v.serialType (vs.flatMap fun v => putVarint v.serialType))
            rw [hbytes] at htypes
            exact absurd htypes (by simp [readTypes])
      by_cases hshort : ∀ bytes, v = .text bytes → bytes.length ≤ 2 ^ 30 - 7
      · obtain ⟨htype, hlt⟩ := toU64_serialType (hsize v List.mem_cons_self) hshort
        rw [List.flatMap_cons, readTypes_cons htype (by omega)] at htypes
        obtain ⟨types', htypes', rfl⟩ := Option.map_eq_some_iff.mp htypes
        obtain ⟨⟨u, rest⟩, hread, hvalues⟩ := Option.bind_eq_some_iff.mp hvalues
        obtain ⟨us, hrest, hus⟩ := Option.bind_eq_some_iff.mp hvalues
        obtain ⟨rfl, rfl⟩ := List.cons.inj (Option.some.inj hus)
        have hlength := (length_of_readValue hread).1
        have htail := ih fuel types' rest (fun u hu => hsize u (List.mem_cons_of_mem _ hu))
          (by omega) htypes' hrest
        intro w hw
        rcases List.mem_cons.mp hw with rfl | hw
        · cases w with
          | null => trivial
          | int i =>
              by_contra hwide
              -- the type of a wide integer is that of the constant 0
              rw [Value.serialType, readValue_wide hwide] at hread
              obtain rfl : 0 = i := Value.int.inj (Prod.mk.inj (Option.some.inj hread)).1
              exact hwide ⟨by omega, by omega⟩
          | text bytes => exact hshort bytes rfl
          | blob bytes => trivial
        · exact htail w hw
      · -- the first long text makes the reader see a column that does not fit
        push Not at hshort
        obtain ⟨bytes, rfl, hlong⟩ := hshort
        have hless : bytes.length ≤ 2 ^ 30 := hsize _ List.mem_cons_self
        have htype : 2 ^ 63 ≤ toU64 (Value.text bytes).serialType := by
          rw [Value.serialType, textSerialType_of_long hlong hless, toU64]
          omega
        obtain ⟨t, rest, htake, ht⟩ := takeVarint_long htype
          (vs.flatMap fun v => putVarint v.serialType)
        rw [List.flatMap_cons, readTypes.eq_3 _ fuel (putVarint_append_ne_nil _ _), htake] at htypes
        simp only [Option.bind_eq_bind, Option.bind_some] at htypes
        obtain ⟨types', -, htypes'⟩ := Option.bind_eq_some_iff.mp htypes
        obtain rfl := Option.some.inj htypes'
        obtain ⟨⟨u, rest'⟩, hread, -⟩ := Option.bind_eq_some_iff.mp hvalues
        have hfits := (length_of_readValue hread).2 (by omega)
        omega

/-- Columns that are kept and that the buffers of the builder can hold. -/
structure Storable (vs : List Value) : Prop where
  kept : ∀ v, v ∈ vs → v.Kept
  types : (vs.map fun v => varintLen v.serialType).sum ≤ 2 ^ 30
  values : (vs.map fun v => v.stored.length).sum ≤ 2 ^ 30

instance : DecidablePred Value.Kept := fun v =>
  match v with
  | .null => isTrue trivial
  | .int _ => inferInstanceAs (Decidable (_ ∧ _))
  | .text _ => inferInstanceAs (Decidable (_ ≤ _))
  | .blob _ => isTrue trivial

instance (vs : List Value) : Decidable (Storable vs) :=
  decidable_of_iff ((∀ v, v ∈ vs → v.Kept) ∧ (vs.map fun v => varintLen v.serialType).sum ≤ 2 ^ 30 ∧
    (vs.map fun v => v.stored.length).sum ≤ 2 ^ 30)
    ⟨fun h => ⟨h.1, h.2.1, h.2.2⟩, fun h => ⟨h.kept, h.types, h.values⟩⟩

theorem storable_iff : Storable vs ↔ (∀ v, v ∈ vs → v.Kept) ∧ RecordBuilder.Fits (recAdds vs) := by
  have hheader : (recAdds vs).header.length = (vs.map fun v => varintLen v.serialType).sum := by
    rw [header_recAdds, List.length_flatMap]
    simp only [length_putVarint]
  have hbody : (recAdds vs).body.length = (vs.map fun v => v.stored.length).sum := by
    rw [body_recAdds, List.length_flatMap]
  rw [RecordBuilder.Fits, hheader, hbody]
  exact ⟨fun h => ⟨h.kept, h.types, h.values⟩, fun h => ⟨h.1, h.2.1, h.2.2⟩⟩

theorem length_stored_le (hv : v ∈ vs) : v.stored.length ≤ (recAdds vs).body.length := by
  obtain ⟨before, after, rfl⟩ := List.append_of_mem hv
  rw [body_recAdds, List.flatMap_append, List.flatMap_cons]
  simp only [List.length_append]
  omega

theorem readBack_iff_storable (hblobs : .blob [] ∉ vs)
    (hheader : (recAdds vs).header.length < 2 ^ 31) :
    (∃ bytes, encodeRecord vs = some (bytes, bytes.length) ∧ decodeRecord bytes = some vs) ↔
      Storable vs := by
  rw [storable_iff]
  constructor
  · rintro ⟨bytes, hencode, hdecode⟩
    have hfits : RecordBuilder.Fits (recAdds vs) := by
      by_contra hfull
      rw [encodeRecord_of_not_fits hfull] at hencode
      exact absurd hencode (by simp)
    refine ⟨?_, hfits⟩
    rw [encodeRecord_of_fits hfits] at hencode
    obtain ⟨rfl, -⟩ := Prod.mk.inj (Option.some.inj hencode)
    rw [decodeRecord_recFinalize hheader] at hdecode
    obtain ⟨types, htypes, hvalues⟩ := Option.bind_eq_some_iff.mp hdecode
    rw [header_recAdds] at htypes
    exact kept_of_readBack vs _ types _ (fun v hv => (length_stored_le hv).trans hfits.2) hfits.2
      htypes hvalues
  · rintro ⟨hkept, hfits⟩
    refine ⟨recFinalize (recAdds vs), ?_, ?_⟩
    · rw [encodeRecord_of_fits hfits, length_recFinalize hheader]
    · rw [decodeRecord_recFinalize hheader, body_recAdds, header_recAdds]
      exact readColumns vs (fun v hv hempty => hblobs (hempty ▸ hv)) hkept
        (fun v hv => (length_stored_le hv).trans hfits.2) _ (le_refl _)

/-- A record of less than `2 ^ 31` bytes is read back, from a block of exactly its
size, if and only if its columns are storable. -/
theorem readBack_iff {vs : List Value} (hvalid : ∀ v, v ∈ vs → v.Valid)
    (hsize : (recFinalize (recAdds vs)).length < 2 ^ 31) :
    (∃ bytes, encodeRecord vs = some (bytes, bytes.length) ∧ decodeRecord bytes = some vs) ↔
      Storable vs := by
  refine readBack_iff_storable (fun hempty => hvalid _ hempty rfl) ?_
  rw [recFinalize_eq, List.length_append, List.length_append] at hsize
  omega

end Columns

theorem readBack_row :
    ∃ bytes, encodeRecord [.int (-129), .text (bytesOf "f"), .null, .blob [1]] =
      some (bytes, bytes.length) ∧
        decodeRecord bytes = some [.int (-129), .text (bytesOf "f"), .null, .blob [1]] := by
  refine (readBack_iff ?_ ?_).mpr ⟨?_, ?_, ?_⟩
  · simp [Value.Valid, bytesOf]
  · decide
  · simp [Value.Kept, bytesOf]
  · decide
  · decide

theorem not_readBack_wide :
    ¬ ∃ bytes, encodeRecord [.int (2 ^ 47)] = some (bytes, bytes.length) ∧
      decodeRecord bytes = some [.int (2 ^ 47)] := by
  intro hread
  have hstorable := (readBack_iff (by simp [Value.Valid]) (by decide)).mp hread
  exact absurd (hstorable.kept _ List.mem_cons_self).2 (lt_irrefl _)

end Sqlite
end CodebaseMemory
