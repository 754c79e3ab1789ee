import CodebaseMemory.Lib.Decimal
import CodebaseMemory.Lib.Json
import Mathlib.Data.List.TakeWhile

/-!
# Reading printed JSON

The text of a value reads back as the value, if its strings and numbers are
spelled as JSON has them (`Json.Spelled`): `read_text`.  Strings can always be spelled
by `escape`, and integers by `decimal`.

The proof is by recursion on the value.  A number ends where no number byte
follows, which `NoNumberHead` says of the text after a value; a value whose text has `n` bytes
needs `2 * n` calls.
-/

namespace CodebaseMemory
namespace Lib
namespace Json

/-- A spelling of a string, and the bytes it stands for. -/
def IsSpelling (name : List UInt8 × List UInt8) : Prop :=
  ∀ rest, readString (name.1 ++ 34 :: rest) = some (name, rest)

/-- All strings and numbers of a value are spelled as JSON has them. -/
inductive Spelled : Json → Prop where
  | null : Spelled .null
  | bool (b : Bool) : Spelled (.bool b)
  | num {spelling : List UInt8} (h : isNumber spelling = true)
      (hbytes : ∀ c ∈ spelling, isNumberByte c = true) : Spelled (.num spelling)
  | str {spelling value : List UInt8} (h : IsSpelling (spelling, value)) :
      Spelled (.str spelling value)
  | arr {items : List Json} (h : ∀ v ∈ items, Spelled v) : Spelled (.arr items)
  | obj {members : List ((List UInt8 × List UInt8) × Json)}
      (hnames : ∀ m ∈ members, IsSpelling m.1) (h : ∀ m ∈ members, Spelled m.2) :
      Spelled (.obj members)

/-- The text goes on with something that does not belong to a number. -/
def NoNumberHead (rest : List UInt8) : Prop :=
  ∀ c ∈ rest.head?, isNumberByte c = false

/-- The bytes between two tokens. -/
def isWs (c : UInt8) : Bool :=
  c = 32 || c = 9 || c = 10 || c = 13

theorem skipWs_cons {c : UInt8} {rest : List UInt8} (h : isWs c = false) :
    skipWs (c :: rest) = c :: rest := by
  rw [skipWs, List.dropWhile_cons_of_neg]
  simpa [isWs] using h

theorem ne_of_isNumberByte {c b : UInt8} (hc : isNumberByte c = true)
    (hb : isNumberByte b = false) : c ≠ b := by
  rintro rfl
  rw [hc] at hb
  cases hb

theorem isWs_of_isNumberByte {c : UInt8} (hc : isNumberByte c = true) : isWs c = false := by
  simp [isWs, ne_of_isNumberByte hc (b := 32) (by decide),
    ne_of_isNumberByte hc (b := 9) (by decide), ne_of_isNumberByte hc (b := 10) (by decide),
    ne_of_isNumberByte hc (b := 13) (by decide)]

section Atoms

variable {spelling rest : List UInt8}

theorem takeWhile_number (hbytes : ∀ c ∈ spelling, isNumberByte c = true)
    (hrest : NoNumberHead rest) : (spelling ++ rest).takeWhile isNumberByte = spelling := by
  rw [List.takeWhile_append_of_pos hbytes]
  cases rest with
  | nil => simp
  | cons c rest => simp [hrest c rfl]

theorem dropWhile_number (hbytes : ∀ c ∈ spelling, isNumberByte c = true)
    (hrest : NoNumberHead rest) : (spelling ++ rest).dropWhile isNumberByte = rest := by
  rw [List.dropWhile_append_of_pos hbytes]
  cases rest with
  | nil => rfl
  | cons c rest => simp [hrest c rfl]

theorem ne_nil_of_isNumber (h : isNumber spelling = true) : spelling ≠ [] := by
  rintro rfl
  exact absurd h (by decide)

theorem readValue_num (fuel : Nat) (h : isNumber spelling = true)
    (hbytes : ∀ c ∈ spelling, isNumberByte c = true) (hrest : NoNumberHead rest) :
    readValue (fuel + 1) (spelling ++ rest) = some (.num spelling, rest) := by
  obtain ⟨c, cs, rfl⟩ := List.exists_cons_of_ne_nil (ne_nil_of_isNumber h)
  have hc : isNumberByte c = true := hbytes c List.mem_cons_self
  have hatom : readAtom (c :: cs ++ rest) = some (.num (c :: cs), rest) := by
    have hlit : ∀ l : List UInt8, l.head?.all isNumberByte = false → ¬ l <+: c :: cs ++ rest := by
      intro l hl hpre
      cases l with
      | nil => exact absurd hl (by simp)
      | cons b l =>
        obtain ⟨rfl, -⟩ := List.cons_prefix_cons.mp hpre
        simp [hc] at hl
    rw [readAtom, if_neg (hlit _ (by decide)), if_neg (hlit _ (by decide)),
      if_neg (hlit _ (by decide))]
    simp only [takeWhile_number hbytes hrest, dropWhile_number hbytes hrest]
    rw [if_pos h]
  rw [readValue]
  simp only [List.cons_append] at hatom ⊢
  rw [skipWs_cons (isWs_of_isNumberByte hc)]
  split
  · next heq => exact absurd (List.cons.inj heq).1 (ne_of_isNumberByte hc (by decide))
  · next heq => exact absurd (List.cons.inj heq).1 (ne_of_isNumberByte hc (by decide))
  · next heq => exact absurd (List.cons.inj heq).1 (ne_of_isNumberByte hc (by decide))
  · exact hatom

theorem readValue_literal (fuel : Nat) (rest : List UInt8) :
    readValue (fuel + 1) (text .null ++ rest) = some (.null, rest) ∧
      ∀ b, readValue (fuel + 1) (text (.bool b) ++ rest) = some (.bool b, rest) := by
  refine ⟨?_, fun b => ?_⟩
  · simp [readValue, text, skipWs, readAtom]
  · cases b <;> simp [readValue, text, skipWs, readAtom]

end Atoms

theorem text_head {v : Json} (hv : Spelled v) :
    ∃ c cs, text v = c :: cs ∧ isWs c = false ∧ c ≠ 93 := by
  cases hv with
  | null => exact ⟨110, _, by rw [text], by decide, by decide⟩
  | bool b => cases b <;> exact ⟨_, _, by rw [text], by decide, by decide⟩
  | @num spelling h hbytes =>
    obtain ⟨c, cs, rfl⟩ := List.exists_cons_of_ne_nil (ne_nil_of_isNumber h)
    have hc : isNumberByte c = true := hbytes c List.mem_cons_self
    exact ⟨c, cs, by rw [text], isWs_of_isNumberByte hc, ne_of_isNumberByte hc (by decide)⟩
  | str h => exact ⟨34, _, by rw [text, quoted]; rfl, by decide, by decide⟩
  | arr h => exact ⟨91, _, by rw [text]; rfl, by decide, by decide⟩
  | obj hnames h => exact ⟨123, _, by rw [text]; rfl, by decide, by decide⟩

theorem skipWs_text {v : Json} (hv : Spelled v) (rest : List UInt8) :
    skipWs (text v ++ rest) = text v ++ rest := by
  obtain ⟨c, cs, htext, hws, -⟩ := text_head hv
  rw [htext]
  exact skipWs_cons hws

theorem itemsText_cons (v : Json) (vs : List Json) :
    itemsText (v :: vs) = text v ++ if vs = [] then [] else 44 :: itemsText vs := by
  cases vs with
  | nil => simp [itemsText]
  | cons w ws => simp [itemsText]

theorem membersText_cons (name : List UInt8 × List UInt8) (v : Json)
    (ms : List ((List UInt8 × List UInt8) × Json)) :
    membersText ((name, v) :: ms) =
      quoted name.1 ++ 58 :: text v ++ if ms = [] then [] else 44 :: membersText ms := by
  cases ms with
  | nil => simp [membersText]
  | cons m ms => simp [membersText]

theorem noNumberHead_cons {c : UInt8} (h : isNumberByte c = false) (rest : List UInt8) :
    NoNumberHead (c :: rest) := by
  intro b hb
  simp only [List.head?_cons, Option.mem_def, Option.some.injEq] at hb
  exact hb ▸ h

theorem readValue_arr {fuel : Nat} {items : List Json} {rest : List UInt8} (hne : items ≠ [])
    (h : ∀ v ∈ items, Spelled v)
    (hitems : readItems fuel (itemsText items ++ 93 :: rest) = some (items, rest)) :
    readValue (fuel + 1) (text (.arr items) ++ rest) = some (.arr items, rest) := by
  obtain ⟨v, vs, rfl⟩ := List.exists_cons_of_ne_nil hne
  obtain ⟨c, cs, htext, hws, hc⟩ := text_head (h v List.mem_cons_self)
  have hskip : skipWs (itemsText (v :: vs) ++ 93 :: rest) = itemsText (v :: vs) ++ 93 :: rest := by
    rw [itemsText_cons, List.append_assoc]
    exact skipWs_text (h v List.mem_cons_self) _
  rw [readValue, text]
  simp only [List.cons_append, List.append_assoc, List.nil_append]
  rw [skipWs_cons (by decide)]
  simp only [hskip]
  split
  · next heq =>
    rw [itemsText_cons, htext] at heq
    exact absurd (List.cons.inj heq).1 hc
  · rw [hitems]
    rfl

theorem readValue_obj {fuel : Nat} {members : List ((List UInt8 × List UInt8) × Json)}
    {rest : List UInt8} (hne : members ≠ [])
    (hmembers : readMembers fuel (membersText members ++ 125 :: rest) = some (members, rest)) :
    readValue (fuel + 1) (text (.obj members) ++ rest) = some (.obj members, rest) := by
  obtain ⟨⟨name, v⟩, ms, rfl⟩ := List.exists_cons_of_ne_nil hne
  have hhead : ∃ cs, membersText ((name, v) :: ms) ++ 125 :: rest = 34 :: cs := by
    rw [membersText_cons, quoted]
    exact ⟨_, rfl⟩
  obtain ⟨cs, hcs⟩ := hhead
  rw [hcs] at hmembers
  rw [readValue, text]
  simp only [List.cons_append, List.append_assoc, List.nil_append]
  rw [skipWs_cons (by decide)]
  simp only [hcs]
  simp [skipWs, hmembers]

mutual

theorem readValue_text : ∀ (v : Json) (fuel : Nat) (rest : List UInt8), Spelled v →
    2 * (text v).length ≤ fuel → NoNumberHead rest →
    readValue fuel (text v ++ rest) = some (v, rest)
  | .null, 0, _, _, hfuel, _ => by simp [text] at hfuel
  | .null, fuel + 1, rest, _, _, _ => (readValue_literal fuel rest).1
  | .bool b, 0, _, _, hfuel, _ => by cases b <;> simp [text] at hfuel
  | .bool b, fuel + 1, rest, _, _, _ => (readValue_literal fuel rest).2 b
  | .num spelling, 0, _, .num h _, hfuel, _ => by
    simp [text] at hfuel
    exact absurd hfuel (ne_nil_of_isNumber h)
  | .num spelling, fuel + 1, rest, .num h hbytes, _, hrest => by
    rw [text]
    exact readValue_num fuel h hbytes hrest
  | .str _ _, 0, _, _, hfuel, _ => by simp [text, quoted] at hfuel
  | .str spelling value, fuel + 1, rest, .str h, _, _ => by
    rw [text, quoted, readValue]
    simp only [List.cons_append, List.append_assoc, List.nil_append]
    rw [skipWs_cons (by decide)]
    simp only [h rest]
    rfl
  | .arr _, 0, _, _, hfuel, _ => by simp [text] at hfuel
  | .arr [], fuel + 1, rest, _, _, _ => by
    simp [text, itemsText, readValue, skipWs]
  | .arr (v :: vs), fuel + 1, rest, .arr h, hfuel, _ => by
    simp only [text, List.cons_append, List.length_cons, List.length_append, List.length_nil]
      at hfuel
    exact readValue_arr (by simp) h (readItems_text (v :: vs) fuel rest (by simp) h (by omega))
  | .obj _, 0, _, _, hfuel, _ => by simp [text] at hfuel
  | .obj [], fuel + 1, rest, _, _, _ => by
    simp [text, membersText, readValue, skipWs]
  | .obj (m :: ms), fuel + 1, rest, .obj hnames h, hfuel, _ => by
    simp only [text, List.cons_append, List.length_cons, List.length_append, List.length_nil]
      at hfuel
    exact readValue_obj (by simp)
      (readMembers_text (m :: ms) fuel rest (by simp) hnames h (by omega))

theorem readItems_text : ∀ (items : List Json) (fuel : Nat) (rest : List UInt8), items ≠ [] →
    (∀ v ∈ items, Spelled v) → 2 * (itemsText items).length + 1 ≤ fuel →
    readItems fuel (itemsText items ++ 93 :: rest) = some (items, rest)
  | [], _, _, hne, _, _ => absurd rfl hne
  | v :: vs, 0, _, _, _, hfuel => by simp at hfuel
  | v :: vs, fuel + 1, rest, _, h, hfuel => by
    have hv := h v List.mem_cons_self
    rw [itemsText_cons] at hfuel ⊢
    rw [List.length_append] at hfuel
    cases vs with
    | nil =>
      have hval := readValue_text v fuel (93 :: rest) hv (by omega)
        (noNumberHead_cons (by decide) _)
      rw [readItems]
      simp [hval, skipWs]
    | cons w ws =>
      have hlen : (if w :: ws = [] then [] else 44 :: itemsText (w :: ws)).length =
          (itemsText (w :: ws)).length + 1 := rfl
      rw [hlen] at hfuel
      have hval := readValue_text v fuel (44 :: itemsText (w :: ws) ++ 93 :: rest) hv (by omega)
        (noNumberHead_cons (by decide) _)
      have hitems := readItems_text (w :: ws) fuel rest (by simp)
        (fun u hu => h u (List.mem_cons_of_mem _ hu)) (by omega)
      rw [if_neg (by simp), List.append_assoc, readItems, hval]
      simp only [Option.bind_eq_bind, Option.bind_some, List.cons_append]
      rw [skipWs_cons (by decide)]
      simp [hitems]

theorem readMembers_text : ∀ (members : List ((List UInt8 × List UInt8) × Json)) (fuel : Nat)
    (rest : List UInt8), members ≠ [] → (∀ m ∈ members, IsSpelling m.1) →
    (∀ m ∈ members, Spelled m.2) → 2 * (membersText members).length + 1 ≤ fuel →
    readMembers fuel (membersText members ++ 125 :: rest) = some (members, rest)
  | [], _, _, hne, _, _, _ => absurd rfl hne
  | (name, v) :: ms, 0, _, _, _, _, hfuel => by simp at hfuel
  | (name, v) :: ms, fuel + 1, rest, _, hnames, h, hfuel => by
    have hname : IsSpelling name := hnames (name, v) List.mem_cons_self
    have hv : Spelled v := h (name, v) List.mem_cons_self
    rw [membersText_cons] at hfuel ⊢
    simp only [quoted, List.length_append, List.length_cons] at hfuel
    rw [readMembers, quoted]
    simp only [List.cons_append, List.append_assoc, List.nil_append]
    rw [skipWs_cons (by decide)]
    simp only [hname _, Option.bind_eq_bind, Option.bind_some]
    rw [skipWs_cons (by decide)]
    cases ms with
    | nil =>
      have hval := readValue_text v fuel (125 :: rest) hv (by omega)
        (noNumberHead_cons (by decide) _)
      simp [hval, skipWs]
    | cons m ms =>
      have hlen : (if m :: ms = [] then [] else 44 :: membersText (m :: ms)).length =
          (membersText (m :: ms)).length + 1 := rfl
      rw [hlen] at hfuel
      have hval := readValue_text v fuel (44 :: (membersText (m :: ms) ++ 125 :: rest)) hv
        (by omega) (noNumberHead_cons (by decide) _)
      have hmembers := readMembers_text (m :: ms) fuel rest (by simp)
        (fun u hu => hnames u (List.mem_cons_of_mem _ hu))
        (fun u hu => h u (List.mem_cons_of_mem _ hu)) (by omega)
      rw [if_neg (by simp)]
      simp only [hval, Option.bind_some, List.cons_append]
      rw [skipWs_cons (by decide)]
      simp [hmembers]

end

theorem read_text {v : Json} (hv : Spelled v) : read (text v) = some v := by
  have h := readValue_text v (2 * (text v).length + 2) [] hv (by omega) (by simp [NoNumberHead])
  rw [List.append_nil] at h
  simp [read, h, skipWs]

def hexByte (n : Nat) : UInt8 :=
  if n < 10 then UInt8.ofNat (48 + n) else UInt8.ofNat (55 + n)

/-- How a byte is spelled in a string. -/
def escapeByte (b : UInt8) : List UInt8 :=
  if b = 34 then [92, 34]
  else if b = 92 then [92, 92]
  else if b = 8 then [92, 98]
  else if b = 9 then [92, 116]
  else if b = 10 then [92, 110]
  else if b = 12 then [92, 102]
  else if b = 13 then [92, 114]
  else if b < 32 then [92, 117, 48, 48, hexByte (b.toNat / 16), hexByte (b.toNat % 16)]
  else [b]

/-- A spelling of these bytes. -/
def escape (s : List UInt8) : List UInt8 :=
  s.flatMap escapeByte

theorem escape_cons (b : UInt8) (s : List UInt8) : escape (b :: s) = escapeByte b ++ escape s :=
  List.flatMap_cons

theorem escapeByte_cases : ∀ b : UInt8,
    (escapeByte b = [b] ∧ b ≠ 34 ∧ b ≠ 92 ∧ ¬ b < 32) ∨
    (∃ c, escapeByte b = [92, c] ∧ c ≠ 117 ∧ escapedByte c = some b) ∨
    (∃ c d, escapeByte b = [92, 117, 48, 48, c, d] ∧ ¬ c < 32 ∧ ¬ d < 32 ∧ c ≠ 34 ∧ c ≠ 92 ∧
      d ≠ 34 ∧ d ≠ 92 ∧ hex4 48 48 c d = some b.toNat ∧ b < 32) := by
  intro b
  unfold escapeByte
  split
  · next h => subst h; exact Or.inr (Or.inl ⟨34, rfl, by decide, by decide⟩)
  split
  · next h => subst h; exact Or.inr (Or.inl ⟨92, rfl, by decide, by decide⟩)
  split
  · next h => subst h; exact Or.inr (Or.inl ⟨98, rfl, by decide, by decide⟩)
  split
  · next h => subst h; exact Or.inr (Or.inl ⟨116, rfl, by decide, by decide⟩)
  split
  · next h => subst h; exact Or.inr (Or.inl ⟨110, rfl, by decide, by decide⟩)
  split
  · next h => subst h; exact Or.inr (Or.inl ⟨102, rfl, by decide, by decide⟩)
  split
  · next h => subst h; exact Or.inr (Or.inl ⟨114, rfl, by decide, by decide⟩)
  split
  · next h =>
    refine Or.inr (Or.inr ⟨_, _, rfl, ?_⟩)
    have hall : ∀ n, n < 32 →
        ¬ hexByte (n / 16) < 32 ∧ ¬ hexByte (n % 16) < 32 ∧ hexByte (n / 16) ≠ 34 ∧
          hexByte (n / 16) ≠ 92 ∧ hexByte (n % 16) ≠ 34 ∧ hexByte (n % 16) ≠ 92 ∧
          hex4 48 48 (hexByte (n / 16)) (hexByte (n % 16)) = some n := by
      decide
    obtain ⟨h1, h2, h3, h4, h5, h6, h7⟩ := hall b.toNat (UInt8.lt_iff_toNat_lt.mp h)
    exact ⟨h1, h2, h3, h4, h5, h6, h7, h⟩
  · next h34 h92 _ _ _ _ _ h => exact Or.inl ⟨rfl, h34, h92, h⟩

theorem closeString_escapeByte (b : UInt8) (t : List UInt8) :
    closeString (escapeByte b ++ t) = (closeString t).map fun r => (escapeByte b ++ r.1, r.2) := by
  have hplain : ∀ {c : UInt8} {t : List UInt8}, c ≠ 34 → c ≠ 92 → ¬ c < 32 →
      closeString (c :: t) = (closeString t).map fun r => (c :: r.1, r.2) := by
    intro c t h34 h92 h32
    rw [closeString.eq_def]
    split <;> simp_all
  rcases escapeByte_cases b with ⟨he, h34, h92, h32⟩ | ⟨c, he, -, -⟩ |
      ⟨c, d, he, hc, hd, hc34, hc92, hd34, hd92, -, -⟩
  · rw [he]
    exact hplain h34 h92 h32
  · rw [he]
    simp [closeString]
  · rw [he]
    simp only [List.cons_append, List.nil_append, closeString]
    rw [hplain (by decide) (by decide) (by decide), hplain (by decide) (by decide) (by decide),
      hplain hc34 hc92 hc, hplain hd34 hd92 hd]
    simp [Option.map_map, Function.comp_def]

theorem unescape_escapeByte (fuel : Nat) (b : UInt8) (t : List UInt8) :
    unescape (fuel + 1) (escapeByte b ++ t) = (unescape fuel t).map (b :: ·) := by
  rcases escapeByte_cases b with ⟨he, -, h92, -⟩ | ⟨c, he, hc, hb⟩ |
      ⟨c, d, he, -, -, -, -, -, -, hhex, hb⟩
  · rw [he, List.singleton_append, unescape.eq_def]
    split <;> simp_all
  · rw [he]
    simp only [List.cons_append, List.nil_append]
    rw [unescape]
    · simp [hb, Option.map_eq_bind]
    · intro a b' c' d' rest' h
      exact absurd h hc
  · have hlt : b.toNat < 32 := UInt8.lt_iff_toNat_lt.mp hb
    have hutf : utf8 b.toNat = [b] := by
      rw [utf8, if_pos (by omega)]
      simp
    have hfirst : ¬ (55296 ≤ b.toNat ∧ b.toNat < 56320) := by omega
    have hsecond : ¬ (56320 ≤ b.toNat ∧ b.toNat < 57344) := by omega
    rw [he]
    simp only [List.cons_append, List.nil_append, unescape, hhex]
    simp [hfirst, hsecond, hutf, Option.map_eq_bind]

theorem closeString_escape (rest : List UInt8) : ∀ s,
    closeString (escape s ++ 34 :: rest) = some (escape s, rest)
  | [] => by simp [escape, closeString]
  | b :: s => by
    have ih := closeString_escape rest s
    rw [escape] at ih ⊢
    rw [List.flatMap_cons, List.append_assoc, closeString_escapeByte, ih]
    rfl

theorem unescape_escape : ∀ (s : List UInt8) (fuel : Nat), s.length ≤ fuel →
    unescape fuel (escape s) = some s
  | [], fuel, _ => by cases fuel <;> rfl
  | b :: s, 0, h => by simp at h
  | b :: s, fuel + 1, h => by
    have ih := unescape_escape s fuel (by simpa using h)
    rw [escape] at ih ⊢
    rw [List.flatMap_cons, unescape_escapeByte, ih]
    rfl

theorem length_escape (s : List UInt8) : s.length ≤ (escape s).length := by
  induction s with
  | nil => exact Nat.zero_le _
  | cons b s ih =>
    have hb : 1 ≤ (escapeByte b).length := by
      rcases escapeByte_cases b with ⟨he, -⟩ | ⟨c, he, -⟩ | ⟨c, d, he, -⟩ <;> simp [he]
    rw [escape] at ih ⊢
    rw [List.flatMap_cons, List.length_append, List.length_cons]
    omega

theorem isSpelling_escape (s : List UInt8) : IsSpelling (escape s, s) := by
  intro rest
  simp [readString, closeString_escape, unescape_escape s _ (length_escape s)]

theorem isDigit_of_mem_decimalNat {n : Nat} {b : UInt8} (hb : b ∈ decimalNat n) :
    isDigit b = true := by
  have h := byte_bounds hb
  simp only [isDigit, Bool.and_eq_true, decide_eq_true_eq, UInt8.le_iff_toNat_le]
  exact h

theorem head_decimalNat (n : Nat) (hpos : 0 < n) : (decimalNat n).head? ≠ some 48 := by
  induction n using Nat.strongRecOn with
  | ind n ih =>
    by_cases hn : n < 10
    · have hall : ∀ k, k < 10 → 0 < k → (decimalNat k).head? ≠ some 48 := by decide
      exact hall n hn hpos
    · have happend := Nat.toDigits_of_base_le (b := 10) (by decide) (Nat.le_of_not_lt hn)
      have hrest := ih (n / 10) (Nat.div_lt_self hpos (by decide)) (by omega)
      rw [decimalNat, happend, List.map_append, List.head?_append_of_ne_nil]
      · exact hrest
      · exact decimalNat_ne_nil (n / 10)

theorem isUnsigned_decimalNat (n : Nat) : isUnsigned (decimalNat n) = true := by
  by_cases hpos : 0 < n
  · have hhead := head_decimalNat n hpos
    have hdigits : ∀ b ∈ decimalNat n, isDigit b = true := fun b => isDigit_of_mem_decimalNat
    obtain ⟨c, cs, hcs⟩ := List.exists_cons_of_ne_nil (decimalNat_ne_nil n)
    have htake := List.takeWhile_eq_self_iff.mpr hdigits
    have hdrop := List.dropWhile_eq_nil_iff.mpr hdigits
    rw [hcs] at htake hdrop hhead ⊢
    rw [isUnsigned.eq_def]
    split
    · next heq => exact absurd (by rw [(List.cons.inj heq).1]; rfl) hhead
    · simp [htake, hdrop, isFraction]
  · obtain rfl : n = 0 := by omega
    decide

theorem isNumber_decimal (i : Int) : isNumber (decimal i) = true := by
  cases i with
  | ofNat n =>
    have h := isUnsigned_decimalNat n
    rw [decimal, isNumber.eq_def]
    split
    · next heq => exact absurd heq (decimalNat_ne_cons_minus n _)
    · exact h
  | negSucc n => exact isUnsigned_decimalNat (n + 1)

theorem isNumberByte_decimal (i : Int) : ∀ c ∈ decimal i, isNumberByte c = true := by
  have hnat : ∀ n, ∀ c ∈ decimalNat n, isNumberByte c = true := by
    intro n c hc
    simp [isNumberByte, isDigit_of_mem_decimalNat hc]
  cases i with
  | ofNat n => exact hnat n
  | negSucc n =>
    intro c hc
    rcases List.mem_cons.mp hc with rfl | hc
    · decide
    · exact hnat _ c hc

/-- The integer that a number spells, if it has neither fraction nor exponent. -/
def intValue : List UInt8 → Option Int
  | 45 :: digits => if isDigits digits then some (-(digitsValue 0 digits : Int)) else none
  | digits => if isDigits digits then some (digitsValue 0 digits : Int) else none

theorem isDigits_decimalNat (n : Nat) : isDigits (decimalNat n) = true := by
  simp only [isDigits, Bool.and_eq_true, List.all_eq_true]
  exact ⟨by simpa using decimalNat_ne_nil n, fun b => isDigit_of_mem_decimalNat⟩

theorem intValue_decimal (i : Int) : intValue (decimal i) = some i := by
  cases i with
  | ofNat n =>
    rw [decimal, intValue.eq_def]
    split
    · next heq => exact absurd heq (decimalNat_ne_cons_minus n _)
    · rw [if_pos (isDigits_decimalNat n), digitsValue_decimalNat]
      rfl
  | negSucc n =>
    rw [decimal, intValue, if_pos (isDigits_decimalNat _), digitsValue_decimalNat]
    rfl

end Json
end Lib
end CodebaseMemory
