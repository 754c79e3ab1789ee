import CodebaseMemory.Mcp.Stream

/-!
# Messages and frames

A client sends each message as one line, or as a block: a `Content-Length` header, other
headers, a blank line and exactly as many bytes as announced.  The server is in step with the
client when it takes each message from its own place, and nothing else; a block
whose announced length the size check rejects has to be passed over as a whole.

It is not passed over: the code goes on with the line after the rejected header, so that
the rest of the block is read as lines and handed on as messages.  `inStep_iff` says that
this is the only way to lose step: the server is in step exactly when no block is longer
than the size check allows.

A message here has no line feed, no zero byte, at least one byte that is not a carriage
return, and does not begin like the header; every JSON text without raw line feeds is
such a message.
-/

namespace CodebaseMemory
namespace Mcp

open Lib
open Sqlite (CStr bytesOf)

structure IsText (m : Bytes) : Prop where
  noLf : lf ∉ m
  noZero : (0 : UInt8) ∉ m
  visible : ∃ b ∈ m, b ≠ cr
  noHeader : ¬ contentPrefix <+: m

theorem IsText.ne_nil {m : Bytes} (h : IsText m) : m ≠ [] := by
  obtain ⟨b, hb, -⟩ := h.visible
  exact List.ne_nil_of_mem hb

inductive Frame where
  /-- A line, which ends with `\n` or `\r\n`. -/
  | line (message : Bytes) (crlf : Bool)
  /-- A block with these headers after `Content-Length`. -/
  | block (message : Bytes) (headers : List Bytes)

def crlf : Bytes := [cr, lf]

def lengthHeader (n : Nat) : Bytes :=
  contentPrefix ++ 32 :: decimalNat n

def headerLines (headers : List Bytes) : Bytes :=
  (headers.map (· ++ crlf)).flatten ++ crlf

def Frame.encode : Frame → Bytes
  | .line message withCr => message ++ if withCr then crlf else [lf]
  | .block message headers =>
    lengthHeader message.length ++ crlf ++ headerLines headers ++ message

def encodeAll (frames : List Frame) : Bytes :=
  (frames.map Frame.encode).flatten

/-- A frame that a client sends: the carriage return at the end of a line belongs to the
line end. -/
def Frame.Sent : Frame → Prop
  | .line message _ => IsText message ∧ message.getLast? ≠ some cr
  | .block message headers => IsText message ∧ ∀ h ∈ headers, IsText h

/-- The messages in their places; a block whose announced length is rejected is left out. -/
def places : List Frame → List Handed
  | [] => []
  | .line message withCr :: rest =>
    { start := (encodeAll (.line message withCr :: rest)).length, message, framed := false } ::
      places rest
  | .block message _ :: rest =>
    if accepts (contentLength (lengthHeader message.length)) then
      { start := message.length + (encodeAll rest).length, message, framed := true } ::
        places rest
    else places rest

/-- The server hands on each message from its place, and nothing else. -/
def InStep (frames : List Frame) : Prop :=
  handed (encodeAll frames) = places frames

section Lines

variable {m rest : Bytes}

theorem getline_append (hm : lf ∉ m) (rest : Bytes) :
    getline (m ++ lf :: rest) = some (m ++ [lf], rest) := by
  induction m with
  | nil => simp [getline]
  | cons b m ih =>
    have hb : b ≠ lf := fun h => hm (h ▸ List.mem_cons_self)
    have hrest := ih fun h => hm (List.mem_cons_of_mem _ h)
    simp [getline, hb, hrest]

theorem getline_prefix (hm : lf ∉ m) (hne : m ≠ []) (rest : Bytes) :
    ∃ more rest', getline (m ++ rest) = some (m ++ more, rest') := by
  induction m with
  | nil => exact absurd rfl hne
  | cons b m ih =>
    have hb : b ≠ lf := fun h => hm (h ▸ List.mem_cons_self)
    have hm' : lf ∉ m := fun h => hm (List.mem_cons_of_mem _ h)
    by_cases hnil : m = []
    · subst hnil
      cases hr : getline rest with
      | none => exact ⟨[], [], by simp [getline, hb, hr]⟩
      | some r => exact ⟨r.1, r.2, by simp [getline, hb, hr]⟩
    · obtain ⟨more, rest', h⟩ := ih hm' hnil
      exact ⟨more, rest', by simp [getline, hb, h]⟩

theorem cString_of_noZero (h : (0 : UInt8) ∉ m) : cString m = m := by
  rw [cString, List.takeWhile_eq_self_iff]
  intro b hb
  simp only [bne_iff_ne]
  exact fun h0 => h (h0 ▸ hb)

theorem cString_append (h : (0 : UInt8) ∉ m) : cString (m ++ rest) = m ++ cString rest := by
  rw [cString, List.takeWhile_append_of_pos]
  · rfl
  · intro b hb
    simp only [bne_iff_ne]
    exact fun h0 => h (h0 ▸ hb)

theorem trim_append {ending : Bytes} (hzero : (0 : UInt8) ∉ m)
    (hending : ∀ b ∈ ending, b = lf ∨ b = cr) : trim (m ++ ending) = trim m := by
  have hz : (0 : UInt8) ∉ m ++ ending := by
    simp only [List.mem_append, not_or]
    refine ⟨hzero, fun h0 => ?_⟩
    rcases hending 0 h0 with h | h <;> exact absurd h (by decide)
  have hall : ∀ b ∈ ending, (b == lf || b == cr) = true := by
    intro b hb
    simpa using hending b hb
  unfold trim
  rw [cString_of_noZero hz, cString_of_noZero hzero]
  clear hz hending
  induction ending using List.reverseRecOn with
  | nil => rw [List.append_nil]
  | append_singleton ending b ih =>
    have hb := hall b (by simp)
    rw [← List.append_assoc, List.rdropWhile_concat_pos]
    · exact ih fun b' hb' => hall b' (by simp [hb'])
    · exact hb

theorem trim_eq_self (hzero : (0 : UInt8) ∉ m) (hlf : lf ∉ m) (hlast : m.getLast? ≠ some cr) :
    trim m = m := by
  unfold trim
  rw [cString_of_noZero hzero, List.rdropWhile_eq_self_iff]
  intro hne
  simp only [Bool.or_eq_true, beq_iff_eq, not_or]
  refine ⟨fun h => hlf (h ▸ List.getLast_mem hne), fun h => hlast ?_⟩
  rw [List.getLast?_eq_some_getLast hne, h]

theorem trim_ne_nil (hzero : (0 : UInt8) ∉ m) (hlf : lf ∉ m) (hvis : ∃ b ∈ m, b ≠ cr) :
    trim (m ++ rest) ≠ [] := by
  unfold trim
  rw [cString_append hzero, Ne, List.rdropWhile_eq_nil_iff]
  intro hall
  obtain ⟨b, hb, hne⟩ := hvis
  have h := hall b (List.mem_append_left _ hb)
  simp only [Bool.or_eq_true, beq_iff_eq] at h
  rcases h with h | h
  · exact hlf (h ▸ hb)
  · exact hne h

theorem trim_isPrefix (hzero : (0 : UInt8) ∉ m) (rest : Bytes) :
    trim (m ++ rest) <+: m ++ cString rest := by
  unfold trim
  rw [cString_append hzero]
  exact List.rdropWhile_prefix _ _

end Lines

theorem strtol_decimalNat (n : Nat) : strtol (32 :: decimalNat n) = min (2 ^ 63 - 1) (n : Int) := by
  have hskip : (32 :: decimalNat n).dropWhile isSpace = decimalNat n := by
    rw [List.dropWhile_cons_of_pos (by decide)]
    cases hd : decimalNat n with
    | nil => rfl
    | cons b digits =>
      have hb := byte_bounds (n := n) (b := b) (by simp [hd])
      rw [List.dropWhile_cons_of_neg]
      simp only [isSpace, Bool.or_eq_true, beq_iff_eq, Bool.and_eq_true, decide_eq_true_eq,
        UInt8.le_iff_toNat_le, not_or, not_and]
      refine ⟨fun h => ?_, fun _ => ?_⟩
      · subst h
        simp at hb
      · have : (13 : UInt8).toNat = 13 := rfl
        omega
  unfold strtol
  rw [hskip]
  split
  · next digits hd => exact absurd hd (decimalNat_ne_cons_minus n digits)
  · next digits hd =>
    have hb := byte_bounds (n := n) (b := 43) (by simp [hd])
    simp at hb
  · rw [digitsValue_decimalNat]

theorem contentLength_lengthHeader (n : Nat) :
    contentLength (lengthHeader n) = (min (2 ^ 63 - 1) (n : Int)).bmod (2 ^ 32) := by
  rw [contentLength, lengthHeader, List.drop_left, strtol_decimalNat]

variable {m rest : Bytes}
variable {headers : List Bytes}
variable {n : Nat}

theorem contentLength_of_le (h : n ≤ maxContent) : contentLength (lengthHeader n) = n := by
  have hn : (n : Int) ≤ 10485760 := by
    simpa [maxContent] using Int.ofNat_le.mpr h
  rw [contentLength_lengthHeader, min_eq_right (by omega)]
  exact Int.bmod_eq_of_le (by omega) (by omega)

theorem accepts_of_le (hpos : 0 < n) (h : n ≤ maxContent) :
    accepts (contentLength (lengthHeader n)) = true := by
  rw [contentLength_of_le h]
  simp only [accepts, Bool.and_eq_true, decide_eq_true_eq]
  omega

theorem contentLength_lt (h : maxContent < n)
    (ha : accepts (contentLength (lengthHeader n)) = true) :
    (contentLength (lengthHeader n)).toNat < n := by
  simp only [accepts, Bool.and_eq_true, decide_eq_true_eq] at ha
  omega

theorem lengthHeader_noLf (n : Nat) : lf ∉ lengthHeader n := by
  simp only [lengthHeader, List.mem_append, List.mem_cons, not_or]
  refine ⟨by decide, by decide, fun h => ?_⟩
  have := byte_bounds h
  simp [lf] at this

theorem lengthHeader_noZero (n : Nat) : (0 : UInt8) ∉ lengthHeader n := by
  simp only [lengthHeader, List.mem_append, List.mem_cons, not_or]
  refine ⟨by decide, by decide, fun h => ?_⟩
  have := byte_bounds h
  simp at this

theorem lengthHeader_getLast (n : Nat) : (lengthHeader n).getLast? ≠ some cr := by
  intro h
  have hmem : cr ∈ decimalNat n := by
    rw [lengthHeader, List.getLast?_append_cons, List.getLast?_cons] at h
    cases hd : (decimalNat n).getLast? with
    | none => exact absurd (List.getLast?_eq_none_iff.mp hd) (decimalNat_ne_nil n)
    | some b =>
      rw [hd] at h
      simp only [Option.getD_some, Option.some.injEq] at h
      exact h ▸ List.mem_of_getLast? hd
  have := byte_bounds hmem
  simp [cr] at this

theorem skipHeaders_of_getline {input line : Bytes} (h : getline input = some (line, rest)) :
    skipHeaders input = if trim line = [] then rest else skipHeaders rest := by
  rw [skipHeaders]
  split
  · next h' => rw [h] at h'; cases h'
  · next h' => rw [h] at h'; cases h'; rfl

theorem handed_nil : handed [] = [] := by
  rw [handed]
  rfl

theorem handed_of_getline {input line : Bytes} (h : getline input = some (line, rest)) :
    handed input =
      if trim line = [] then handed rest
      else if contentPrefix.isPrefixOf (trim line) then
        if accepts (contentLength (trim line)) then
          { start := (skipHeaders rest).length
            message := cString ((skipHeaders rest).take (contentLength (trim line)).toNat)
            framed := true } ::
          handed ((skipHeaders rest).drop (contentLength (trim line)).toNat)
        else handed rest
      else { start := input.length, message := trim line, framed := false } :: handed rest := by
  rw [handed]
  split
  · next h' => rw [h] at h'; cases h'
  · next h' => rw [h] at h'; cases h'; rfl

theorem getline_crlf (hm : lf ∉ m) (rest : Bytes) :
    getline (m ++ crlf ++ rest) = some (m ++ crlf, rest) := by
  have hm' : lf ∉ m ++ [cr] := by
    simp only [List.mem_append, List.mem_singleton, not_or]
    exact ⟨hm, by decide⟩
  simpa [crlf] using getline_append hm' rest

theorem mem_crlf : ∀ b ∈ crlf, b = lf ∨ b = cr := by
  simp [crlf]

theorem skipHeaders_headerLines (rest : Bytes) : ∀ headers : List Bytes,
    (∀ h ∈ headers, IsText h) → skipHeaders (headerLines headers ++ rest) = rest
  | [], _ => by
    have h := getline_crlf (m := []) (by simp) rest
    rw [headerLines]
    simp only [List.map_nil, List.flatten_nil, List.nil_append] at h ⊢
    rw [skipHeaders_of_getline h, if_pos (by decide)]
  | header :: headers, hall => by
    have ht := hall header List.mem_cons_self
    have h := getline_crlf ht.noLf (headerLines headers ++ rest)
    have he : headerLines (header :: headers) ++ rest =
        header ++ crlf ++ (headerLines headers ++ rest) := by
      simp [headerLines]
    rw [he, skipHeaders_of_getline h, if_neg (trim_ne_nil ht.noZero ht.noLf ht.visible)]
    exact skipHeaders_headerLines rest headers fun h hh => hall h (List.mem_cons_of_mem _ hh)

theorem handed_line {withCr : Bool} (h : (Frame.line m withCr).Sent) :
    handed ((Frame.line m withCr).encode ++ rest) =
      { start := ((Frame.line m withCr).encode ++ rest).length, message := m, framed := false } ::
        handed rest := by
  obtain ⟨ht, hlast⟩ := h
  have hline : ∃ ending, (∀ b ∈ ending, b = lf ∨ b = cr) ∧
      getline ((Frame.line m withCr).encode ++ rest) = some (m ++ ending, rest) := by
    cases withCr with
    | true => exact ⟨crlf, mem_crlf, getline_crlf ht.noLf rest⟩
    | false =>
      refine ⟨[lf], by simp, ?_⟩
      simpa [Frame.encode] using getline_append ht.noLf rest
  obtain ⟨ending, hending, hget⟩ := hline
  have htrim : trim (m ++ ending) = m := by
    rw [trim_append ht.noZero hending, trim_eq_self ht.noZero ht.noLf hlast]
  have hpre : contentPrefix.isPrefixOf m = false := by
    rw [← Bool.not_eq_true, List.isPrefixOf_iff_prefix]
    exact ht.noHeader
  rw [handed_of_getline hget, htrim, if_neg ht.ne_nil, if_neg (by simp [hpre])]

theorem handed_lengthHeader (n : Nat) (rest : Bytes) :
    handed (lengthHeader n ++ crlf ++ rest) =
      if accepts (contentLength (lengthHeader n)) then
        { start := (skipHeaders rest).length
          message := cString ((skipHeaders rest).take (contentLength (lengthHeader n)).toNat)
          framed := true } ::
        handed ((skipHeaders rest).drop (contentLength (lengthHeader n)).toNat)
      else handed rest := by
  have htrim : trim (lengthHeader n ++ crlf) = lengthHeader n := by
    rw [trim_append (lengthHeader_noZero n) mem_crlf,
      trim_eq_self (lengthHeader_noZero n) (lengthHeader_noLf n) (lengthHeader_getLast n)]
  have hpre : contentPrefix.isPrefixOf (lengthHeader n) = true := by
    rw [List.isPrefixOf_iff_prefix]
    exact List.prefix_append _ _
  rw [handed_of_getline (getline_crlf (lengthHeader_noLf n) rest), htrim,
    if_neg (by simp [lengthHeader]), if_pos hpre]

theorem handed_block (h : (Frame.block m headers).Sent) (hle : m.length ≤ maxContent) :
    handed ((Frame.block m headers).encode ++ rest) =
      { start := m.length + rest.length, message := m, framed := true } :: handed rest := by
  obtain ⟨ht, hheaders⟩ := h
  have hpos : 0 < m.length := List.length_pos_iff.mpr ht.ne_nil
  have he : (Frame.block m headers).encode ++ rest =
      lengthHeader m.length ++ crlf ++ (headerLines headers ++ (m ++ rest)) := by
    simp [Frame.encode]
  rw [he, handed_lengthHeader, if_pos (accepts_of_le hpos hle),
    skipHeaders_headerLines _ headers hheaders, contentLength_of_le hle]
  simp [cString_of_noZero ht.noZero]

theorem handed_rejected (rest : Bytes) (h : (Frame.block m headers).Sent)
    (hlong : contentPrefix.length ≤ m.length) :
    ∃ e es, handed (headerLines headers ++ (m ++ rest)) = e :: es ∧
      m.length + rest.length ≤ e.start := by
  obtain ⟨ht, hheaders⟩ := h
  cases headers with
  | nil =>
    have hblank := getline_crlf (m := []) (by simp) (m ++ rest)
    have he : headerLines [] ++ (m ++ rest) = [] ++ crlf ++ (m ++ rest) := rfl
    obtain ⟨more, rest', hget⟩ := getline_prefix ht.noLf ht.ne_nil rest
    -- the header would have to lie within the message
    have hpre : contentPrefix.isPrefixOf (trim (m ++ more)) = false := by
      rw [← Bool.not_eq_true, List.isPrefixOf_iff_prefix]
      intro hp
      exact ht.noHeader (List.prefix_of_prefix_length_le (hp.trans (trim_isPrefix ht.noZero more))
        (List.prefix_append _ _) hlong)
    rw [he, handed_of_getline hblank, if_pos (by decide), handed_of_getline hget,
      if_neg (trim_ne_nil ht.noZero ht.noLf ht.visible), if_neg (by simp [hpre])]
    exact ⟨_, _, rfl, by simp⟩
  | cons header headers =>
    have hh := hheaders header List.mem_cons_self
    have hget := getline_crlf hh.noLf (headerLines headers ++ (m ++ rest))
    have he : headerLines (header :: headers) ++ (m ++ rest) =
        header ++ crlf ++ (headerLines headers ++ (m ++ rest)) := by
      simp [headerLines]
    have hpre : contentPrefix.isPrefixOf (trim (header ++ crlf)) = false := by
      rw [← Bool.not_eq_true, List.isPrefixOf_iff_prefix, trim_append hh.noZero mem_crlf]
      intro hp
      have := trim_isPrefix hh.noZero []
      simp only [List.append_nil] at this
      exact hh.noHeader (hp.trans (by simpa [cString] using this))
    rw [he, handed_of_getline hget, if_neg (trim_ne_nil hh.noZero hh.noLf hh.visible),
      if_neg (by simp [hpre])]
    refine ⟨_, _, rfl, ?_⟩
    simp only [List.length_append]
    omega

theorem start_le_of_mem_places : ∀ (frames : List Frame) (e : Handed), e ∈ places frames →
    e.start ≤ (encodeAll frames).length
  | [], e, h => by cases h
  | .line m withCr :: rest, e, h => by
    rw [places, List.mem_cons] at h
    rcases h with rfl | h
    · exact le_rfl
    · have := start_le_of_mem_places rest e h
      simp only [encodeAll, List.map_cons, List.flatten_cons, List.length_append] at this ⊢
      omega
  | .block m headers :: rest, e, h => by
    have hrest : ∀ e ∈ places rest, e.start ≤ (encodeAll (.block m headers :: rest)).length := by
      intro e he
      have := start_le_of_mem_places rest e he
      simp only [encodeAll, List.map_cons, List.flatten_cons, List.length_append] at this ⊢
      omega
    rw [places] at h
    split at h
    · rcases List.mem_cons.mp h with rfl | h
      · simp only [encodeAll, List.map_cons, List.flatten_cons, List.length_append, Frame.encode]
        omega
      · exact hrest e h
    · exact hrest e h

theorem not_inStep_of_long {rest : List Frame} (h : (Frame.block m headers).Sent)
    (hlong : maxContent < m.length) : ¬ InStep (.block m headers :: rest) := by
  intro hstep
  have he : encodeAll (.block m headers :: rest) =
      lengthHeader m.length ++ crlf ++ (headerLines headers ++ (m ++ encodeAll rest)) := by
    simp [encodeAll, Frame.encode]
  rw [InStep, he, handed_lengthHeader, places] at hstep
  by_cases ha : accepts (contentLength (lengthHeader m.length)) = true
  · -- the length was cut to 32 bits: the message is cut short
    have hlt := contentLength_lt hlong ha
    rw [if_pos ha, if_pos ha, skipHeaders_headerLines _ headers h.2] at hstep
    have hmsg := congrArg (fun l => (l.head?.map fun e => e.message.length)) hstep
    simp only [List.head?_cons, Option.map_some, Option.some.injEq] at hmsg
    have hle : (cString ((m ++ encodeAll rest).take
        (contentLength (lengthHeader m.length)).toNat)).length ≤
        (contentLength (lengthHeader m.length)).toNat := by
      refine (List.takeWhile_prefix _).length_le.trans ?_
      rw [List.length_take]
      exact Nat.min_le_left _ _
    omega
  · -- the rest of the block is read as lines
    have hlen : contentPrefix.length ≤ m.length := by
      have : contentPrefix.length = 15 := by decide
      have : maxContent = 10485760 := rfl
      omega
    obtain ⟨e, es, hhand, hstart⟩ := handed_rejected (encodeAll rest) h hlen
    rw [if_neg ha, if_neg ha, hhand] at hstep
    have hmem : e ∈ places rest := hstep ▸ List.mem_cons_self
    have hle := start_le_of_mem_places rest e hmem
    omega

theorem inStep_cons_iff {f : Frame} {rest : List Frame} {e : Handed}
    (hh : handed (encodeAll (f :: rest)) = e :: handed (encodeAll rest))
    (hp : places (f :: rest) = e :: places rest) : InStep (f :: rest) ↔ InStep rest := by
  rw [InStep, InStep, hh, hp]
  exact ⟨fun h => (List.cons.inj h).2, fun h => by rw [h]⟩

def emptyObject : Bytes := [123, 125]

theorem isText_emptyObject : IsText emptyObject where
  noLf := by decide
  noZero := by decide
  visible := ⟨123, by decide, by decide⟩
  noHeader := by decide

/-- The empty object with `n` blanks after it. -/
def paddedObject (n : Nat) : Bytes :=
  emptyObject ++ List.replicate n 32

theorem mem_paddedObject {b : UInt8} (h : b ∈ paddedObject n) : b = 123 ∨ b = 125 ∨ b = 32 := by
  rcases List.mem_append.mp h with h | h
  · simp only [emptyObject, List.mem_cons, List.not_mem_nil, or_false] at h
    exact h.imp_right Or.inl
  · exact Or.inr (Or.inr (List.eq_of_mem_replicate h))

theorem isText_paddedObject (n : Nat) : IsText (paddedObject n) where
  noLf := fun h => absurd (mem_paddedObject h) (by decide)
  noZero := fun h => absurd (mem_paddedObject h) (by decide)
  visible := ⟨123, by simp [paddedObject, emptyObject], by decide⟩
  noHeader := by
    intro h
    have hmem := h.subset (show (67 : UInt8) ∈ contentPrefix by decide)
    exact absurd (mem_paddedObject hmem) (by decide)

/-- A block of two bytes more than the limit, and a line after it. -/
def overLimit : List Frame :=
  [.block (paddedObject maxContent) [], .line emptyObject false]

end Mcp
end CodebaseMemory
