import CodebaseMemory.Http.Head
import CodebaseMemory.Lib.Decimal

/-!
# Header fields and lines

A head is a sequence of lines, each with a carriage return and a line feed at its end.
`cbm_http_parse_head` cuts it at the carriage returns and passes over the byte behind each.
-/

namespace CodebaseMemory
namespace Http

open Sqlite (bytesOf)

section Lines

/-- The text between the line ends. -/
def crlfLines : Bytes → List Bytes
  | [] => [[]]
  | 13 :: 10 :: rest => [] :: crlfLines rest
  | c :: rest =>
      match crlfLines rest with
      | [] => [[c]]
      | line :: lines => (c :: line) :: lines

/-- The lines that the loop over the header fields cuts off from `p` on. -/
def loopLines (p : Bytes) : List Bytes :=
  if _h : p = [] then []
  else p.takeWhile (· != cr) :: loopLines (p.drop ((p.takeWhile (· != cr)).length + 2))
termination_by p.length
decreasing_by
  have := List.length_pos_of_ne_nil _h
  simp only [List.length_drop]
  omega

/-- The lines that `cbm_http_parse_head` takes: the request line and the header lines. -/
def parsedLines (head : Bytes) : List Bytes :=
  let rest := head.drop ((head.takeWhile (· != cr)).length + 2)
  head.takeWhile (· != cr) :: loopLines (rest.take (rest.length - 2))

/-- Every carriage return has a line feed behind it. -/
def NoLoneCr (s : Bytes) : Prop :=
  ∀ a b, s = a ++ cr :: b → b.head? = some lf

theorem headerLoop_eq (fields : Fields) (p : Bytes) :
    headerLoop fields p = (loopLines p).foldlM headerField fields := by
  induction hlen : p.length using Nat.strongRecOn generalizing fields p with
  | ind n ih =>
      rw [headerLoop, loopLines]
      split
      · rfl
      · next hne =>
          have hpos := List.length_pos_of_ne_nil hne
          rw [List.foldlM_cons]
          refine bind_congr fun fields' => ih _ ?_ fields' _ rfl
          rw [List.length_drop]
          omega

theorem cr_notMem_loopLines (p : Bytes) : ∀ line ∈ loopLines p, cr ∉ line := by
  induction hlen : p.length using Nat.strongRecOn generalizing p with
  | ind n ih =>
      intro line hline hcr
      rw [loopLines] at hline
      split at hline
      · exact absurd hline List.not_mem_nil
      · next hne =>
          have hpos := List.length_pos_of_ne_nil hne
          rcases List.mem_cons.mp hline with rfl | hline
          · exact absurd (List.mem_takeWhile_imp hcr) (by decide)
          · refine ih _ ?_ _ rfl line hline hcr
            rw [List.length_drop]
            omega

theorem cr_notMem_parsedLines {head line : Bytes} (h : line ∈ parsedLines head) : cr ∉ line := by
  rcases List.mem_cons.mp h with rfl | h
  · intro hcr
    exact absurd (List.mem_takeWhile_imp hcr) (by decide)
  · exact cr_notMem_loopLines _ line h

theorem crlfLines_ne_nil (s : Bytes) : crlfLines s ≠ [] := by
  rw [crlfLines.eq_def]
  split
  · exact List.cons_ne_nil _ _
  · exact List.cons_ne_nil _ _
  · split
    · exact List.cons_ne_nil _ _
    · exact List.cons_ne_nil _ _

theorem crlfLines_cons {c : UInt8} {s line : Bytes} {lines : List Bytes} (hc : c ≠ cr)
    (h : crlfLines s = line :: lines) : crlfLines (c :: s) = (c :: line) :: lines := by
  rw [crlfLines, h]
  rintro rest rfl
  exact absurd rfl hc

theorem crlfLines_append {line : Bytes} (h : cr ∉ line) (rest : Bytes) :
    crlfLines (line ++ cr :: lf :: rest) = line :: crlfLines rest := by
  induction line with
  | nil => rfl
  | cons c line ih =>
      rw [List.mem_cons, not_or] at h
      exact crlfLines_cons (Ne.symm h.1) (ih h.2)

theorem noLoneCr_of_lines {s : Bytes} (h : ∀ line ∈ crlfLines s, cr ∉ line) : NoLoneCr s := by
  induction s using crlfLines.induct with
  | case1 => exact fun a b hab => absurd hab (by simp)
  | case2 rest ih =>
      intro a b hab
      match a, hab with
      | [], hab =>
          obtain rfl : b = 10 :: rest := (List.cons.inj hab).2.symm
          rfl
      | [_], hab =>
          have hlf := (List.cons.inj (List.cons.inj hab).2).1
          exact absurd hlf (by decide)
      | _ :: _ :: a, hab =>
          exact ih (fun line hline => h line (List.mem_cons_of_mem _ hline)) a b
            (List.cons.inj (List.cons.inj hab).2).2
  | case3 c rest hcrlf hnil ih => exact absurd hnil (crlfLines_ne_nil rest)
  | case4 c rest hcrlf line lines hlines ih =>
      have hsplit : crlfLines (c :: rest) = (c :: line) :: lines := by
        rw [crlfLines, hlines]
        exact hcrlf
      rw [hsplit] at h
      rw [hlines] at ih
      have hfirst := h (c :: line) List.mem_cons_self
      rw [List.mem_cons, not_or] at hfirst
      intro a b hab
      cases a with
      | nil => exact absurd (List.cons.inj hab).1.symm hfirst.1
      | cons d a =>
          refine ih (fun l hl => ?_) a b (List.cons.inj hab).2
          rcases List.mem_cons.mp hl with rfl | hl
          · exact hfirst.2
          · exact h l (List.mem_cons_of_mem _ hl)

theorem noLoneCr_of_append {a b : Bytes} (h : NoLoneCr (a ++ b)) : NoLoneCr b := by
  rintro a' b' rfl
  exact h (a ++ a') b' (by rw [List.append_assoc])

theorem exists_first_line {s : Bytes} (hno : NoLoneCr s) (hcr : cr ∈ s) :
    ∃ rest, s = s.takeWhile (· != cr) ++ cr :: lf :: rest ∧ cr ∉ s.takeWhile (· != cr) := by
  have hnot : cr ∉ s.takeWhile (· != cr) := fun h =>
    absurd (List.mem_takeWhile_imp h) (by decide)
  cases hdrop : s.dropWhile (· != cr) with
  | nil =>
      have hall := List.dropWhile_eq_nil_iff.mp hdrop cr hcr
      exact absurd hall (by decide)
  | cons c t =>
      have hc : c = cr := by
        have hhead := List.head?_dropWhile_not (· != cr) s
        rw [hdrop] at hhead
        simpa using hhead
      subst hc
      have hs : s = s.takeWhile (· != cr) ++ cr :: t := by
        rw [← hdrop, List.takeWhile_append_dropWhile]
      obtain ⟨rest, rfl⟩ : ∃ rest, t = lf :: rest := by
        have hhead := hno _ t hs
        cases t with
        | nil => exact absurd hhead (by simp)
        | cons d rest => exact ⟨rest, by rw [Option.some.inj hhead]⟩
      exact ⟨rest, hs, hnot⟩

theorem crlfLines_loop {r : Bytes} (hno : NoLoneCr r) (hend : r = [] ∨ [lf, cr] <+: r.reverse) :
    crlfLines (r ++ [cr, lf]) = loopLines r ++ [[], []] := by
  induction hlen : r.length using Nat.strongRecOn generalizing r with
  | ind n ih =>
      rw [loopLines]
      split
      · next hnil => rw [hnil]; rfl
      · next hne =>
          have hend := hend.resolve_left hne
          have hcr : cr ∈ r := List.mem_reverse.mp (hend.subset (by decide))
          obtain ⟨rest, hr, hline⟩ := exists_first_line hno hcr
          generalize r.takeWhile (· != cr) = line at hr hline ⊢
          have hdrop : r.drop (line.length + 2) = rest := by
            rw [hr, ← List.drop_drop, List.drop_left]
            rfl
          have hrest : rest = [] ∨ [lf, cr] <+: rest.reverse := by
            rw [hr, List.reverse_append, List.reverse_cons, List.reverse_cons] at hend
            cases hrev : rest.reverse with
            | nil => exact Or.inl (List.reverse_eq_nil_iff.mp hrev)
            | cons a tail =>
                rw [hrev] at hend
                cases tail with
                | nil =>
                    -- the line feed of this line would be a carriage return
                    simp only [List.cons_append, List.nil_append, List.cons_prefix_cons] at hend
                    exact absurd hend.2.1 (by decide)
                | cons b tail =>
                    simp only [List.cons_append, List.cons_prefix_cons] at hend
                    refine Or.inr ?_
                    rw [← hend.1, ← hend.2.1]
                    exact ⟨tail, rfl⟩
          have hlt : rest.length < n := by
            rw [← hlen, hr, List.length_append, List.length_cons, List.length_cons]
            omega
          have hnorest : NoLoneCr rest := by
            rw [hr] at hno
            exact noLoneCr_of_append (a := [cr, lf]) (noLoneCr_of_append hno)
          rw [hdrop, List.cons_append, ← ih _ hlt hnorest hrest rfl, hr, List.append_assoc,
            List.cons_append, List.cons_append, crlfLines_append hline]

theorem take_succ_getD {data : Bytes} {k : Nat} {c : UInt8} (h : data.getD k 0 = c)
    (hc : c ≠ 0) : data.take (k + 1) = data.take k ++ [c] := by
  have hlt : k < data.length := by
    by_contra hge
    rw [List.getD_eq_default _ _ (not_lt.mp hge)] at h
    exact hc h.symm
  rw [List.take_succ_eq_append_getElem hlt, ← h, List.getD_eq_getElem _ _ hlt]

theorem scanLoop_head {data : Bytes} {n i stop : Nat} (h : scanLoop data n i = .head stop) :
    ∃ x, data.take stop = x ++ [cr, lf, cr, lf] := by
  induction n generalizing i with
  | zero => cases h
  | succ n ih =>
      simp only [scanLoop] at h
      split at h
      · cases h
      · split at h
        · cases h
        · next hbare =>
            split at h
            · next hstop =>
                obtain ⟨hlf, h3, hcr, hlf'⟩ := hstop
                have hcr' : data.getD (i - 1) 0 = cr := by
                  by_contra hne
                  exact hbare ⟨hlf, Or.inr hne⟩
                obtain ⟨j, rfl⟩ : ∃ j, i = j + 3 := ⟨i - 3, by omega⟩
                cases h
                refine ⟨data.take j, ?_⟩
                have h₀ : data.getD j 0 = cr := hcr
                have h₁ : data.getD (j + 1) 0 = lf := hlf'
                have h₂ : data.getD (j + 2) 0 = cr := hcr'
                rw [take_succ_getD hlf (by decide), take_succ_getD h₂ (by decide),
                  take_succ_getD h₁ (by decide), take_succ_getD h₀ (by decide)]
                simp only [List.append_assoc, List.cons_append, List.nil_append]
            · exact ih h

theorem crlfLines_head {head x : Bytes} (hhead : head = x ++ [cr, lf, cr, lf])
    (hno : NoLoneCr head) : crlfLines head = parsedLines head ++ [[], []] := by
  have hcr : cr ∈ head := by rw [hhead]; simp
  obtain ⟨t, ht, hline⟩ := exists_first_line hno hcr
  rw [parsedLines]
  generalize head.takeWhile (· != cr) = line at ht hline ⊢
  have hdrop : head.drop (line.length + 2) = t := by
    rw [ht, ← List.drop_drop, List.drop_left]
    rfl
  -- the end of the head is behind the request line, or it is the end of the request line too
  have hend : ∃ r, t = r ++ [cr, lf] ∧ (r = [] ∨ [lf, cr] <+: r.reverse) := by
    have hrev : [lf, cr, lf, cr] <+: head.reverse := by
      rw [hhead, List.reverse_append]
      exact List.prefix_append _ _
    rw [ht, List.reverse_append, List.reverse_cons, List.reverse_cons] at hrev
    cases htail : t.reverse with
    | nil =>
        rw [htail] at hrev
        simp only [List.cons_append, List.nil_append, List.cons_prefix_cons, true_and] at hrev
        exact absurd (List.mem_reverse.mp (hrev.subset (by decide : cr ∈ [lf, cr]))) hline
    | cons a t₁ =>
        cases t₁ with
        | nil =>
            rw [htail] at hrev
            simp only [List.cons_append, List.nil_append, List.cons_prefix_cons] at hrev
            exact absurd hrev.2.1 (by decide)
        | cons b t₂ =>
            rw [htail] at hrev
            simp only [List.cons_append, List.cons_prefix_cons] at hrev
            obtain ⟨rfl, rfl, hrev⟩ := hrev
            refine ⟨t₂.reverse, ?_, ?_⟩
            · rw [← List.reverse_reverse t, htail]
              simp
            · rw [List.reverse_reverse]
              cases t₂ with
              | nil => exact Or.inl rfl
              | cons c t₃ =>
                  cases t₃ with
                  | nil =>
                      simp only [List.cons_append, List.nil_append, List.cons_prefix_cons] at hrev
                      exact absurd hrev.2.1 (by decide)
                  | cons d t₄ =>
                      simp only [List.cons_append, List.cons_prefix_cons] at hrev
                      refine Or.inr ?_
                      rw [← hrev.1, ← hrev.2.1]
                      exact ⟨t₄, rfl⟩
  obtain ⟨r, hr, hrend⟩ := hend
  have hnot : NoLoneCr t := by
    rw [ht] at hno
    exact noLoneCr_of_append (a := [cr, lf]) (noLoneCr_of_append hno)
  have hnor : NoLoneCr r := by
    intro a b hab
    have hlf := hnot a (b ++ [cr, lf]) (by rw [hr, hab, List.append_assoc, List.cons_append])
    cases b with
    | nil => exact absurd hlf (by decide)
    | cons c b => exact hlf
  rw [hdrop, ht, crlfLines_append hline, hr, crlfLines_loop hnor hrend, List.length_append,
    List.length_cons, List.length_singleton, Nat.add_sub_cancel, List.take_left]
  rfl

end Lines

section Fields

/-- The name of a header line, in lower case. -/
def lineName (line : Bytes) : Bytes :=
  (line.takeWhile (· != colon)).map toLower

def lineValue (line : Bytes) : Bytes :=
  ((line.drop ((line.takeWhile (· != colon)).length + 1)).dropWhile isBlank).rdropWhile isBlank

/-- The value of the last header line with the name `origin`. -/
def originOf (lines : List Bytes) : Bytes :=
  ((lines.filter fun line => lineName line == bytesOf "origin").getLast?.map lineValue).getD []

def headerLines (head : Bytes) : List Bytes :=
  ((crlfLines head).drop 1).dropLast.dropLast

def IsNumber (value : Bytes) (n : Nat) : Prop :=
  value ≠ [] ∧ (∀ c ∈ value, isDigit c = true) ∧ Lib.digitsValue 0 value = n

/-- The request was made of the lines of its head. -/
structure StrictFields (head : Bytes) (result : Head) : Prop where
  /-- The parser takes these lines: none of them begins behind a lone carriage return. -/
  lines : crlfLines head = parsedLines head ++ [[], []]
  origin : result.request.origin = originOf (headerLines head)
  contentLength : ∀ line ∈ headerLines head, lineName line = bytesOf "content-length" →
    IsNumber (lineValue line) result.contentLength
  noLength : (∀ line ∈ headerLines head, lineName line ≠ bytesOf "content-length") →
    result.contentLength = 0
  noEncoding : ∀ line ∈ headerLines head, lineName line ≠ bytesOf "transfer-encoding"

theorem headerNameIs_iff (line name : Bytes) :
    headerNameIs line name = true ↔ line.map toLower = name := by
  induction line generalizing name with
  | nil =>
      rw [headerNameIs, beq_iff_eq, List.map_nil]
      exact eq_comm
  | cons c line ih =>
      cases name with
      | nil => exact ⟨fun h => absurd h (by simp [headerNameIs]), fun h => absurd h (by simp)⟩
      | cons n name =>
          rw [headerNameIs, Bool.and_eq_true, beq_iff_eq, ih, List.map_cons, List.cons.injEq]

theorem splitByte_eq {c : UInt8} {s a b : Bytes} (h : splitByte c s = some (a, b)) :
    a = s.takeWhile (· != c) ∧ b = s.drop ((s.takeWhile (· != c)).length + 1) := by
  induction s generalizing a with
  | nil => exact absurd h (by simp [splitByte])
  | cons x s ih =>
      rw [splitByte] at h
      by_cases hx : x = c
      · rw [if_pos hx, Option.some.injEq, Prod.mk.injEq] at h
        rw [List.takeWhile_cons_of_neg (by simp [hx])]
        exact ⟨h.1.symm, h.2.symm⟩
      · rw [if_neg hx] at h
        obtain ⟨⟨a', b'⟩, hsplit, heq⟩ := Option.map_eq_some_iff.mp h
        simp only [Prod.mk.injEq] at heq
        obtain ⟨rfl, rfl⟩ := heq
        obtain ⟨ha, hb⟩ := ih hsplit
        rw [List.takeWhile_cons_of_pos (by simp [hx]), ← ha]
        exact ⟨rfl, by rw [hb, ← ha]; rfl⟩

theorem contentLengthLoop_ok {value : Bytes} {cl n : Nat}
    (h : contentLengthLoop cl value = .ok n) :
    (∀ c ∈ value, isDigit c = true) ∧ Lib.digitsValue cl value = n := by
  induction value generalizing cl with
  | nil => exact ⟨fun c hc => absurd hc List.not_mem_nil, Except.ok.inj h⟩
  | cons v rest ih =>
      rw [contentLengthLoop] at h
      split at h
      · next hdigit =>
          split at h
          · cases h
          · obtain ⟨hrest, hvalue⟩ := ih h
            refine ⟨fun c hc => ?_, ?_⟩
            · rcases List.mem_cons.mp hc with rfl | hc
              · exact hdigit
              · exact hrest c hc
            · simp only [isDigit, Bool.and_eq_true, decide_eq_true_eq] at hdigit
              rw [Lib.digitsValue, if_pos hdigit, hvalue]
      · cases h

/-- What `copy_header_value` leaves in the buffer for the origin. -/
def copiedOrigin (line : Bytes) : Bytes :=
  if originSize ≤ (lineValue line).length then [] else lineValue line

variable {fields fields' : Fields}

theorem headerField_ok {line : Bytes} (h : headerField fields line = .ok fields') :
    (lineName line = bytesOf "origin" ∧ fields' = { fields with origin := copiedOrigin line }) ∨
    (lineName line = bytesOf "content-length" ∧
      (∃ n, IsNumber (lineValue line) n ∧ fields.contentLength.all (· == n) = true ∧
        fields' = { fields with contentLength := some n })) ∨
    (lineName line ≠ bytesOf "origin" ∧ lineName line ≠ bytesOf "content-length" ∧
      lineName line ≠ bytesOf "transfer-encoding" ∧ fields' = fields) := by
  rw [headerField] at h
  cases hsplit : splitByte colon line with
  | none =>
      rw [hsplit] at h
      cases h
  | some x =>
      obtain ⟨name, value⟩ := x
      obtain ⟨hname, hvalue⟩ := splitByte_eq hsplit
      have hline : name.map toLower = lineName line := by rw [hname, lineName]
      have hcopy : ∀ size, copyHeaderValue value size =
          if size ≤ (lineValue line).length then [] else lineValue line := fun size => by
        rw [copyHeaderValue, hvalue, lineValue]
      rw [hsplit] at h
      simp only [Option.elim_some, bind, Except.bind, headerNameIs_iff, hline, hcopy] at h
      split at h
      · next horigin => exact Or.inl ⟨horigin, (Except.ok.inj h).symm⟩
      · next horigin =>
          split at h
          · cases h
          · next hencoding =>
              split at h
              · next hlength =>
                  refine Or.inr (Or.inl ⟨hlength, ?_⟩)
                  -- the value has room in its buffer, and is a number
                  have hval : (if 32 ≤ (lineValue line).length then [] else lineValue line) ≠ [] →
                      (if 32 ≤ (lineValue line).length then [] else lineValue line) =
                        lineValue line := by
                    split
                    · exact fun hne => absurd rfl hne
                    · exact fun _ => rfl
                  generalize (if 32 ≤ (lineValue line).length then [] else lineValue line) = v
                    at h hval
                  by_cases hne : v = []
                  · rw [hne] at h
                    cases h
                  obtain rfl := hval hne
                  rw [require, if_pos (by simpa using hne)] at h
                  dsimp only at h
                  cases hloop : contentLengthLoop 0 (lineValue line) with
                  | error status =>
                      rw [hloop] at h
                      cases h
                  | ok n =>
                      rw [hloop] at h
                      dsimp only at h
                      obtain ⟨hdigits, hvalue⟩ := contentLengthLoop_ok hloop
                      cases hsame : fields.contentLength.all (· == n) with
                      | false =>
                          rw [hsame] at h
                          cases h
                      | true =>
                          rw [hsame] at h
                          exact ⟨n, ⟨hne, hdigits, hvalue⟩, hsame, (Except.ok.inj h).symm⟩
              · next hlength =>
                  exact Or.inr (Or.inr ⟨horigin, hlength, hencoding, (Except.ok.inj h).symm⟩)

theorem bytesOf_names : bytesOf "origin" ≠ bytesOf "content-length" ∧
    bytesOf "origin" ≠ bytesOf "transfer-encoding" ∧
    bytesOf "content-length" ≠ bytesOf "transfer-encoding" := by
  decide

theorem headerFields_ok {lines : List Bytes} (h : lines.foldlM headerField fields = .ok fields') :
    fields'.origin = ((lines.filter fun line => lineName line == bytesOf "origin").getLast?.map
      copiedOrigin).getD fields.origin ∧
    (∀ n, fields.contentLength = some n → fields'.contentLength = some n) ∧
    (∀ line ∈ lines, lineName line = bytesOf "content-length" →
      ∃ n, IsNumber (lineValue line) n ∧ fields'.contentLength = some n) ∧
    ((∀ line ∈ lines, lineName line ≠ bytesOf "content-length") →
      fields'.contentLength = fields.contentLength) ∧
    ∀ line ∈ lines, lineName line ≠ bytesOf "transfer-encoding" := by
  induction lines generalizing fields with
  | nil =>
      obtain rfl := Except.ok.inj h
      exact ⟨rfl, fun n hn => hn, fun line hline => absurd hline List.not_mem_nil, fun _ => rfl,
        fun line hline => absurd hline List.not_mem_nil⟩
  | cons line lines ih =>
      obtain ⟨hne₁, hne₂, hne₃⟩ := bytesOf_names
      rw [List.foldlM_cons] at h
      cases hstep : headerField fields line with
      | error status =>
          rw [hstep] at h
          cases h
      | ok next =>
          rw [hstep] at h
          obtain ⟨horigin, hkeep, hlength, hnone, hencoding⟩ := ih h
          rcases headerField_ok hstep with ⟨hname, rfl⟩ | ⟨hname, n, hn, hsame, rfl⟩ |
            ⟨hno₁, hno₂, hno₃, rfl⟩
          · refine ⟨?_, hkeep, ?_, ?_, ?_⟩
            · rw [horigin, List.filter_cons_of_pos (by simp [hname]), List.getLast?_cons]
              cases (lines.filter fun line => lineName line == bytesOf "origin").getLast? with
              | none => rfl
              | some last => rfl
            · intro l hl hcl
              rcases List.mem_cons.mp hl with rfl | hl
              · exact absurd (hname.symm.trans hcl) hne₁
              · exact hlength l hl hcl
            · exact fun hall => hnone fun l hl => hall l (List.mem_cons_of_mem _ hl)
            · intro l hl
              rcases List.mem_cons.mp hl with rfl | hl
              · rw [hname]
                exact hne₂
              · exact hencoding l hl
          · refine ⟨?_, fun m hm => ?_, ?_, ?_, ?_⟩
            · rw [horigin, List.filter_cons_of_neg (by simpa [hname] using Ne.symm hne₁)]
            · rw [hm, Option.all_some, beq_iff_eq] at hsame
              rw [hsame]
              exact hkeep n rfl
            · intro l hl hcl
              rcases List.mem_cons.mp hl with rfl | hl
              · exact ⟨n, hn, hkeep n rfl⟩
              · exact hlength l hl hcl
            · exact fun hall => absurd hname (hall line List.mem_cons_self)
            · intro l hl
              rcases List.mem_cons.mp hl with rfl | hl
              · rw [hname]
                exact hne₃
              · exact hencoding l hl
          · refine ⟨?_, hkeep, ?_, ?_, ?_⟩
            · rw [horigin, List.filter_cons_of_neg (by simpa using hno₁)]
            · intro l hl hcl
              rcases List.mem_cons.mp hl with rfl | hl
              · exact absurd hcl hno₂
              · exact hlength l hl hcl
            · exact fun hall => hnone fun l hl => hall l (List.mem_cons_of_mem _ hl)
            · intro l hl
              rcases List.mem_cons.mp hl with rfl | hl
              · exact hno₃
              · exact hencoding l hl

theorem parseFields_ok {head : Bytes} {result : Head} (h : parseFields head = .ok result) :
    result.bodyOffset = head.length ∧
    ∃ fields, (parsedLines head).tail.foldlM headerField
        { origin := [], contentLength := none } = .ok fields ∧
      result.request.origin = fields.origin ∧
      result.contentLength = fields.contentLength.getD 0 := by
  rw [parseFields] at h
  cases hsplit : splitByte cr head with
  | none =>
      rw [hsplit] at h
      cases h
  | some x =>
      obtain ⟨line, rest⟩ := x
      obtain ⟨hline, hrest⟩ := splitByte_eq hsplit
      have htail : rest.tail = head.drop ((head.takeWhile (· != cr)).length + 2) := by
        rw [hrest, List.tail_drop]
      rw [hsplit] at h
      simp only [Option.elim_some, bind, Except.bind] at h
      cases hrequest : parseRequestLine line with
      | error status =>
          rw [hrequest] at h
          cases h
      | ok request =>
          rw [hrequest] at h
          dsimp only at h
          cases hloop : headerLoop { origin := [], contentLength := none }
              (rest.tail.take (rest.tail.length - 2)) with
          | error status =>
              rw [hloop] at h
              cases h
          | ok fields =>
              rw [hloop] at h
              obtain rfl := Except.ok.inj h
              refine ⟨rfl, fields, ?_, rfl, rfl⟩
              rw [← hloop, headerLoop_eq, htail]
              rfl

theorem parseHead_ok {data : Bytes} {result : Head} (h : parseHead data = some (.ok result)) :
    (∃ x, data.take result.bodyOffset = x ++ [cr, lf, cr, lf]) ∧
    ∃ fields, (parsedLines (data.take result.bodyOffset)).tail.foldlM headerField
        { origin := [], contentLength := none } = .ok fields ∧
      result.request.origin = fields.origin ∧
      result.contentLength = fields.contentLength.getD 0 := by
  rw [parseHead] at h
  cases hscan : scanLoop data (min data.length maxHead) 0 with
  | bad =>
      rw [hscan] at h
      cases h
  | unfinished =>
      rw [hscan] at h
      dsimp only at h
      split at h
      · cases h
      · cases h
  | head stop =>
      rw [hscan] at h
      obtain ⟨hoffset, hfields⟩ := parseFields_ok (Option.some.inj h)
      have htake : data.take result.bodyOffset = data.take stop := by
        rw [hoffset, List.length_take, List.take_eq_take_iff, min_assoc, min_self]
      rw [htake]
      exact ⟨scanLoop_head hscan, hfields⟩

/-- The fields of an accepted request are those of the lines of its head exactly if no carriage
return stands alone in the head, and the value of the last origin has room in its buffer. -/
theorem strictFields_iff {data : Bytes} {result : Head}
    (h : parseHead data = some (.ok result)) :
    StrictFields (data.take result.bodyOffset) result ↔
      NoLoneCr (data.take result.bodyOffset) ∧
        (originOf (headerLines (data.take result.bodyOffset))).length < originSize := by
  obtain ⟨⟨x, hx⟩, fields, hfields, horigin, hlength⟩ := parseHead_ok h
  generalize data.take result.bodyOffset = head at *
  obtain ⟨hlast, -, hnumbers, hnone, hencoding⟩ := headerFields_ok hfields
  constructor
  · intro hstrict
    refine ⟨noLoneCr_of_lines fun line hline => ?_, ?_⟩
    · rw [hstrict.lines] at hline
      rcases List.mem_append.mp hline with hline | hline
      · exact cr_notMem_parsedLines hline
      · have hall : ∀ line ∈ [([] : Bytes), []], cr ∉ line := by decide
        exact hall line hline
    · rw [← hstrict.origin, horigin, hlast]
      cases ((parsedLines head).tail.filter fun line =>
          lineName line == bytesOf "origin").getLast? with
      | none => decide
      | some line =>
          rw [Option.map_some, Option.getD_some, copiedOrigin]
          split
          · decide
          · next hroom => exact not_le.mp hroom
  · rintro ⟨hno, hroom⟩
    have hlines := crlfLines_head hx hno
    have hheader : headerLines head = (parsedLines head).tail := by
      rw [headerLines, hlines, parsedLines]
      simp
    rw [hheader] at hroom
    refine ⟨hlines, ?_, ?_, ?_, ?_⟩
    · rw [hheader, horigin, hlast, originOf]
      rw [originOf] at hroom
      cases hlast' : ((parsedLines head).tail.filter fun line =>
          lineName line == bytesOf "origin").getLast? with
      | none => rfl
      | some line =>
          rw [hlast', Option.map_some, Option.getD_some] at hroom
          rw [Option.map_some, Option.map_some, Option.getD_some, Option.getD_some, copiedOrigin,
            if_neg (not_le.mpr hroom)]
    · rw [hheader]
      intro line hline hname
      obtain ⟨n, hn, hcl⟩ := hnumbers line hline hname
      rw [hlength, hcl]
      exact hn
    · rw [hheader]
      intro hall
      rw [hlength, hnone hall]
      rfl
    · rw [hheader]
      exact hencoding

theorem headerLoop_cons {p : Bytes} (hne : p ≠ [])
    (hfield : headerField fields (p.takeWhile (· != cr)) = .ok fields') :
    headerLoop fields p =
      headerLoop fields' (p.drop ((p.takeWhile (· != cr)).length + 2)) := by
  rw [headerLoop, dif_neg hne, hfield]
  rfl

theorem headerLoop_nil (fields : Fields) : headerLoop fields [] = .ok fields := by
  rw [headerLoop, dif_pos rfl]

/-- `GET / HTTP/1.1` -/
def plainGet (origin : Bytes) : Request :=
  { method := bytesOf "GET", path := bytesOf "/", query := [], origin := origin }

theorem parseHead_eq {data line rest : Bytes} {stop : Nat} {request : Request} {fields : Fields}
    (hscan : scanLoop data (min data.length maxHead) 0 = .head stop)
    (hsplit : splitByte cr (data.take stop) = some (line, rest))
    (hrequest : parseRequestLine line = .ok request)
    (hloop : headerLoop { origin := [], contentLength := none }
      (rest.tail.take (rest.tail.length - 2)) = .ok fields) :
    parseHead data = some (.ok {
      request := { request with origin := fields.origin }
      contentLength := fields.contentLength.getD 0
      bodyOffset := (data.take stop).length }) := by
  rw [parseHead, hscan]
  dsimp only
  rw [parseFields, hsplit]
  simp only [Option.elim_some, bind, Except.bind, hrequest, hloop]
  rfl

theorem strictFields_origin :
    StrictFields (bytesOf "GET / HTTP/1.1\r\nOrigin: a\r\n\r\n")
      { request := plainGet (bytesOf "a"), contentLength := 0, bodyOffset := 29 } := by
  have hloop : headerLoop ⟨[], none⟩ (bytesOf "Origin: a\r\n") = .ok ⟨bytesOf "a", none⟩ :=
    (@headerLoop_cons ⟨[], none⟩ ⟨bytesOf "a", none⟩ _ (by decide) (by decide)).trans
      (headerLoop_nil _)
  have hparse : parseHead (bytesOf "GET / HTTP/1.1\r\nOrigin: a\r\n\r\n") =
      some (.ok { request := plainGet (bytesOf "a"), contentLength := 0, bodyOffset := 29 }) :=
    @parseHead_eq _ (bytesOf "GET / HTTP/1.1") (bytesOf "\nOrigin: a\r\n\r\n") 29 (plainGet [])
      ⟨bytesOf "a", none⟩ (by decide) (by decide) (by decide) hloop
  exact (strictFields_iff hparse).mpr ⟨noLoneCr_of_lines (by decide), by decide⟩

/-- A lone carriage return in a header line, and an origin behind it: the parser finds the
origin, but the head has no line of this name. -/
theorem not_strictFields_injected :
    parseHead (bytesOf "GET / HTTP/1.1\r\nX: a\rbOrigin: e\r\n\r\n") =
      some (.ok { request := plainGet (bytesOf "e"), contentLength := 0, bodyOffset := 35 }) ∧
    ¬ StrictFields ((bytesOf "GET / HTTP/1.1\r\nX: a\rbOrigin: e\r\n\r\n").take 35)
      { request := plainGet (bytesOf "e"), contentLength := 0, bodyOffset := 35 } := by
  have hloop : headerLoop ⟨[], none⟩ (bytesOf "X: a\rbOrigin: e\r\n") =
      .ok ⟨bytesOf "e", none⟩ :=
    (@headerLoop_cons ⟨[], none⟩ ⟨[], none⟩ _ (by decide) (by decide)).trans
      ((@headerLoop_cons ⟨[], none⟩ ⟨bytesOf "e", none⟩ _ (by decide) (by decide)).trans
        (headerLoop_nil _))
  refine ⟨@parseHead_eq _ (bytesOf "GET / HTTP/1.1") (bytesOf "\nX: a\rbOrigin: e\r\n\r\n") 35
    (plainGet []) ⟨bytesOf "e", none⟩ (by decide) (by decide) (by decide) hloop,
    fun hstrict => ?_⟩
  exact absurd hstrict.origin (by decide)

end Fields

end Http
end CodebaseMemory
