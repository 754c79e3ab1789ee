import CodebaseMemory.Mcp.Rpc

/-!
# Every request and its answer

A client sends requests and notifications, one a line.  `Answered` says what it may expect:
one answer for each request, in order, an object with the id of the request and with either
a result or an error; and none for a notification.

`answered_iff` says exactly when this is so.  Three things go wrong: an integer
id is cut to 32 bits on its way through `yyjson_get_int`; a string id is cut at its
first zero byte; and a tool's text that is not UTF-8 is written into the result as it is,
cannot be read again by `cbm_jsonrpc_format_response`, and leaves a response without a result.

Both directions rest on one equivalence for a response (`isAnswer_written_iff`): it
answers an id exactly when it carries this id and its result or error could be embedded.
-/

namespace CodebaseMemory
namespace Mcp

open Lib
open Sqlite (CStr)

variable {ρ σ : Type}

section Expected

variable (yy : Yyjson ρ)

def idOf (line : Bytes) : Option (Value ρ) :=
  (yy.read line).bind (Value.objGet (utf8Bytes "id"))

/-- A request or a notification on a line of its own. -/
structure IsMessage (line : Bytes) : Prop where
  sent : (Frame.line line false).Sent
  method : ∃ members method, yy.read line = some (.obj members) ∧
    (Value.obj members).objGet (utf8Bytes "method") = some (.str method)
  id : ∀ v, idOf yy line = some v → (∃ i, v = .int i) ∨ ∃ s, v = .str s

/-- A line that answers the request with this id. -/
def IsAnswer (id : Value ρ) (out : Bytes) : Prop :=
  ∃ text members, out = text ++ [lf] ∧ yy.read text = some (.obj members) ∧
    (Value.obj members).objGet (utf8Bytes "id") = some id ∧
    Xor (((Value.obj members).objGet (utf8Bytes "result")).isSome = true)
      (((Value.obj members).objGet (utf8Bytes "error")).isSome = true)

/-- One answer for each request, in order, and nothing else. -/
def Answered : List Bytes → List Bytes → Prop
  | [], outs => outs = []
  | line :: lines, outs =>
    match idOf yy line with
    | none => Answered lines outs
    | some id => ∃ out rest, outs = out :: rest ∧ IsAnswer yy id out ∧ Answered lines rest

end Expected

/-- The id passes through the request unchanged. -/
def IdFits : Value ρ → Prop
  | .int i => -2 ^ 31 ≤ i ∧ i < 2 ^ 31
  | .str s => (0 : UInt8) ∉ s
  | _ => False

section Condition

variable (yy : Yyjson ρ) (be : Backend σ)

/-- If a tool is called, its text and the notice that is put before it are UTF-8. -/
def ToolSpeaks (s : σ) (line : Bytes) : Prop :=
  ∀ req, jsonrpcParse yy line = some req → req.method = utf8Bytes "tools/call" →
    let r := toolText yy be s req.paramsRaw
    IsUtf8 r.1.1 ∧ (be.notice r.2 = [] ∨ IsUtf8 (be.notice r.2))

/-- The condition on every request, in the state that the server finds it in. -/
def AllAnswerable : σ → List Bytes → Prop
  | _, [] => True
  | s, line :: lines =>
    (∀ id, idOf yy line = some id → IdFits id ∧ ToolSpeaks yy be (be.idle s) line) ∧
      AllAnswerable (serverHandle yy be (be.idle s) line).2 lines

end Condition

section Documents

theorem Value.Proper.of_mem {m : Bytes × Value ρ} {members : List (Bytes × Value ρ)}
    (h : (Value.obj members).Proper) (hm : m ∈ members) : m.2.Proper := by
  cases h with
  | obj hkeys h => exact h m hm

theorem Value.Proper.of_objGet {key : CStr} {v w : Value ρ} (h : v.Proper)
    (hw : v.objGet key = some w) : w.Proper := by
  cases v with
  | obj members =>
    rw [Value.objGet, Option.map_eq_some_iff] at hw
    obtain ⟨m, hm, rfl⟩ := hw
    exact h.of_mem (List.mem_of_find?_eq_some hm)
  | _ => cases hw

theorem proper_textItem_iff {text : CStr} : (textItem text : Value ρ).Proper ↔ IsUtf8 text := by
  constructor
  · intro h
    have htext := h.of_mem (m := (utf8Bytes "text", .str text)) (by simp)
    cases htext with
    | str h => exact h
  · exact fun h => .cons (.text _) (.cons (.str h) .nil)

theorem proper_textResultDoc {items : List (Value ρ)} (isError : Bool)
    (h : ∀ v ∈ items, v.Proper) :
    (Value.obj ((utf8Bytes "content", .arr items) ::
      if isError then [(utf8Bytes "isError", .bool true)] else [])).Proper := by
  cases isError with
  | true => exact .cons (.arr h) (.cons (.bool true) .nil)
  | false => exact .cons (.arr h) .nil

end Documents

section Results

variable {yy : Yyjson ρ} {be : Backend σ}

theorem isSome_read_write_iff (hyy : yy.Lawful) {v : Value ρ} :
    (yy.read (yy.write v)).isSome = true ↔ v.Proper := by
  constructor
  · intro h
    obtain ⟨w, hw⟩ := Option.isSome_iff_exists.mp h
    exact hyy.proper_of_read_write hw
  · intro h
    rw [hyy.read_write h]
    rfl

theorem embedded_ne_nil_iff {key : String} {text : Bytes} :
    embedded yy key text ≠ [] ↔ (yy.read text).isSome = true := by
  unfold embedded
  cases yy.read text <;> simp

theorem embedded_cases (hyy : yy.Lawful) (key : String) (text : Bytes) :
    embedded yy key text = [] ∨ ∃ v, v.Proper ∧ embedded yy key text = [(utf8Bytes key, v)] := by
  unfold embedded
  cases h : yy.read text with
  | none => exact Or.inl rfl
  | some v => exact Or.inr ⟨v, hyy.proper_of_read h, rfl⟩

theorem Response.outcome_cases (hyy : yy.Lawful) (resp : Response) :
    resp.outcome yy = [] ∨ ∃ v, v.Proper ∧
      (resp.outcome yy = [(utf8Bytes "result", v)] ∨ resp.outcome yy = [(utf8Bytes "error", v)]) := by
  unfold Response.outcome
  split
  · exact (embedded_cases hyy "error" _).imp_right fun ⟨v, hv, h⟩ => ⟨v, hv, Or.inr h⟩
  · exact (embedded_cases hyy "result" _).imp_right fun ⟨v, hv, h⟩ => ⟨v, hv, Or.inl h⟩
  · exact Or.inr ⟨.null, .null, Or.inl rfl⟩

theorem proper_toolDoc (hyy : yy.Lawful) (tool : Tool) : (toolDoc yy tool).Proper := by
  refine .cons (.text _) (.cons (.text _) ?_)
  rcases embedded_cases hyy "inputSchema" (utf8Bytes tool.inputSchema) with h | ⟨v, hv, h⟩
  · rw [h]
    exact .nil
  · rw [h]
    exact .cons hv .nil

theorem isSome_read_toolsList (hyy : yy.Lawful) (tools : List Tool) :
    (yy.read (mcpToolsList yy tools)).isSome = true := by
  refine (isSome_read_write_iff hyy).mpr (.cons (.arr ?_) .nil)
  intro v hv
  obtain ⟨tool, -, rfl⟩ := List.mem_map.mp hv
  exact proper_toolDoc hyy tool

theorem isSome_read_initializeResponse (hyy : yy.Lawful) (params : Option Bytes) :
    (yy.read (mcpInitializeResponse yy params)).isSome = true :=
  (isSome_read_write_iff hyy).mpr
    (.cons (.text _) (.cons (.cons (.text _) (.cons (.text _) .nil))
      (.cons (.cons .nil .nil) .nil)))

theorem isSome_read_textResult_iff (hyy : yy.Lawful) (text : CStr) (isError : Bool) :
    (yy.read (mcpTextResult yy text isError)).isSome = true ↔ IsUtf8 text := by
  rw [mcpTextResult, isSome_read_write_iff hyy, textResultDoc]
  constructor
  · intro h
    have hcontent := h.of_mem List.mem_cons_self
    cases hcontent with
    | arr h => exact proper_textItem_iff.mp (h _ List.mem_cons_self)
  · intro h
    refine proper_textResultDoc isError ?_
    rintro v (_ | ⟨_, ⟨⟩⟩)
    exact proper_textItem_iff.mpr h

theorem isSome_read_injected_iff (hyy : yy.Lawful) (s : σ) (text : CStr) (isError : Bool) :
    (yy.read (injectUpdateNotice yy be s (mcpTextResult yy text isError)).1).isSome = true ↔
      IsUtf8 text ∧ (be.notice s = [] ∨ IsUtf8 (be.notice s)) := by
  have htext := isSome_read_textResult_iff hyy text isError
  unfold injectUpdateNotice
  by_cases hnotice : be.notice s = []
  · rw [if_pos hnotice, htext]
    simp [hnotice]
  · rw [if_neg hnotice]
    by_cases hutf : IsUtf8 text
    · have hproper : (textResultDoc text isError : Value ρ).Proper :=
        (isSome_read_write_iff hyy).mp (htext.mpr hutf)
      rw [mcpTextResult, hyy.read_write hproper]
      simp only [textResultDoc, ne_eq, not_true_eq_false, decide_false, Bool.false_eq_true,
        not_false_eq_true, List.takeWhile_cons_of_neg, List.dropWhile_cons_of_neg,
        List.nil_append, hnotice, hutf, true_and, false_or]
      rw [isSome_read_write_iff hyy]
      constructor
      · intro h
        have hcontent := h.of_mem List.mem_cons_self
        cases hcontent with
        | arr h => exact proper_textItem_iff.mp (h _ List.mem_cons_self)
      · intro h
        refine proper_textResultDoc isError ?_
        rintro v (_ | ⟨_, _ | ⟨_, ⟨⟩⟩⟩)
        · exact proper_textItem_iff.mpr h
        · exact proper_textItem_iff.mpr hutf
    · have hnone : yy.read (mcpTextResult yy text isError) = none := by
        rw [← Option.not_isSome_iff_eq_none, htext]
        exact hutf
      simp [hnone, hutf]

end Results

section Responses

variable {yy : Yyjson ρ} {be : Backend σ}

theorem objGet_cons_self (key : CStr) (v : Value ρ) (members : List (Bytes × Value ρ)) :
    (Value.obj ((key, v) :: members)).objGet key = some v := by
  simp [Value.objGet]

theorem objGet_cons_ne {key key' : CStr} (h : key' ≠ key) (v : Value ρ)
    (members : List (Bytes × Value ρ)) :
    (Value.obj ((key', v) :: members)).objGet key = (Value.obj members).objGet key := by
  simp [Value.objGet, h]

theorem objGet_doc (yy : Yyjson ρ) (resp : Response) :
    (resp.doc yy).objGet (utf8Bytes "id") = some resp.idValue ∧
      (resp.doc yy).objGet (utf8Bytes "result") =
        (Value.obj (resp.outcome yy)).objGet (utf8Bytes "result") ∧
      (resp.doc yy).objGet (utf8Bytes "error") =
        (Value.obj (resp.outcome yy)).objGet (utf8Bytes "error") := by
  unfold Response.doc
  refine ⟨?_, ?_, ?_⟩
  · rw [objGet_cons_ne (by decide), objGet_cons_self]
  · rw [objGet_cons_ne (by decide), objGet_cons_ne (by decide)]
  · rw [objGet_cons_ne (by decide), objGet_cons_ne (by decide)]

theorem xor_outcome_iff (hyy : yy.Lawful) (resp : Response) :
    Xor (((resp.doc yy).objGet (utf8Bytes "result")).isSome = true)
      (((resp.doc yy).objGet (utf8Bytes "error")).isSome = true) ↔ resp.outcome yy ≠ [] := by
  obtain ⟨-, hresult, herror⟩ := objGet_doc yy resp
  rw [hresult, herror]
  rcases resp.outcome_cases hyy with h | ⟨v, -, h | h⟩
  · rw [h]
    simp [Value.objGet]
  · rw [h, objGet_cons_self, objGet_cons_ne (by decide)]
    simp [Value.objGet]
  · rw [h, objGet_cons_self, objGet_cons_ne (by decide)]
    simp [Value.objGet]

variable {line : Bytes}
variable {resp : Response}

theorem proper_doc (hyy : yy.Lawful) (hid : (resp.idValue : Value ρ).Proper) :
    (resp.doc yy).Proper := by
  refine .cons (.text _) (.cons hid ?_)
  rcases resp.outcome_cases hyy with h | ⟨v, hv, h | h⟩
  · rw [h]
    exact .nil
  · rw [h]
    exact .cons hv .nil
  · rw [h]
    exact .cons hv .nil

theorem isAnswer_written_iff (hyy : yy.Lawful) {id : Value ρ} (hid : id.Proper) :
    IsAnswer yy id (written false (jsonrpcFormatResponse yy resp)) ↔
      resp.idValue = id ∧ resp.outcome yy ≠ [] := by
  constructor
  · rintro ⟨text, members, hout, hread, hget, hxor⟩
    have htext : jsonrpcFormatResponse yy resp = text := by
      simpa [written] using hout
    rw [← htext, jsonrpcFormatResponse] at hread
    have hdoc : Value.obj members = resp.doc yy := by
      have hback := hyy.read_write (hyy.proper_of_read_write hread)
      rw [hread] at hback
      exact Option.some.inj hback
    rw [hdoc] at hget hxor
    rw [(objGet_doc yy resp).1] at hget
    exact ⟨Option.some.inj hget, (xor_outcome_iff hyy resp).mp hxor⟩
  · rintro ⟨rfl, hne⟩
    refine ⟨_, _, rfl, hyy.read_write (proper_doc hyy hid), (objGet_doc yy resp).1, ?_⟩
    exact (xor_outcome_iff hyy resp).mpr hne

theorem parse_of_message (h : IsMessage yy line) :
    ∃ req, jsonrpcParse yy line = some req ∧ req.hasId = (idOf yy line).isSome ∧
      req.id = ((idOf yy line).map Value.getId).getD (-1) ∧
      req.idStr = (idOf yy line).bind Value.getStr := by
  obtain ⟨members, method, hread, hmethod⟩ := h.method
  unfold jsonrpcParse
  rw [hread]
  simp only [hmethod]
  refine ⟨_, rfl, ?_, ?_, ?_⟩ <;> rw [idOf, hread] <;> rfl

theorem respond_id (be : Backend σ) (s : σ) (req : Request) :
    (respond yy be s req).1.id = req.id ∧ (respond yy be s req).1.idStr = req.idStr := by
  unfold respond
  dsimp only
  split
  · exact ⟨rfl, rfl⟩
  split
  · exact ⟨rfl, rfl⟩
  split
  · exact ⟨rfl, rfl⟩
  split <;> exact ⟨rfl, rfl⟩

theorem cString_eq_self_iff {s : Bytes} : cString s = s ↔ (0 : UInt8) ∉ s := by
  constructor
  · intro h h0
    rw [cString, List.takeWhile_eq_self_iff] at h
    exact absurd (h 0 h0) (by decide)
  · exact cString_of_noZero

theorem idValue_iff (h : IsMessage yy line) {v : Value ρ} (hv : idOf yy line = some v)
    {req : Request} (hreq : jsonrpcParse yy line = some req)
    (hid : resp.id = req.id ∧ resp.idStr = req.idStr) : resp.idValue = v ↔ IdFits v := by
  obtain ⟨req', hreq', -, hi, hs⟩ := parse_of_message h
  obtain rfl : req = req' := Option.some.inj (hreq.symm.trans hreq')
  rw [hv] at hi hs
  unfold Response.idValue
  rw [hid.1, hid.2, hi, hs]
  rcases h.id v hv with ⟨i, rfl⟩ | ⟨t, rfl⟩
  · simp only [Option.bind_some, Value.getStr, Option.map_some, Option.getD_some, Value.getId,
      Value.int.injEq, IdFits]
    constructor
    · intro hi
      have hlo := Int.le_bmod (x := i) (m := 2 ^ 32) (by decide)
      have hhi := Int.bmod_lt (x := i) (m := 2 ^ 32) (by decide)
      rw [hi] at hlo hhi
      exact ⟨by simpa using hlo, by simpa using hhi⟩
    · rintro ⟨hlo, hhi⟩
      exact Int.bmod_eq_of_le (by simpa using hlo) (by simpa using hhi)
  · simp only [Option.bind_some, Value.getStr, Value.str.injEq, IdFits]
    exact cString_eq_self_iff

theorem outcome_respond_iff (hyy : yy.Lawful) (s : σ) {req : Request}
    (hreq : jsonrpcParse yy line = some req) :
    (respond yy be s req).1.outcome yy ≠ [] ↔ ToolSpeaks yy be s line := by
  have hother : req.method ≠ utf8Bytes "tools/call" → ToolSpeaks yy be s line := by
    intro hne req' hreq' hcall
    obtain rfl : req = req' := Option.some.inj (hreq.symm.trans hreq')
    exact absurd hcall hne
  unfold respond
  dsimp only
  split
  · next hm =>
    refine iff_of_true ?_ (hother (by rw [hm]; decide))
    exact embedded_ne_nil_iff.mpr (isSome_read_initializeResponse hyy _)
  split
  · next hm =>
    refine iff_of_true ?_ (hother (by rw [hm]; decide))
    exact embedded_ne_nil_iff.mpr (by rw [hyy.read_emptyText]; rfl)
  split
  · next hm =>
    refine iff_of_true ?_ (hother (by rw [hm]; decide))
    exact embedded_ne_nil_iff.mpr (isSome_read_toolsList hyy _)
  split
  · next hm =>
    refine (embedded_ne_nil_iff.trans (isSome_read_injected_iff hyy _ _ _)).trans ?_
    constructor
    · intro h req' hreq' _
      obtain rfl : req = req' := Option.some.inj (hreq.symm.trans hreq')
      exact h
    · exact fun h => h req hreq hm
  · next hm =>
    refine iff_of_true ?_ (hother hm)
    exact embedded_ne_nil_iff.mpr (by rw [hyy.read_notFoundText]; rfl)

end Responses

section Run

variable {yy : Yyjson ρ} {be : Backend σ}

def inputOf (lines : List Bytes) : Bytes :=
  encodeAll (lines.map (Frame.line · false))

theorem serverRun_cons (s : σ) {line : Bytes} (lines : List Bytes) (h : IsMessage yy line) :
    serverRun yy be s (inputOf (line :: lines)) =
      (serverHandle yy be (be.idle s) line).1.toList.map (written false) ++
        serverRun yy be (serverHandle yy be (be.idle s) line).2 (inputOf lines) := by
  have hhanded : handed (inputOf (line :: lines)) = _ := handed_line h.sent
  rw [serverRun, hhanded, answers]
  dsimp only
  cases (serverHandle yy be (be.idle s) line).1 <;> rfl

theorem serverHandle_of_message (be : Backend σ) (s : σ) {line : Bytes} (h : IsMessage yy line) :
    ∃ req, jsonrpcParse yy line = some req ∧
      (serverHandle yy be s line).1 =
        if (idOf yy line).isSome then
          some (jsonrpcFormatResponse yy (respond yy be s req).1)
        else none := by
  obtain ⟨req, hreq, hhas, -, -⟩ := parse_of_message h
  refine ⟨req, hreq, ?_⟩
  rw [serverHandle, hreq]
  dsimp only
  rw [hhas]
  split
  · rfl
  · split <;> rfl

theorem answered_cons_iff (hyy : yy.Lawful) (s : σ) {line : Bytes} (lines : List Bytes)
    (h : IsMessage yy line) :
    Answered yy (line :: lines) (serverRun yy be s (inputOf (line :: lines))) ↔
      (∀ id, idOf yy line = some id → IdFits id ∧ ToolSpeaks yy be (be.idle s) line) ∧
        Answered yy lines
          (serverRun yy be (serverHandle yy be (be.idle s) line).2 (inputOf lines)) := by
  obtain ⟨req, hreq, hout⟩ := serverHandle_of_message be (be.idle s) h
  rw [serverRun_cons s lines h, Answered, hout]
  cases hid : idOf yy line with
  | none => simp
  | some id =>
    have hproper : id.Proper := by
      rw [idOf, Option.bind_eq_some_iff] at hid
      obtain ⟨root, hroot, hget⟩ := hid
      exact (hyy.proper_of_read hroot).of_objGet hget
    have hanswer := (isAnswer_written_iff hyy hproper).trans
      (and_congr (idValue_iff h hid hreq (respond_id be (be.idle s) req))
        (outcome_respond_iff hyy (be.idle s) hreq))
    simp [hanswer]

/-- For every list of requests and notifications: the client gets what it may expect
exactly when each id fits, and each tool that is called speaks UTF-8. -/
theorem answered_iff (hyy : yy.Lawful) (s : σ) (lines : List Bytes)
    (h : ∀ line ∈ lines, IsMessage yy line) :
    Answered yy lines (serverRun yy be s (inputOf lines)) ↔ AllAnswerable yy be s lines := by
  induction lines generalizing s with
  | nil =>
    refine iff_of_true ?_ trivial
    rw [Answered, serverRun, inputOf, List.map_nil, encodeAll, List.map_nil, List.flatten_nil,
      handed_nil]
    rfl
  | cons line lines ih =>
    rw [answered_cons_iff hyy s lines (h line List.mem_cons_self), AllAnswerable,
      ih _ fun l hl => h l (List.mem_cons_of_mem _ hl)]

end Run

/-- A server without tools and notice. -/
def quiet : Backend Unit where
  tools := []
  tool _ _ _ := ((utf8Bytes "no tools", true), ())
  notice _ := []
  clearNotice _ := ()
  onInitialize _ := ()
  cancel _ := ()
  idle _ := ()

theorem toolSpeaks_quiet (line : Bytes) : ToolSpeaks plain quiet () line := by
  intro req _ _
  refine ⟨?_, Or.inl rfl⟩
  unfold toolText
  cases req.paramsRaw.bind (mcpGetToolName plain) <;> exact isUtf8_utf8Bytes _

def ping (id : Int) : Value Empty :=
  .obj [(utf8Bytes "jsonrpc", .str (utf8Bytes "2.0")), (utf8Bytes "id", .int id),
    (utf8Bytes "method", .str (utf8Bytes "ping"))]

@[irreducible]
def pingLine (id : Int) : Bytes :=
  (ping id).toJson.text

theorem read_pingLine {id : Int} (hid : -2 ^ 63 ≤ id ∧ id < 2 ^ 64) :
    plain.read (pingLine id) = some (ping id) := by
  rw [pingLine]
  exact plain_lawful.read_write (.cons (.text _) (.cons (.int hid) (.cons (.text _) .nil)))

theorem idOf_pingLine {id : Int} (hid : -2 ^ 63 ≤ id ∧ id < 2 ^ 64) :
    idOf plain (pingLine id) = some (.int id) := by
  rw [idOf, read_pingLine hid, Option.bind_some, ping, objGet_cons_ne (by decide),
    objGet_cons_self]

theorem isMessage_pingLine {id : Int} (hid : -2 ^ 63 ≤ id ∧ id < 2 ^ 64)
    (hsent : (Frame.line (pingLine id) false).Sent) : IsMessage plain (pingLine id) where
  sent := hsent
  method := by
    refine ⟨_, utf8Bytes "ping", read_pingLine hid, ?_⟩
    rw [objGet_cons_ne (by decide), objGet_cons_ne (by decide), objGet_cons_self]
  id := by
    intro v hv
    rw [idOf_pingLine hid] at hv
    exact Or.inl ⟨id, (Option.some.inj hv).symm⟩

theorem answered_ping :
    Answered plain [pingLine 7] (serverRun plain quiet () (inputOf [pingLine 7])) := by
  have htext : IsText (pingLine 7) :=
    { noLf := by decide +kernel
      noZero := by decide +kernel
      visible := ⟨123, by decide +kernel, by decide⟩
      noHeader := by decide +kernel }
  have hlast : (pingLine 7).getLast? ≠ some cr := by decide +kernel
  have hmessage : IsMessage plain (pingLine 7) :=
    isMessage_pingLine (by decide) (And.intro htext hlast)
  refine (answered_iff plain_lawful () [pingLine 7] (by simpa using hmessage)).mpr ?_
  refine ⟨fun id hid => ⟨?_, toolSpeaks_quiet _⟩, trivial⟩
  rw [idOf_pingLine (by decide)] at hid
  obtain rfl := Option.some.inj hid
  exact ⟨by decide, by decide⟩

/-- A ping with an id of 33 bits gets the answer to another one. -/
theorem not_answered_ping :
    IsMessage plain (pingLine 4294967297) ∧
      ¬ Answered plain [pingLine 4294967297]
        (serverRun plain quiet () (inputOf [pingLine 4294967297])) := by
  have htext : IsText (pingLine 4294967297) :=
    { noLf := by decide +kernel
      noZero := by decide +kernel
      visible := ⟨123, by decide +kernel, by decide⟩
      noHeader := by decide +kernel }
  have hlast : (pingLine 4294967297).getLast? ≠ some cr := by decide +kernel
  have hmessage : IsMessage plain (pingLine 4294967297) :=
    isMessage_pingLine (by decide) (And.intro htext hlast)
  refine ⟨hmessage, fun h => ?_⟩
  have hfits := ((answered_cons_iff plain_lawful () [] hmessage).mp h).1 _
    (idOf_pingLine (by decide))
  exact absurd hfits.1.2 (by decide)

end Mcp
end CodebaseMemory
