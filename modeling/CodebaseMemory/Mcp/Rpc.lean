import CodebaseMemory.Lib.JsonText
import CodebaseMemory.Mcp.Framing

/-!
# Requests and responses (`src/mcp/mcp.c`)

`cbm_jsonrpc_parse`, `cbm_jsonrpc_format_response`, `cbm_mcp_server_handle` and the answers of
`cbm_mcp_server_run`.

The reader and the writer of the vendored yyjson are parameters (`Yyjson`); what is assumed of
them is `Yyjson.Lawful`: without flags the reader rejects a text with a string that is not
UTF-8, and with `YYJSON_WRITE_ALLOW_INVALID_UNICODE` the writer puts such bytes into the text
as they are.  What the server does besides answering is a parameter, too (`Backend`):
the handlers of the tools, and the state they work on.  Every handler returns its text
through `cbm_mcp_text_result`.

Reading aids:
* `id` of a request is an `int64_t` that is read by `yyjson_get_int`, which returns an `int`.
* `heap_strdup` copies up to the first zero byte.
* `σ` may hold what the outside will do, so that `idle` stands for anything that happens
  while the server waits, and for the threads in the background.
* A failed allocation, logging and the diagnostics are left out.
-/

namespace CodebaseMemory
namespace Mcp

open Lib
open Sqlite (CStr)

/-- A value of yyjson; `ρ` is the type of its real numbers. -/
inductive Value (ρ : Type) where
  | null
  | bool (b : Bool)
  | int (i : Int)
  | real (r : ρ)
  | str (s : Bytes)
  | arr (items : List (Value ρ))
  | obj (members : List (Bytes × Value ρ))

variable {ρ σ : Type}

/-- `yyjson_obj_get`: the first member with this key. -/
def Value.objGet (key : CStr) : Value ρ → Option (Value ρ)
  | .obj members => (members.find? fun m => m.1 = key).map (·.2)
  | _ => none

def utf8Bytes (s : String) : Bytes :=
  s.toList.flatMap fun c => Json.utf8 c.toNat

def IsUtf8 (s : Bytes) : Prop :=
  ∃ t : String, utf8Bytes t = s

/-- A value that a text without flags can spell: all strings are UTF-8, and the integers have
64 bits, with or without sign. -/
inductive Value.Proper : Value ρ → Prop where
  | null : Proper .null
  | bool (b : Bool) : Proper (.bool b)
  | int {i : Int} (h : -2 ^ 63 ≤ i ∧ i < 2 ^ 64) : Proper (.int i)
  | real (r : ρ) : Proper (.real r)
  | str {s : Bytes} (h : IsUtf8 s) : Proper (.str s)
  | arr {items : List (Value ρ)} (h : ∀ v ∈ items, Proper v) : Proper (.arr items)
  | obj {members : List (Bytes × Value ρ)} (hkeys : ∀ m ∈ members, IsUtf8 m.1)
      (h : ∀ m ∈ members, Proper m.2) : Proper (.obj members)

theorem isUtf8_utf8Bytes (t : String) : IsUtf8 (utf8Bytes t) :=
  ⟨t, rfl⟩

theorem Value.Proper.cons {key : String} {v : Value ρ} {members : List (Bytes × Value ρ)}
    (hv : v.Proper) (h : (Value.obj members).Proper) :
    (Value.obj ((utf8Bytes key, v) :: members)).Proper := by
  cases h with
  | obj hkeys h =>
    refine .obj ?_ ?_
    · rintro m (_ | ⟨_, hm⟩)
      · exact isUtf8_utf8Bytes key
      · exact hkeys m hm
    · rintro m (_ | ⟨_, hm⟩)
      · exact hv
      · exact h m hm

theorem Value.Proper.nil : (Value.obj ([] : List (Bytes × Value ρ))).Proper :=
  .obj (by simp) (by simp)

theorem Value.Proper.text (t : String) : (Value.str (utf8Bytes t) : Value ρ).Proper :=
  .str (isUtf8_utf8Bytes t)

/-- `yyjson_read` without flags, and `yyjson_mut_write` with `ALLOW_INVALID_UNICODE`. -/
structure Yyjson (ρ : Type) where
  read : Bytes → Option (Value ρ)
  write : Value ρ → Bytes

def emptyText : Bytes :=
  utf8Bytes "\x7b\x7d"

/-- `err_obj` -/
def notFoundText : Bytes :=
  utf8Bytes "\x7b\"code\":-32601,\"message\":\"Method not found\"\x7d"

/-- What `err_obj` spells. -/
def notFoundValue : Value ρ :=
  .obj [(utf8Bytes "code", .int (-32601)), (utf8Bytes "message", .str (utf8Bytes "Method not found"))]

structure Yyjson.Lawful (yy : Yyjson ρ) : Prop where
  read_write : ∀ {v}, v.Proper → yy.read (yy.write v) = some v
  proper_of_read_write : ∀ {v w}, yy.read (yy.write v) = some w → v.Proper
  proper_of_read : ∀ {s v}, yy.read s = some v → v.Proper
  read_emptyText : yy.read emptyText = some (.obj [])
  read_notFoundText : yy.read notFoundText = some notFoundValue

section Server

variable (yy : Yyjson ρ)

/-- `cbm_jsonrpc_request_t` -/
structure Request where
  jsonrpc : CStr
  method : CStr
  hasId : Bool
  id : Int
  idStr : Option CStr
  paramsRaw : Option Bytes

/-- The string in a value, up to its first zero byte. -/
def Value.getStr : Value ρ → Option CStr
  | .str s => some (cString s)
  | _ => none

/-- `CBM_NOT_FOUND`, or `yyjson_get_int` -/
def Value.getId : Value ρ → Int
  | .int i => i.bmod (2 ^ 32)
  | _ => -1

/-- `cbm_jsonrpc_parse` -/
def jsonrpcParse (line : CStr) : Option Request :=
  match yy.read line with
  | some (.obj members) =>
    let root : Value ρ := .obj members
    match root.objGet (utf8Bytes "method") with
    | some (.str method) =>
      let vId := root.objGet (utf8Bytes "id")
      some
        { jsonrpc := ((root.objGet (utf8Bytes "jsonrpc")).bind Value.getStr).getD (utf8Bytes "2.0")
          method := cString method
          hasId := vId.isSome
          id := (vId.map Value.getId).getD (-1)
          idStr := vId.bind Value.getStr
          paramsRaw := (root.objGet (utf8Bytes "params")).map yy.write }
    | _ => none
  | _ => none

/-- `cbm_jsonrpc_response_t` -/
structure Response where
  id : Int
  idStr : Option CStr
  resultJson : Option Bytes
  errorJson : Option Bytes

/-- The member that a text of JSON gives; nothing when it cannot be read. -/
def embedded (key : String) (text : Bytes) : List (Bytes × Value ρ) :=
  match yy.read text with
  | some v => [(utf8Bytes key, v)]
  | none => []

/-- `"result"`, or `"error"` -/
def Response.outcome (resp : Response) : List (Bytes × Value ρ) :=
  match resp.errorJson, resp.resultJson with
  | some text, _ => embedded yy "error" text
  | none, some text => embedded yy "result" text
  | none, none => [(utf8Bytes "result", .null)]

def Response.idValue (resp : Response) : Value ρ :=
  match resp.idStr with
  | some s => .str s
  | none => .int resp.id

def Response.doc (resp : Response) : Value ρ :=
  .obj ((utf8Bytes "jsonrpc", .str (utf8Bytes "2.0")) :: (utf8Bytes "id", resp.idValue) ::
    resp.outcome yy)

/-- `cbm_jsonrpc_format_response` -/
def jsonrpcFormatResponse (resp : Response) : Bytes :=
  yy.write (resp.doc yy)

/-- `cbm_jsonrpc_format_error` -/
def jsonrpcFormatError (id code : Int) (message : String) : Bytes :=
  yy.write (.obj
    [(utf8Bytes "jsonrpc", .str (utf8Bytes "2.0")), (utf8Bytes "id", .int id),
      (utf8Bytes "error",
        .obj [(utf8Bytes "code", .int code), (utf8Bytes "message", .str (utf8Bytes message))])])

/-- An item of `"content"`. -/
def textItem (text : CStr) : Value ρ :=
  .obj [(utf8Bytes "type", .str (utf8Bytes "text")), (utf8Bytes "text", .str text)]

def textResultDoc (text : CStr) (isError : Bool) : Value ρ :=
  .obj ((utf8Bytes "content", .arr [textItem text]) ::
    if isError then [(utf8Bytes "isError", .bool true)] else [])

/-- `cbm_mcp_text_result` -/
def mcpTextResult (text : CStr) (isError : Bool) : Bytes :=
  yy.write (textResultDoc text isError)

/-- A row of `TOOLS`. -/
structure Tool where
  name : String
  description : String
  inputSchema : String

def toolDoc (tool : Tool) : Value ρ :=
  .obj ((utf8Bytes "name", .str (utf8Bytes tool.name)) ::
    (utf8Bytes "description", .str (utf8Bytes tool.description)) ::
    embedded yy "inputSchema" (utf8Bytes tool.inputSchema))

/-- `cbm_mcp_tools_list` -/
def mcpToolsList (tools : List Tool) : Bytes :=
  yy.write (.obj [(utf8Bytes "tools", .arr (tools.map (toolDoc yy)))])

def supportedProtocolVersions : List String :=
  ["2025-11-25", "2025-06-18", "2025-03-26", "2024-11-05"]

/-- The version that is answered to a client that asks for another one. -/
def latestVersion : String := "2025-11-25"

def protocolVersion (params : Option Bytes) : String :=
  match (params.bind yy.read).bind (Value.objGet (utf8Bytes "protocolVersion")) with
  | some (.str requested) =>
    (supportedProtocolVersions.find? fun v => cString requested = utf8Bytes v).getD latestVersion
  | _ => latestVersion

def initializeDoc (version : String) : Value ρ :=
  .obj
    [(utf8Bytes "protocolVersion", .str (utf8Bytes version)),
      (utf8Bytes "serverInfo",
        .obj [(utf8Bytes "name", .str (utf8Bytes "amaze")),
          (utf8Bytes "version", .str (utf8Bytes "0.10.0"))]),
      (utf8Bytes "capabilities", .obj [(utf8Bytes "tools", .obj [])])]

/-- `cbm_mcp_initialize_response` -/
def mcpInitializeResponse (params : Option Bytes) : Bytes :=
  yy.write (initializeDoc (protocolVersion yy params))

/-- `cbm_mcp_get_tool_name` -/
def mcpGetToolName (params : Bytes) : Option CStr :=
  ((yy.read params).bind (Value.objGet (utf8Bytes "name"))).bind Value.getStr

/-- `cbm_mcp_get_arguments` -/
def mcpGetArguments (params : Bytes) : Option Bytes :=
  (yy.read params).map fun root =>
    ((root.objGet (utf8Bytes "arguments")).map yy.write).getD emptyText

/-- What the server does besides answering. -/
structure Backend (σ : Type) where
  tools : List Tool
  /-- The handlers, by the name of the tool: text and `is_error`. -/
  tool : σ → CStr → Option CStr → (CStr × Bool) × σ
  /-- `update_notice` -/
  notice : σ → CStr
  clearNotice : σ → σ
  /-- `start_update_check`, `detect_session` and `maybe_auto_index` -/
  onInitialize : σ → σ
  /-- `cbm_pipeline_cancel` on the active pipeline. -/
  cancel : σ → σ
  idle : σ → σ

variable (be : Backend σ)

/-- What `cbm_mcp_handle_tool` puts into its result. -/
def toolText (s : σ) (params : Option Bytes) : (CStr × Bool) × σ :=
  let arguments :=
    match params with
    | some p => mcpGetArguments yy p
    | none => some emptyText
  match params.bind (mcpGetToolName yy) with
  | none => ((utf8Bytes "missing tool name", true), s)
  | some name => be.tool s name arguments

def injectUpdateNotice (s : σ) (resultJson : Bytes) : Bytes × σ :=
  if be.notice s = [] then (resultJson, s)
  else
    match yy.read resultJson with
    | none => (resultJson, s)
    | some root =>
      let prepend (m : Bytes × Value ρ) : Bytes × Value ρ :=
        match m.2 with
        | .arr items => (m.1, .arr (textItem (be.notice s) :: items))
        | _ => m
      let root' : Value ρ :=
        match root with
        | .obj members =>
          .obj (members.takeWhile (fun m => m.1 ≠ utf8Bytes "content") ++
            match members.dropWhile (fun m => m.1 ≠ utf8Bytes "content") with
            | [] => []
            | m :: rest => prepend m :: rest)
        | v => v
      (yy.write root', be.clearNotice s)

/-- What is answered to a request, by its method. -/
def respond (s : σ) (req : Request) : Response × σ :=
  let resp : Response := { id := req.id, idStr := req.idStr, resultJson := none, errorJson := none }
  if req.method = utf8Bytes "initialize" then
    ({ resp with resultJson := some (mcpInitializeResponse yy req.paramsRaw) }, be.onInitialize s)
  else if req.method = utf8Bytes "ping" then ({ resp with resultJson := some emptyText }, s)
  else if req.method = utf8Bytes "tools/list" then
    ({ resp with resultJson := some (mcpToolsList yy be.tools) }, s)
  else if req.method = utf8Bytes "tools/call" then
    let r := toolText yy be s req.paramsRaw
    let injected := injectUpdateNotice yy be r.2 (mcpTextResult yy r.1.1 r.1.2)
    ({ resp with resultJson := some injected.1 }, injected.2)
  else ({ resp with errorJson := some notFoundText }, s)

/-- `cbm_mcp_server_handle` -/
def serverHandle (s : σ) (line : CStr) : Option Bytes × σ :=
  match jsonrpcParse yy line with
  | none => (some (jsonrpcFormatError yy 0 (-32700) "Parse error"), s)
  | some req =>
    if req.hasId then
      let r := respond yy be s req
      (some (jsonrpcFormatResponse yy r.1), r.2)
    else if req.method = utf8Bytes "notifications/cancelled" then (none, be.cancel s)
    else (none, s)

/-- An answer as it is written: with a header, or as a line. -/
def written (framed : Bool) (resp : Bytes) : Bytes :=
  if framed then
    utf8Bytes "Content-Length: " ++ decimalNat resp.length ++ crlf ++ crlf ++ resp
  else resp ++ [lf]

/-- What is written for the messages of the input. -/
def answers (s : σ) : List Handed → List Bytes
  | [] => []
  | h :: hs =>
    let r := serverHandle yy be (be.idle s) h.message
    match r.1 with
    | none => answers r.2 hs
    | some resp => written h.framed resp :: answers r.2 hs

/-- `cbm_mcp_server_run` -/
def serverRun (s : σ) (input : Bytes) : List Bytes :=
  answers yy be s (handed input)

end Server

/-!
## A reader and a writer without real numbers

`plain` reads and writes JSON texts as RFC 8259 has them, where all numbers are integers of 64
bits.  It is lawful, so that what is proved for every lawful pair can be run on texts: on those
without real numbers it does what yyjson does.
-/

mutual

/-- The JSON value; strings and integers are spelled the short way. -/
def Value.toJson : Value Empty → Json
  | .null => .null
  | .bool b => .bool b
  | .int i => .num (decimal i)
  | .real r => r.elim
  | .str s => .str (Json.escape s) s
  | .arr items => .arr (Value.itemsJson items)
  | .obj members => .obj (Value.membersJson members)

def Value.itemsJson : List (Value Empty) → List Json
  | [] => []
  | v :: vs => v.toJson :: Value.itemsJson vs

def Value.membersJson : List (Bytes × Value Empty) → List ((Bytes × Bytes) × Json)
  | [] => []
  | (key, v) :: ms => ((Json.escape key, key), v.toJson) :: Value.membersJson ms

end

mutual

/-- What a JSON value spells; nothing for a number that is no integer. -/
def Value.ofJson : Json → Option (Value Empty)
  | .null => some .null
  | .bool b => some (.bool b)
  | .num spelling => (Json.intValue spelling).map .int
  | .str _ s => some (.str s)
  | .arr items => (Value.ofItems items).map .arr
  | .obj members => (Value.ofMembers members).map .obj

def Value.ofItems : List Json → Option (List (Value Empty))
  | [] => some []
  | v :: vs => do return (← Value.ofJson v) :: (← Value.ofItems vs)

def Value.ofMembers : List ((Bytes × Bytes) × Json) → Option (List (Bytes × Value Empty))
  | [] => some []
  | (key, v) :: ms => do return (key.2, ← Value.ofJson v) :: (← Value.ofMembers ms)

end

mutual

theorem Value.ofJson_toJson : ∀ v : Value Empty, ofJson v.toJson = some v
  | .null => rfl
  | .bool b => rfl
  | .int i => by simp [toJson, ofJson, Json.intValue_decimal]
  | .str s => rfl
  | .arr items => by simp [toJson, ofJson, Value.ofItems_itemsJson items]
  | .obj members => by simp [toJson, ofJson, Value.ofMembers_membersJson members]

theorem Value.ofItems_itemsJson : ∀ items : List (Value Empty),
    ofItems (itemsJson items) = some items
  | [] => rfl
  | v :: vs => by
    simp [itemsJson, ofItems, Value.ofJson_toJson v, Value.ofItems_itemsJson vs]

theorem Value.ofMembers_membersJson : ∀ members : List (Bytes × Value Empty),
    ofMembers (membersJson members) = some members
  | [] => rfl
  | (key, v) :: ms => by
    simp [membersJson, ofMembers, Value.ofJson_toJson v, Value.ofMembers_membersJson ms]

end

mutual

theorem Value.spelled_toJson : ∀ v : Value Empty, v.toJson.Spelled
  | .null => .null
  | .bool b => .bool b
  | .int i => .num (Json.isNumber_decimal i) (Json.isNumberByte_decimal i)
  | .str s => .str (Json.isSpelling_escape s)
  | .arr items => .arr (Value.spelled_itemsJson items)
  | .obj members => .obj (fun m hm => (Value.spelled_membersJson members m hm).1)
      fun m hm => (Value.spelled_membersJson members m hm).2

theorem Value.spelled_itemsJson : ∀ items : List (Value Empty),
    ∀ v ∈ itemsJson items, Json.Spelled v
  | [], v, hv => by simp [itemsJson] at hv
  | u :: us, v, hv => by
    rw [itemsJson, List.mem_cons] at hv
    rcases hv with rfl | hv
    · exact Value.spelled_toJson u
    · exact Value.spelled_itemsJson us v hv

theorem Value.spelled_membersJson : ∀ members : List (Bytes × Value Empty),
    ∀ m ∈ membersJson members, Json.IsSpelling m.1 ∧ m.2.Spelled
  | [], m, hm => by simp [membersJson] at hm
  | (key, v) :: ms, m, hm => by
    rw [membersJson, List.mem_cons] at hm
    rcases hm with rfl | hm
    · exact ⟨Json.isSpelling_escape key, Value.spelled_toJson v⟩
    · exact Value.spelled_membersJson ms m hm

end

open Classical in
/-- A text is read if its strings are UTF-8 and its integers have 64 bits. -/
noncomputable def plain : Yyjson Empty where
  read s := ((Json.read s).bind Value.ofJson).filter fun v => v.Proper
  write v := v.toJson.text

theorem plain_read_iff {s : Bytes} {v : Value Empty} :
    plain.read s = some v ↔ (Json.read s).bind Value.ofJson = some v ∧ v.Proper := by
  simp [plain, Option.filter_eq_some_iff]

theorem read_plain_write (v : Value Empty) :
    (Json.read (plain.write v)).bind Value.ofJson = some v := by
  have h : Json.read (plain.write v) = some v.toJson := Json.read_text v.spelled_toJson
  rw [h]
  exact v.ofJson_toJson

theorem plain_lawful : plain.Lawful where
  read_write h := plain_read_iff.mpr ⟨read_plain_write _, h⟩
  proper_of_read_write {v w} h := by
    obtain ⟨hw, hproper⟩ := plain_read_iff.mp h
    rw [read_plain_write, Option.some.injEq] at hw
    exact hw ▸ hproper
  proper_of_read h := (plain_read_iff.mp h).2
  read_emptyText := by
    refine plain_read_iff.mpr ⟨?_, .nil⟩
    exact read_plain_write (.obj [])
  read_notFoundText := by
    have htext : notFoundText = plain.write notFoundValue := by
      decide +kernel
    rw [htext]
    refine plain_read_iff.mpr ⟨read_plain_write _, ?_⟩
    exact .cons (.int (by decide)) (.cons (.text _) .nil)

end Mcp
end CodebaseMemory
