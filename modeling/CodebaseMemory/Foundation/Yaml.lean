import CodebaseMemory.Lib.Rose
import CodebaseMemory.Lib.Text
import CodebaseMemory.Sqlite.Record

/-!
# The YAML parser (`src/foundation/yaml.c`)

A parser of maps, lists and scalars, line by line, with a stack of the maps and lists
that are open, and the look-ups by dotted paths.

Reading aids:
* A pointer to a node of the tree is its address, which it keeps while the tree grows.
* The loops over lines and over the segments of a path stop at the end of the text, so
  that an empty piece behind the last separator is none (`pieces`).
* Texts have no NUL bytes; lengths fit an `int`; allocation failures are left out.
-/

namespace CodebaseMemory
namespace Foundation

open Lib
open Sqlite (CStr)

/-- `yaml_type_t` -/
inductive YamlType where
  | map
  | list
  | scalar
deriving DecidableEq

/-- `cbm_yaml_node`, without its children -/
structure YamlLabel where
  type : YamlType
  key : Option CStr
  value : Option CStr

/-- `cbm_yaml_node_t` -/
abbrev YamlNode := Rose YamlLabel

/-- `node_new`, with the fields that the callers set -/
def nodeNew (type : YamlType) (key value : Option CStr) : YamlNode :=
  .leaf { type := type, key := key, value := value }

/-- `node_add_child`, at the address of the parent -/
def nodeAddChild (root : YamlNode) (parent : List Nat) (child : YamlNode) : YamlNode :=
  root.modifyAt (Rose.addAll [child]) parent

def nextChild (root : YamlNode) (parent : List Nat) : List Nat :=
  parent ++ [((root.at? parent).map fun n => n.children.length).getD 0]

def isSpace (c : UInt8) : Bool :=
  c = 32 || (9 ≤ c && c ≤ 13)

def trimDup (s : CStr) : CStr :=
  trim isSpace s

def leadingSpaces (line : CStr) : Nat :=
  (line.takeWhile fun c => c = 32).length

/-- `content`: a line without its leading spaces and without a CR at its end -/
def lineContent (line : CStr) : CStr :=
  let content := line.dropWhile fun c => c = 32
  if content.getLast? = some 13 then content.dropLast else content

/-- Empty lines and comments are skipped. -/
def isSkipped (content : CStr) : Bool :=
  content = [] || content.head? = some 35

/-- The pieces of a text between separators, without an empty one at the end. -/
def pieces (c : UInt8) (s : CStr) : List CStr :=
  let parts := s.splitOn c
  if parts.getLast? = some [] then parts.dropLast else parts

/-- The text before the first `#` that a space stands before, with that space. -/
def beforeComment : CStr → Option CStr
  | [] => none
  | c :: rest =>
      if c = 32 ∧ rest.head? = some 35 then some [32]
      else (beforeComment rest).map (c :: ·)

def stripInlineComment (after : CStr) : CStr :=
  if after.head? = some 34 ∨ after.head? = some 39 then after
  else
    match beforeComment after with
    | none => after
    | some s => s.rdropWhile isSpace

/-- `memchr(content, ':')`: what stands before the first colon and behind it -/
def splitColon (content : CStr) : Option (CStr × CStr) :=
  if 58 ∈ content then
    some (content.takeWhile (fun c => c ≠ 58), (content.dropWhile fun c => c ≠ 58).tail)
  else none

/-- `stack_entry_t` -/
structure StackEntry where
  node : List Nat
  indent : Int

/-- The tree and the stack, the top of the stack first. -/
structure ParseState where
  root : YamlNode
  stack : List StackEntry

def stackRoom : Nat := 32

def parseListItem (content : CStr) (parent : List Nat) (root : YamlNode) : YamlNode :=
  let item := nodeNew .scalar none (some (trimDup ((content.drop 2).dropWhile isSpace)))
  nodeAddChild root (listParent root parent) item
where
  /-- in a map the items belong to the last child, if it is a list -/
  listParent (root : YamlNode) (parent : List Nat) : List Nat :=
    match root.at? parent with
    | none => parent
    | some n =>
        match n.children.getLast? with
        | none => parent
        | some last =>
            if n.label.type = .map ∧ last.label.type = .list then
              parent ++ [n.children.length - 1]
            else parent

/-- `peek_is_list`: the first line of the rest that is not skipped -/
def peekIsList : List CStr → Bool
  | [] => false
  | line :: rest =>
      if isSkipped (lineContent line) then peekIsList rest
      else (lineContent line).head? = some 45

def parseKeyLine (content : CStr) (indent : Nat) (rest : List CStr) (parent : List Nat)
    (s : ParseState) : ParseState :=
  match splitColon content with
  | none => s
  | some (before, behind) =>
      let key := trimDup before
      let after := stripInlineComment (behind.dropWhile isSpace)
      if after ≠ [] then
        { s with root := nodeAddChild s.root parent
                  (nodeNew .scalar (some key) (some (trimDup after))) }
      else
        let type := if peekIsList rest then YamlType.list else YamlType.map
        { root := nodeAddChild s.root parent (nodeNew type (some key) none)
          stack :=
            if s.stack.length < stackRoom then
              { node := nextChild s.root parent, indent := indent } :: s.stack
            else s.stack }

/-- The loop that pops the stack; the root stays. -/
def popStack (indent : Int) : List StackEntry → List StackEntry
  | [] => []
  | [e] => [e]
  | e :: below => if indent ≤ e.indent then popStack indent below else e :: below

/-- One round of `cbm_yaml_parse`; `rest` are the lines behind this one. -/
def parseLine (line : CStr) (rest : List CStr) (s : ParseState) : ParseState :=
  let indent := leadingSpaces line
  let content := lineContent line
  if isSkipped content then s
  else
    let s := { s with stack := popStack indent s.stack }
    let parent := (s.stack.head?.map StackEntry.node).getD []
    if [45, 32] <+: content then { s with root := parseListItem content parent s.root }
    else parseKeyLine content indent rest parent s

/-- The loop of `cbm_yaml_parse`. -/
def parseLines : List CStr → ParseState → ParseState
  | [], s => s
  | line :: rest, s => parseLines rest (parseLine line rest s)

/-- The root and the stack before the first line. -/
def parseStart : ParseState :=
  { root := nodeNew .map none none, stack := [{ node := [], indent := -1 }] }

def cbmYamlParse (text : CStr) : YamlNode :=
  (parseLines (pieces 10 text) parseStart).root

def findChild (node : YamlNode) (key : CStr) : Option YamlNode :=
  node.children.find? fun child => child.label.key = some key

/-- The room for a segment of a path, with the zero at its end. -/
def segmentRoom : Nat := 256

/-- The loop of `navigate`. -/
def navigateFrom : YamlNode → List CStr → Option YamlNode
  | cur, [] => some cur
  | cur, segment :: rest =>
      if segment = [] ∨ segmentRoom ≤ segment.length then none
      else (findChild cur segment).bind fun child => navigateFrom child rest

def navigate (root : YamlNode) (path : CStr) : Option YamlNode :=
  navigateFrom root (pieces 46 path)

def cbmYamlGetStr (root : YamlNode) (path : CStr) : Option CStr :=
  (navigate root path).bind fun node =>
    if node.label.type = .scalar then node.label.value else none

def cbmYamlGetStrList (root : YamlNode) (path : CStr) (maxOut : Nat) : List CStr :=
  match navigate root path with
  | none => []
  | some node =>
      if node.label.type = .list then
        (node.children.filterMap fun child =>
          if child.label.type = .scalar then child.label.value else none).take maxOut
      else []

end Foundation
end CodebaseMemory
