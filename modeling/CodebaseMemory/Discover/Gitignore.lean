import CodebaseMemory.Lib.Text
import CodebaseMemory.Sqlite.Record

/-!
# Ignore files (`src/discover/gitignore.c`)

Glob matching, the parser of ignore files and `cbm_gitignore_matches`.

`glob_match` is run with as many rounds as the pattern has bytes: every call
and every turn of its loop uses up a byte of the pattern at least.  `char` is
signed, as on x86; this matters for ranges of bytes from 128 on only.
-/

namespace CodebaseMemory
namespace Discover

open Lib
open Sqlite (CStr bytesOf)

/-- The value of a `char`. -/
def charValue (b : UInt8) : Int :=
  if b < 128 then (b.toNat : Int) else (b.toNat : Int) - 256

/-- The loop of `glob_match_charclass`: whether a member of the class was met,
and the pattern behind the closing bracket. -/
def charclassLoop (ch : UInt8) : CStr → UInt8 → Bool → Bool × CStr
  | [], _, matched => (matched, [])
  | [c], _, matched =>
      if c = 93 then (matched, []) else (matched || ch == c, [])
  | c :: x :: rest, prev, matched =>
      if c = 93 then (matched, x :: rest)
      else if c = 45 ∧ prev ≠ 0 ∧ x ≠ 93 then
        charclassLoop ch rest x
          (matched || (decide (charValue prev ≤ charValue ch) &&
            decide (charValue ch ≤ charValue x)))
      else charclassLoop ch (x :: rest) c (matched || ch == c)

def globMatchCharclass (pat : CStr) (ch : UInt8) : Bool × CStr :=
  match pat with
  | c :: rest =>
      if c = 33 ∨ c = 94 then
        let r := charclassLoop ch rest 0 false
        (!r.1, r.2)
      else charclassLoop ch pat 0 false
  | [] => charclassLoop ch [] 0 false

/-- Try `f` here and behind every slash. -/
def afterSlashes (f : CStr → Bool) : CStr → Bool
  | [] => false
  | c :: rest => (c == 47 && f rest) || afterSlashes f rest

/-- Try `f` at every position, the end included. -/
def anywhere (f : CStr → Bool) : CStr → Bool
  | [] => f []
  | c :: rest => f (c :: rest) || anywhere f rest

/-- `glob_match_star`: try `f` at every position up to the next slash. -/
def globMatchStar (f : CStr → Bool) : CStr → Bool
  | [] => f []
  | c :: rest => f (c :: rest) || (c != 47 && globMatchStar f rest)

/-- `glob_match_doublestar`; `pat` is what follows the two stars. -/
def globMatchDoublestar (f : CStr → CStr → Bool) (pat str : CStr) : Bool :=
  match pat with
  | [] => true
  | c :: rest => if c = 47 then f rest str || afterSlashes (f rest) str else anywhere (f pat) str

/-- `glob_match`, with a bound on its turns. -/
def globRounds : Nat → CStr → CStr → Bool
  | 0, _, str => str.isEmpty
  | _ + 1, [], str => str.isEmpty
  | _ + 1, pat, [] => (pat.dropWhile (· == 42)).isEmpty
  | n + 1, p :: ps, c :: cs =>
      if p = 42 then
        match ps with
        | q :: qs =>
            if q = 42 then globMatchDoublestar (globRounds n) qs (c :: cs)
            else globMatchStar (globRounds n ps) (c :: cs)
        | [] => globMatchStar (globRounds n ps) (c :: cs)
      else if p = 63 then
        if c = 47 then false else globRounds n ps cs
      else if p = 91 then
        let r := globMatchCharclass ps c
        if r.1 then globRounds n r.2 cs else false
      else if p ≠ c then false
      else globRounds n ps cs

def globMatch (pat str : CStr) : Bool :=
  globRounds pat.length pat str

example : globMatch (bytesOf "src/**/*.[ch]") (bytesOf "src/a/b/main.c") = true := by decide +kernel

example : globMatch (bytesOf "*.c") (bytesOf "a/main.c") = false := by decide +kernel

/-- `gi_pattern_t`. -/
structure GiPattern where
  pattern : CStr
  negated : Bool
  dirOnly : Bool
  rooted : Bool

/-- `struct cbm_gitignore`: the patterns in order. -/
abbrev Gitignore := List GiPattern

/-- A line without spaces, tabs and carriage returns at its end. -/
def trimLine (line : CStr) : CStr :=
  (line.reverse.dropWhile fun c => c == 32 || c == 9 || c == 13).reverse

/-- `gi_add_pattern`: the pattern of a line, if it has one.  A part that is cut
off to nothing ends the parse. -/
def giPattern (line : CStr) : Option GiPattern :=
  let text := trimLine line
  if text = [] then none else
  let negated := text.head? == some 33
  let text := if negated then text.tail else text
  if text = [] then none else
  let dirOnly := text.getLast? == some 47
  let text := if dirOnly then text.dropLast else text
  if text = [] then none else
  let slashed := text.head? == some 47
  let text := if slashed then text.tail else text
  if text = [] then none else
  some { pattern := text, negated := negated, dirOnly := dirOnly,
         rooted := slashed || text.contains 47 }

/-- `cbm_gitignore_parse`: comments and empty lines have no pattern. -/
def cbmGitignoreParse (content : CStr) : Gitignore :=
  (content.splitOn 10).filterMap fun line =>
    if line = [] ∨ line.head? = some 35 then none else giPattern line

def pathSuffixes (path : CStr) : List CStr :=
  (path.splitOn 47).tails.filterMap fun parts =>
    if parts = [] then none else some (join 47 parts)

/-- `match_unrooted`: the last component, and the path from each component on.
The loop ends at the end of the text, so an empty last component is not tried. -/
def matchUnrooted (pattern relPath basename : CStr) : Bool :=
  if globMatch pattern basename then true
  else if ¬ relPath.contains 47 then false
  else (pathSuffixes relPath).any fun s => s ≠ [] && globMatch pattern s

/-- What follows the last slash of a path. -/
def pathBase (relPath : CStr) : CStr :=
  match splitLast 47 relPath with
  | some (_, name) => name
  | none => relPath

def GiPattern.hits (p : GiPattern) (relPath : CStr) (isDir : Bool) : Bool :=
  if p.dirOnly && !isDir then false
  else if p.rooted then globMatch p.pattern relPath
  else matchUnrooted p.pattern relPath (pathBase relPath)

/-- `cbm_gitignore_matches`: the last pattern that matches decides. -/
def cbmGitignoreMatches (gi : Gitignore) (relPath : CStr) (isDir : Bool) : Bool :=
  gi.foldl (fun matched p => if p.hits relPath isDir then !p.negated else matched) false

end Discover
end CodebaseMemory
