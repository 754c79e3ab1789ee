import CodebaseMemory.Discover.Gitignore

/-!
# The directory walk (`src/discover/discover.c`)

The filters, the walk with its stack of frames and `cbm_discover`.

Reading aids:
* A directory is the list of its entries in the order in which `cbm_readdir`
  gives them, with what they lead to.  There are no symbolic links.
* Paths fit into the buffers of 4096 bytes, and every directory can be opened.
* `stat` of a file gives its size; its bytes matter if it is an ignore file or
  named `.m`.  The languages of file names are a parameter.
* What the walk does is a list of events, in order; `files` and `excluded` are
  the two lists of `file_list_t`.
-/

namespace CodebaseMemory
namespace Discover

open Lib
open Sqlite (CStr bytesOf)

/-- `cbm_index_mode_t`. -/
inductive IndexMode where
  | full
  | moderate
  | fast
deriving DecidableEq

def alwaysSkipDirs : List CStr :=
  [".git", ".hg", ".svn", ".worktrees",
   ".idea", ".vs", ".vscode", ".eclipse", ".claude",
   ".cache", ".eggs", ".env", ".mypy_cache", ".nox", ".pytest_cache", ".ruff_cache", ".tox",
   ".venv", "__pycache__", "env", "htmlcov", "site-packages", "venv",
   ".npm", ".nyc_output", ".pnpm-store", ".yarn", "bower_components", "coverage", "node_modules",
   ".next", ".nuxt", ".svelte-kit", ".angular", ".turbo", ".parcel-cache", ".docusaurus", ".expo",
   "dist", "obj", "Pods", "target", "temp", "tmp", ".terraform", ".serverless", "bazel-bin",
   "bazel-out", "bazel-testlogs",
   ".cargo", ".stack-work", ".dart_tool", "zig-cache", "zig-out", ".metals", ".bloop", ".bsp",
   ".ccls-cache", ".clangd", "elm-stuff", "_opam", ".cpcache", ".shadow-cljs",
   ".vercel", ".netlify",
   ".qdrant_code_embeddings", ".tmp", "vendor", "vendored"].map bytesOf

def fastSkipDirs : List CStr :=
  ["generated", "gen", "auto-generated", "fixtures", "testdata", "test_data",
   "__tests__", "__mocks__", "__snapshots__", "__fixtures__", "__test__", "docs",
   "doc", "documentation", "examples", "example", "samples", "sample",
   "assets", "static", "public", "media", "third_party", "thirdparty",
   "3rdparty", "external", "migrations", "seeds", "e2e", "integration",
   "locale", "locales", "i18n", "l10n", "scripts", "tools",
   "hack", "bin", "build", "out"].map bytesOf

def alwaysIgnoredSuffixes : List CStr :=
  [".tmp", "~", ".pyc", ".pyo", ".o", ".a", ".so", ".dll",
   ".class", ".png", ".jpg", ".jpeg", ".gif", ".ico", ".bmp", ".tiff",
   ".webp", ".svg", ".wasm", ".node", ".exe", ".bin", ".dat", ".db",
   ".sqlite", ".sqlite3", ".woff", ".woff2", ".ttf", ".eot", ".otf"].map bytesOf

def fastIgnoredSuffixes : List CStr :=
  [".zip", ".tar", ".gz", ".bz2", ".xz", ".rar", ".7z", ".jar",
   ".war", ".ear", ".mp3", ".mp4", ".avi", ".mov", ".wav", ".flac",
   ".ogg", ".mkv", ".webm", ".pdf", ".doc", ".docx", ".xls", ".xlsx",
   ".ppt", ".pptx", ".odt", ".ods", ".map", ".min.js", ".min.css", ".pem",
   ".crt", ".key", ".cer", ".p12", ".pb", ".avro", ".parquet", ".beam",
   ".elc", ".rlib", ".coverage", ".prof", ".out", ".patch", ".diff"].map bytesOf

def fastSkipFilenames : List CStr :=
  ["LICENSE", "LICENSE.txt", "LICENSE.md", "LICENSE-MIT", "LICENSE-APACHE",
   "LICENCE", "LICENCE.txt", "LICENCE.md", "CHANGELOG", "CHANGELOG.md",
   "CHANGES.md", "HISTORY", "HISTORY.md", "AUTHORS", "AUTHORS.md",
   "CONTRIBUTORS", "CONTRIBUTORS.md", "CODEOWNERS", "go.sum", "yarn.lock",
   "pnpm-lock.yaml", "Pipfile.lock", "poetry.lock", "Gemfile.lock", "Cargo.lock",
   "mix.lock", "flake.lock", "pubspec.lock", "composer.lock", "package-lock.json",
   "configure", "Makefile.in", "config.guess", "config.sub"].map bytesOf

def fastPatterns : List CStr :=
  [".d.ts", ".bundle.", ".chunk.", ".generated.",
   ".pb.go", "_pb2.py", ".pb2.py", "_grpc.pb.go",
   "_string.go", "mock_", "_mock.", "_test_helpers.",
   ".stories.", ".spec.", ".test."].map bytesOf

def ignoredJsonFiles : List CStr :=
  ["package.json", "package-lock.json", "tsconfig.json",
   "jsconfig.json", "composer.json", "composer.lock",
   "yarn.lock", "openapi.json", "swagger.json",
   "jest.config.json", ".eslintrc.json", ".prettierrc.json",
   ".babelrc.json", "tslint.json", "angular.json",
   "firebase.json", "renovate.json", "lerna.json",
   "turbo.json", ".stylelintrc.json", "pnpm-lock.json",
   "deno.json", "biome.json", "devcontainer.json",
   ".devcontainer.json", "launch.json", "settings.json",
   "extensions.json", "tasks.json"].map bytesOf

def cbmShouldSkipDir (dirname : CStr) (mode : IndexMode) : Bool :=
  alwaysSkipDirs.contains dirname || (mode != .full && fastSkipDirs.contains dirname)

def cbmHasIgnoredSuffix (filename : CStr) (mode : IndexMode) : Bool :=
  alwaysIgnoredSuffixes.any (fun s => s.isSuffixOf filename) ||
    (mode != .full && fastIgnoredSuffixes.any fun s => s.isSuffixOf filename)

def cbmShouldSkipFilename (filename : CStr) (mode : IndexMode) : Bool :=
  mode != .full && fastSkipFilenames.contains filename

def strContains (s sub : CStr) : Bool :=
  s.tails.any fun t => sub.isPrefixOf t

def cbmMatchesFastPattern (filename : CStr) (mode : IndexMode) : Bool :=
  mode != .full && fastPatterns.any fun p => strContains filename p

structure FileData where
  size : Int
  content : CStr

/-- The entries of a directory, in order. -/
inductive Dir where
  | empty
  | file (name : CStr) (data : FileData) (rest : Dir)
  | subdir (name : CStr) (sub rest : Dir)

def Dir.file? (name : CStr) : Dir → Option FileData
  | .empty => none
  | .file n data rest => if n = name then some data else rest.file? name
  | .subdir n _ rest => if n = name then none else rest.file? name

def Dir.hasSubdir (name : CStr) : Dir → Bool
  | .empty => false
  | .file n _ rest => if n = name then false else rest.hasSubdir name
  | .subdir n _ rest => if n = name then true else rest.hasSubdir name

/-- The number of directories below. -/
def Dir.dirCount : Dir → Nat
  | .empty => 0
  | .file _ _ rest => rest.dirCount
  | .subdir _ sub rest => 1 + sub.dirCount + rest.dirCount

/-- The languages, with the functions of `language.c` that the walk calls. -/
structure Languages (L : Type) where
  /-- `CBM_LANG_JSON` -/
  json : L
  /-- `cbm_language_for_filename`; `none` is `CBM_LANG_COUNT` -/
  forFilename : CStr → Option L
  /-- `cbm_disambiguate_m`, from the content of the file -/
  disambiguateM : CStr → L

/-- `cbm_discover_opts_t`. -/
structure DiscoverOpts where
  mode : IndexMode
  maxFileSize : Int
  /-- `ignore_file`: NULL, or what it leads to -/
  ignoreFile : Option (Option CStr)

/-- What stays the same during a walk. -/
structure Walk (L : Type) where
  languages : Languages L
  opts : DiscoverOpts
  gitignore : Option Gitignore
  cbmignore : Option Gitignore

/-- `walk_frame_t`; the directory itself is at hand. -/
structure Frame where
  dir : CStr
  contents : Dir
  relPrefix : CStr
  localGi : Option Gitignore
  localGiPrefix : CStr

/-- `cbm_file_info_t`. -/
structure FileInfo (L : Type) where
  path : CStr
  relPath : CStr
  language : L
  size : Int

def localRelPath (relPath localPrefix : CStr) : CStr :=
  if localPrefix = [] then relPath
  else if (localPrefix ++ [47]).isPrefixOf relPath then relPath.drop (localPrefix.length + 1)
  else relPath

def ignoredBy (gi : Option Gitignore) (relPath : CStr) (isDir : Bool) : Bool :=
  match gi with
  | some gi => cbmGitignoreMatches gi relPath isDir
  | none => false

section Walk

variable {L : Type} [DecidableEq L]
variable (w : Walk L)

/-- The ignore files that `should_skip_directory` and `should_skip_file` ask. -/
def Walk.ignores (f : Frame) (relPath : CStr) (isDir : Bool) : Bool :=
  ignoredBy w.gitignore relPath isDir ||
    (ignoredBy f.localGi (localRelPath relPath f.localGiPrefix) isDir ||
      ignoredBy w.cbmignore relPath isDir)

def Walk.shouldSkipDirectory (f : Frame) (name relPath : CStr) : Bool :=
  cbmShouldSkipDir name w.opts.mode || w.ignores f relPath true

/-- The filters of `should_skip_file` that are built in. -/
def Walk.filtersFile (name : CStr) (size : Int) : Bool :=
  cbmHasIgnoredSuffix name w.opts.mode || cbmShouldSkipFilename name w.opts.mode ||
    cbmMatchesFastPattern name w.opts.mode ||
    (decide (w.opts.maxFileSize > 0) && decide (size > w.opts.maxFileSize))

/-- `should_skip_file`; the order of the tests does not matter. -/
def Walk.shouldSkipFile (f : Frame) (name relPath : CStr) (size : Int) : Bool :=
  w.filtersFile name size || w.ignores f relPath false

def Walk.detectFileLanguage (name content : CStr) : Option L :=
  match w.languages.forFilename name with
  | none => none
  | some lang =>
      let isM := match splitLast 46 name with
        | some (_, ext) => ext == bytesOf "m"
        | none => false
      let lang := if isM then w.languages.disambiguateM content else lang
      if lang = w.languages.json ∧ ignoredJsonFiles.contains name then none else some lang

/-- What the walk does. -/
inductive Event (L : Type) where
  /-- a directory is opened -/
  | opened (relPath : CStr)
  /-- the language of a file is asked for -/
  | examined (relPath : CStr)
  /-- a file is added to the list -/
  | listed (info : FileInfo L)
  /-- a directory is noted as excluded -/
  | excluded (relPath : CStr)

/-- `walk_dir_process_file`. -/
def Walk.processFile (f : Frame) (name relPath : CStr) (data : FileData) : List (Event L) :=
  if w.shouldSkipFile f name relPath data.size then []
  else
    match w.detectFileLanguage name data.content with
    | none => [.examined relPath]
    | some lang =>
        [.examined relPath,
         .listed { path := f.dir ++ 47 :: name, relPath := relPath, language := lang,
                   size := data.size }]

def Frame.relPath (f : Frame) (name : CStr) : CStr :=
  if f.relPrefix ≠ [] then f.relPrefix ++ 47 :: name else name

/-- The frame that `walk_push_subdir` writes. -/
def Frame.child (f : Frame) (name : CStr) (sub : Dir) : Frame :=
  { dir := f.dir ++ 47 :: name
    contents := sub
    relPrefix := f.relPath name
    localGi := f.localGi
    localGiPrefix := f.localGiPrefix }

def walkStackCap : Nat := 512

/-- `walk_push_subdir`; the head of the list is the top of the stack. -/
def walkPushSubdir (stack : List Frame) (f : Frame) : List Frame :=
  if stack.length ≥ walkStackCap then stack else f :: stack

/-- `walk_dir_process_entry` for each entry of a directory. -/
def Walk.processEntries (f : Frame) : Dir → List Frame × List (Event L) →
    List Frame × List (Event L)
  | .empty, st => st
  | .file name data rest, st =>
      Walk.processEntries f rest (st.1, st.2 ++ w.processFile f name (f.relPath name) data)
  | .subdir name sub rest, st =>
      if w.shouldSkipDirectory f name (f.relPath name) then
        Walk.processEntries f rest (st.1, st.2 ++ [.excluded (f.relPath name)])
      else Walk.processEntries f rest (walkPushSubdir st.1 (f.child name sub), st.2)

/-- `try_load_nested_gitignore`, and what `walk_dir` does with the result. -/
def Frame.load (f : Frame) : Frame :=
  if f.localGi.isSome ∨ f.relPrefix = [] then f
  else
    match f.contents.file? (bytesOf ".gitignore") with
    | some data =>
        { f with localGi := some (cbmGitignoreParse data.content), localGiPrefix := f.relPrefix }
    | none => f

/-- The loop of `walk_dir`, with a bound on its turns. -/
def Walk.rounds : Nat → List Frame × List (Event L) → List Frame × List (Event L)
  | 0, st => st
  | _ + 1, ([], out) => ([], out)
  | n + 1, (f :: stack, out) =>
      Walk.rounds n (w.processEntries f.load f.contents (stack, out ++ [.opened f.relPrefix]))

def rootFrame (repoPath : CStr) (root : Dir) : Frame :=
  { dir := repoPath, contents := root, relPrefix := [], localGi := none, localGiPrefix := [] }

/-- `walk_dir`: every turn takes a directory off the stack for good. -/
def Walk.walkDir (repoPath : CStr) (root : Dir) : List (Event L) :=
  (w.rounds (root.dirCount + 1) ([rootFrame repoPath root], [])).2

/-- The list `files`. -/
def filesOf (events : List (Event L)) : List (FileInfo L) :=
  events.filterMap fun
    | .listed info => some info
    | _ => none

/-- The list `excluded`. -/
def excludedOf (events : List (Event L)) : List CStr :=
  events.filterMap fun
    | .excluded relPath => some relPath
    | _ => none

end Walk

section Discover

variable {L : Type}

/-- The walk that `cbm_discover_ex` sets up: the ignore file of the root counts
if there is a `.git` directory. -/
def discoverWalk (languages : Languages L) (opts : DiscoverOpts) (root : Dir) : Walk L :=
  { languages := languages
    opts := opts
    gitignore :=
      if root.hasSubdir (bytesOf ".git") then
        (root.file? (bytesOf ".gitignore")).map fun data => cbmGitignoreParse data.content
      else none
    cbmignore :=
      match opts.ignoreFile with
      | some content => content.map cbmGitignoreParse
      | none => (root.file? (bytesOf ".cbmignore")).map fun data => cbmGitignoreParse data.content }

variable [DecidableEq L]

/-- `cbm_discover_ex` for a directory: the files and the excluded directories. -/
def cbmDiscoverEx (languages : Languages L) (opts : DiscoverOpts) (repoPath : CStr) (root : Dir) :
    List (FileInfo L) × List CStr :=
  let events := (discoverWalk languages opts root).walkDir repoPath root
  (filesOf events, excludedOf events)

def cbmDiscover (languages : Languages L) (opts : DiscoverOpts) (repoPath : CStr) (root : Dir) :
    List (FileInfo L) :=
  (cbmDiscoverEx languages opts repoPath root).1

end Discover

end Discover
end CodebaseMemory
