/-
`cartographer_ws/install_isolated/_setup_util.py`: the export lines it writes
for `setup.sh`, and what a shell makes of them.
-/
import Mathlib.Logic.Function.Basic
import LivoxScripts.Store.Layers
import LivoxScripts.Text.Filters

namespace LivoxScripts.SetupUtil

open TextTools Store

/-- `os.path.join` -/
def join (path sub : Text) : Text :=
  if sub.head? = some '/' then sub
  else if path = [] ∨ path.getLast? = some '/' then path ++ sub
  else path ++ '/' :: sub

theorem getLast?_join (path : Text) {sub : Text} (hne : sub ≠ []) :
    (join path sub).getLast? = sub.getLast? := by
  rw [join]
  split_ifs
  · rfl
  · exact List.getLast?_append_of_ne_nil path hne
  · rw [List.getLast?_append_cons, List.getLast?_cons_of_ne_nil hne]

/-- A name in a directory. -/
abbrev FileName := { t : Text // '/' ∉ t }

/-- What the script asks of the file system.  A directory that may not be read
has no listing: `os.listdir` raises an error. -/
structure FileSystem where
  pathExists : Text → Bool
  isfile : Text → Bool
  isdir : Text → Bool
  listdir : Text → Option (List FileName)

/-- The variables that are set. -/
abbrev Environ := Text → Option Text

/-- `environ[name] if name in environ else ''` -/
def Environ.value (environ : Environ) (name : Text) : Text :=
  (environ name).getD []

/-- `environ[name] = value` -/
def Environ.set (environ : Environ) (name value : Text) : Environ :=
  Function.update environ name (some value)

theorem Environ.value_set_self (environ : Environ) (name value : Text) :
    (environ.set name value).value name = value := by
  rw [Environ.value, Environ.set, Function.update_self]
  rfl

theorem Environ.value_set_of_ne (environ : Environ) {name other : Text}
    (h : other ≠ name) (value : Text) :
    (environ.set name value).value other = environ.value other := by
  rw [Environ.value, Environ.set, Function.update_of_ne h]
  rfl

/-- `[path for path in value.split(os.pathsep) if path]` -/
def splitPaths (value : Text) : List Text := wordsBy (· == ':') value

/-- `os.pathsep.join` -/
def joinPaths (paths : List Text) : Text := [':'].intercalate paths

/-- `export key="quoted"` -/
structure Export where
  key : Text
  quoted : Text
deriving DecidableEq

def isNameStart (c : Char) : Bool := c.isAlpha || c == '_'

def isNameChar (c : Char) : Bool := c.isAlphanum || c == '_'

/-- Inside double quotes these mean something else than a variable: the
backquote is 96. -/
def isSpecial (c : Char) : Bool := c == '"' || c == '\\' || c.toNat == 96

/-- The text after a `$`, with the variable it begins with replaced. -/
def expandName (environ : Environ) (piece : Text) : Option Text :=
  if piece.head?.any isNameStart then
    some (environ.value (piece.takeWhile isNameChar) ++
      piece.dropWhile isNameChar)
  else none

/-- What the shell makes of a word in double quotes, where variables are all
there is to expand. -/
def expand (environ : Environ) (quoted : Text) : Option Text :=
  if quoted.any isSpecial then none
  else
    ((quoted.splitOn '$').tail.mapM (expandName environ)).map fun values =>
      (quoted.splitOn '$').headD [] ++ values.flatten

def Export.run (environ : Environ) (line : Export) : Option Environ :=
  (expand environ line.quoted).map (environ.set line.key)

def runLines (environ : Environ) (lines : List Export) : Option Environ :=
  lines.foldlM Export.run environ

def assignment (key value : Text) : Export := ⟨key, value⟩

def prepend (environ : Environ) (key prefixStr : Text) : Export :=
  if (environ.value key).isEmpty then assignment key prefixStr
  else ⟨key, prefixStr ++ '$' :: key⟩

def catkinMarkerFile : Text := ".catkin".toList

def cmakePrefixPathKey : Text := "CMAKE_PREFIX_PATH".toList

def ldLibraryPathKey : Text := "LD_LIBRARY_PATH".toList

/-- Variables in the order of their names, each with its subfolders; one
subfolder stands for the list of it. -/
abbrev EnvVarSubfolders := List (Text × List Text)

/-- `ENV_VAR_SUBFOLDERS`, on Linux -/
def envVarSubfolders : EnvVarSubfolders :=
  [(cmakePrefixPathKey, [[]]),
    (ldLibraryPathKey, ["lib".toList, "lib/aarch64-linux-gnu".toList]),
    ("PATH".toList, ["bin".toList]),
    ("PKG_CONFIG_PATH".toList,
      ["lib/pkgconfig".toList, "lib/aarch64-linux-gnu/pkgconfig".toList]),
    ("PYTHONPATH".toList, ["lib/python3/dist-packages".toList])]

def fuerteRoot : Text := "/opt/ros/fuerte".toList

def isWorkspace (fs : FileSystem) (includeFuerte includeNonExisting : Bool)
    (path : Text) : Bool :=
  fs.isfile (join path catkinMarkerFile) ||
    (includeFuerte && fuerteRoot.isPrefixOf path) ||
      (includeNonExisting && !fs.pathExists path)

def getWorkspaces (fs : FileSystem) (environ : Environ)
    (includeFuerte includeNonExisting : Bool) : List Text :=
  (splitPaths (environ.value cmakePrefixPathKey)).filter
    (isWorkspace fs includeFuerte includeNonExisting)

/-- A folder of a workspace, which itself is the one without a name. -/
def folder (path subfolder : Text) : Text :=
  if subfolder = [] then path else join path subfolder

/-- `env_path[:-1]` if the path ends in a slash -/
def cleanPath (path : Text) : Text :=
  if path.getLast? = some '/' then path.dropLast else path

/-- A subfolder without a slash before and after it. -/
def trimSubfolder (subfolder : Text) : Text :=
  cleanPath (if subfolder.head? = some '/' then subfolder.tail else subfolder)

def pathToFind (wsPath subfolder : Text) : Text :=
  folder wsPath (trimSubfolder subfolder)

/-- The first path that is the one to find is removed, and the value counts as
modified. -/
def removePath (state : List Text × Bool) (find : Text) : List Text × Bool :=
  ((state.1.find? fun path => cleanPath path == find).map fun path =>
    (state.1.erase path, true)).getD state

def rollbackEnvVariable (fs : FileSystem) (environ : Environ) (name : Text)
    (subfolders : List Text) : Option Text :=
  let workspaces := getWorkspaces fs environ true true
  let state := subfolders.foldl (fun state subfolder =>
    workspaces.foldl (fun state wsPath =>
      removePath state (pathToFind wsPath subfolder)) state)
    (splitPaths (environ.value name), false)
  if state.2 then some (joinPaths state.1) else none

/-- The variables whose value changes, all computed from the environment as it
was. -/
def rolledBackValues (fs : FileSystem) (environ : Environ)
    (table : EnvVarSubfolders) : List (Text × Text) :=
  table.filterMap fun entry =>
    (rollbackEnvVariable fs environ entry.1 entry.2).map (entry.1, ·)

/-- The environment that the script goes on with, and the lines. -/
def rollbackEnvVariables (fs : FileSystem) (environ : Environ)
    (table : EnvVarSubfolders) : Environ × List Export :=
  let values := rolledBackValues fs environ table
  (values.foldl (fun environ v => environ.set v.1 v.2) environ,
    values.map fun v => assignment v.1 v.2)

/-- The folders of the workspaces, in the order in which they are tried. -/
def folders (paths subfolders : List Text) : List Text :=
  paths.flatMap fun path => subfolders.map (folder path)

/-- Folders that are there, that the variable does not name yet, each once. -/
def prefixEnvVariable (fs : FileSystem) (environ : Environ) (name : Text)
    (paths subfolders : List Text) : Text :=
  let environPaths := splitPaths (environ.value name)
  let checkedPaths :=
    newOnes environPaths ((folders paths subfolders).filter fs.pathExists)
  let prefixStr := joinPaths checkedPaths
  if prefixStr ≠ [] ∧ environPaths ≠ [] then prefixStr ++ [':'] else prefixStr

/-- The line for one variable. -/
def prependLine (fs : FileSystem) (environ : Environ) (paths : List Text)
    (entry : Text × List Text) : Export :=
  prepend environ entry.1 (prefixEnvVariable fs environ entry.1 paths entry.2)

def prependEnvVariables (fs : FileSystem) (environ : Environ)
    (table : EnvVarSubfolders) (workspaces : Text) : List Export :=
  let paths := splitPaths workspaces
  prependLine fs environ paths (cmakePrefixPathKey, [[]]) ::
    (table.filter (·.1 ≠ cmakePrefixPathKey)).map
      (prependLine fs environ paths)

/-- Hooks of one kind: their paths, beside them their workspaces, and the path
that stands for a file name. -/
structure EnvHooks where
  hooks : List Text
  hookWorkspaces : List Text
  byFilename : Text → Option Text

def EnvHooks.empty : EnvHooks := ⟨[], [], fun _ => none⟩

/-- `l.pop(i)`, which raises an error outside the list -/
def pop? (l : List Text) (i : Nat) : Option (List Text) :=
  if i < l.length then some (l.eraseIdx i) else none

/-- `l.index(x)`, which raises an error if the element is not there -/
def index? (l : List Text) (x : Text) : Option Nat :=
  if x ∈ l then some (l.idxOf x) else none

/-- The hook of the same name is removed, if there is one. -/
def EnvHooks.removePrevious (env : EnvHooks) (filename : Text) :
    Option EnvHooks :=
  (env.byFilename filename).elim (some env) fun hook => do
    let i ← index? env.hooks hook
    let hooks ← pop? env.hooks i
    let hookWorkspaces ← pop? env.hookWorkspaces i
    pure ⟨hooks, hookWorkspaces, env.byFilename⟩

def envHookDir (workspace : Text) : Text :=
  join (join (join workspace "etc".toList) "catkin".toList) "profile.d".toList

def EnvHooks.append (env : EnvHooks) (workspace filename : Text) : EnvHooks :=
  let hook := join (envHookDir workspace) filename
  ⟨env.hooks ++ [hook], env.hookWorkspaces ++ [workspace],
    Function.update env.byFilename filename (some hook)⟩

def EnvHooks.add (env : EnvHooks) (workspace filename : Text) :
    Option EnvHooks :=
  (env.removePrevious filename).map (·.append workspace filename)

/-- `filename.endswith('.sh')` -/
def isGeneric (filename : Text) : Bool := ".sh".toList.isSuffixOf filename

def catkinShellKey : Text := "CATKIN_SHELL".toList

/-- The extension of the shell, if it is known, and no other kind. -/
def isSpecific (environ : Environ) (filename : Text) : Bool :=
  !isGeneric filename && !(environ.value catkinShellKey).isEmpty &&
    ('.' :: environ.value catkinShellKey).isSuffixOf filename

/-- The names of the files in the hook directory, sorted. -/
def hookFiles (fs : FileSystem) (workspace : Text) : Option (List Text) :=
  if fs.isdir (envHookDir workspace) then
    (fs.listdir (envHookDir workspace)).map fun names =>
      (names.map Subtype.val).mergeSort lineLe
  else some []

/-- The generic and the specific hooks after one more file. -/
def addHook (environ : Environ) (workspace : Text) (env : EnvHooks × EnvHooks)
    (filename : Text) : Option (EnvHooks × EnvHooks) :=
  if isGeneric filename then
    (env.1.add workspace filename).map (·, env.2)
  else if isSpecific environ filename then
    (env.2.add workspace filename).map (env.1, ·)
  else some env

/-- The hooks to be sourced, each with its workspace; `none` if the script
raises an error. -/
def findEnvHooks (fs : FileSystem) (environ : Environ) (cmakePrefixPath : Text) :
    Option (List Text × List Text) := do
  let workspaces := (splitPaths cmakePrefixPath).filter fun path =>
    fs.isfile (join path catkinMarkerFile)
  let env ← workspaces.reverse.foldlM (fun env workspace => do
      let filenames ← hookFiles fs workspace
      filenames.foldlM (addHook environ workspace) env)
    (EnvHooks.empty, EnvHooks.empty)
  pure (env.1.hooks ++ env.2.hooks,
    env.1.hookWorkspaces ++ env.2.hookWorkspaces)

structure Arguments where
  extend : Bool
  localOnly : Bool

/-- A setup file: where it stands, and the prefix paths at the time at which it
was written. -/
structure SetupFile where
  basePath : Text
  generated : List Text

def SetupFile.cmakePrefixPath (file : SetupFile) (args : Arguments) : Text :=
  let paths := if args.localOnly then [] else file.generated
  joinPaths (if file.basePath ∈ paths then paths else file.basePath :: paths)

/-- The lines that set the variables of the table. -/
def exportLines (fs : FileSystem) (args : Arguments) (file : SetupFile)
    (environ : Environ) : List Export :=
  let rolledBack :=
    if args.extend then (environ, [])
    else rollbackEnvVariables fs environ envVarSubfolders
  rolledBack.2 ++ prependEnvVariables fs rolledBack.1 envVarSubfolders
    (file.cmakePrefixPath args)

end LivoxScripts.SetupUtil
