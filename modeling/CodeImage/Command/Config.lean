import CodeImage.Command.Task
import CodeImage.Toml.Reader

namespace CodeImage

structure Config where
  definitions : List String := []
  verifyRoundTrip : Bool := true
  root : Option String := none
deriving DecidableEq, Inhabited, Repr

namespace Config

def texts? : TomlValue → Option (List String)
  | .array items => items.mapM fun
    | .string text => some text
    | _ => none
  | _ => none

def flag? : TomlValue → Option Bool
  | .bool value => some value
  | _ => none

def setting (value : Option TomlValue) (missing : α) (read : TomlValue → Option α) : Option α :=
  match value with
  | none => some missing
  | some value => read value

def ofSettings? (definitions verify : Option TomlValue) : Option Config := do
  return { definitions := ← setting definitions [] texts?, verifyRoundTrip := ← setting verify true flag? }

-- The settings of patching: a table, or a list of the values of its keys. A time has none of the keys.
def ofPatch? : TomlValue → Option Config
  | .table _ entries => ofSettings? (entries.lookup "defs") (entries.lookup "verify_roundtrip")
  | .array items => ofSettings? items[0]? items[1]?
  | .time => ofSettings? none none
  | _ => none

def ofTable? (table : TomlTable) : Option Config :=
  match table.lookup "log_level" with
  | none | some (.string _) => setting (table.lookup "patch") {} ofPatch?
  | some _ => none

def parse? (text : String) : Option Config := (TomlReader.document? text).bind ofTable?

def paths (config : Config) : List String :=
  config.definitions.map fun path =>
    match config.root with
    | some root => Path.join root path
    | none => path

def fileNames : List String := ["hbc.toml", ".hbc.toml"]

def firstFile : List String → Task (Option String)
  | [] => pure none
  | path :: rest => do
    if (← Task.kindOf path) = some .file then return some path
    firstFile rest

def nearest : Task (Option String) := do
  let directory ← Task.workingDirectory
  firstFile ((Path.ancestors directory.length directory).flatMap fun outer => fileNames.map (Path.join outer))

def loadFile (path : String) : Task Config := do
  let text ← Task.orFail (← Task.readText path) fun fault => ⟨fault.message, []⟩
  match parse? text with
  | none => .fail ⟨s!"Failed to parse {path}: TOML parse error", []⟩
  | some config => return { config with root := Path.parent? path }

def load (path : Option String) : Task Config := do
  match path with
  | some path =>
    if (← Task.kindOf path).isNone then .fail ⟨s!"Config file {path} does not exist", []⟩
    loadFile path
  | none =>
    match ← nearest with
    | some path => loadFile path
    | none => return {}

end Config
end CodeImage
