import CodeImage.Command.Arguments
import CodeImage.Command.Config
import CodeImage.Command.Report
import CodeImage.Image.Reader
import CodeImage.Image.Writer
import CodeImage.Patch.Json
import CodeImage.Patch.Run

namespace CodeImage
namespace Command

def failed (e : ImageError) : Failure :=
  match e with
  | .source reason => ⟨e.message, [reason]⟩
  | _ => ⟨e.message, []⟩

def within (message : String) (inner : Failure) : Failure := ⟨message, inner.message :: inner.causes⟩

def pieceSize : Nat := 65536

-- Reads an image from a file. A directory can be opened and only then not be read.
def loadImage (path : String) (options : ReadOptions) : Task Image := do
  let image : Except ImageError Image ← match ← Task.readFile path with
    | .ok data => pure (Image.parseSource (chunks pieceSize data) none options)
    | .error .isDirectory => pure (Image.parseSource [] (some FileFault.isDirectory.message) options)
    | .error fault => .fail ⟨s!"Failed to open {path}", [fault.message]⟩
  Task.orFail image fun e => within s!"Failed to parse {path}" (failed e)

def save (path : String) (data : ByteArray) : Task Unit := do
  match Path.parent? path with
  | none | some "" => pure ()
  | some directory =>
    Task.makeDirectories directory fun result => Task.orFail result fun fault => ⟨fault.message, []⟩
  Task.write path data fun result =>
    Task.orFail result fun fault => ⟨s!"Failed to write {path}", [fault.message]⟩

def readWhole (path : String) : Task ByteArray := do
  Task.orFail (← Task.readFile path) fun fault => ⟨s!"Failed to read {path}", [fault.message]⟩

def runInfo (file : String) (json functions : Bool) : Task Unit := do
  let data ← readWhole file
  let header ← Task.orFail (Header.parse data) failed
  let image ← Task.orFail (Image.parse data) failed
  let report := Report.make header image (functions || json)
  if json then Task.say (report.json.pretty 0)
  else report.lines.forM Task.say

def verifyEach : List String → (failures : Nat) → Task Nat
  | [], failures => pure failures
  | path :: rest, failures => do
    let data ← readWhole path
    match Image.verify data with
    | .ok image =>
      Task.say s!"ok    {path} ({data.size} bytes, {image.functions.size} functions)"
      verifyEach rest failures
    | .error e =>
      Task.say s!"FAIL  {path}: {e.message}"
      verifyEach rest (failures + 1)

def runVerify (files : List String) : Task Unit := do
  let failures ← verifyEach files 0
  if 0 < failures then .fail ⟨s!"{failures} of {files.length} files failed verification", []⟩

def runResave (input output : String) (version : Option UInt32) (checkHash : Bool) : Task Unit := do
  let image ← loadImage input { verifyDigest := checkHash }
  let data ← Task.orFail (image.write version) failed
  save output data
  Task.say s!"Wrote {output} ({data.size} bytes)"

def label (index : Nat) (selector : Selector) : String :=
  match selector.identifier, selector.strings with
  | some name, _ => s!"#{index} {name}"
  | none, text :: _ => s!"#{index} {Text.quoted text}"
  | none, [] => s!"#{index}"

def outcomeLines (depth : Nat) : List Patch → (index : Nat) → List Outcome → List String
  | first :: rest, index, outcome :: outcomes =>
    let line := String.ofList (List.replicate (2 * depth) ' ') ++ s!"{label index first.selector}: {outcome.message}"
    let inner := match first with
      | .nested _ patches => outcomeLines (depth + 1) patches 0 outcome.nested
      | _ => []
    line :: inner ++ outcomeLines depth rest (index + 1) outcomes
  | _, _, _ => []

def loadPatches : List String → Task (List Patch)
  | [] => pure []
  | path :: rest => do
    let text ← Task.orFail (← Task.readText path) fun fault => ⟨s!"Failed to read {path}", [fault.message]⟩
    let patches ← Task.orFail (Patch.parseJson text) fun fault =>
      ⟨s!"Failed to parse patch definitions in {path}", [fault.message text]⟩
    return patches ++ (← loadPatches rest)

def runPatch (config : Config) (input output : String) (definitions : List String) (noVerify : Bool) : Task Unit := do
  let paths := config.paths ++ definitions
  if paths.isEmpty then
    .fail ⟨"No patch definitions given.\nPass --defs <file.json> or list them under [patch] defs in hbc.toml.", []⟩
  let patches ← loadPatches paths
  let image ← loadImage input {}
  let patched := runPatches (Session.start image) patches
  (outcomeLines 0 patches 0 patched.outcomes).forM Task.say
  let data ← Task.orFail patched.session.commit.write failed
  if config.verifyRoundTrip && !noVerify then
    discard (Task.orFail (Image.verify data) fun e => within "Patched output does not round-trip" (failed e))
  save output data
  let applied := patched.outcomes.countP (·.isApplied)
  Task.say (s!"Applied {applied} of {patches.length} patches ({patched.session.edits.length} functions edited, " ++
    s!"{patched.session.created.size} created), wrote {output}")

def run (config : Config) : Command → Task Unit
  | info file json functions => runInfo file json functions
  | verify files => runVerify files
  | resave input output version checkHash => runResave input output version checkHash
  | patch input output definitions noVerify => runPatch config input output definitions noVerify

end Command

namespace Arguments

def usage : String :=
  "Usage: hbc [--config <CONFIG>] <COMMAND>\n\nCommands:\n" ++
    "  info <FILE> [--json] [--functions]\n  verify <FILES>...\n" ++
    "  rewrite <INPUT> <OUTPUT> [--version <VERSION>] [--check-hash]\n" ++
    "  patch <INPUT> <OUTPUT> [--defs <DEFS>]... [--no-verify]"

def task (args : List String) : Task UInt32 :=
  match parse none args with
  | .error .usage => pure 2
  | .error .help => do
    Task.say usage
    return 0
  | .error .version => do
    Task.say "hbc 0.1.0"
    return 0
  | .ok invocation => do
    let config ← Config.load invocation.config
    invocation.command.run config
    return 0

end Arguments
end CodeImage
