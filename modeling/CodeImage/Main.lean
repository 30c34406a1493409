import CodeImage.Command.Run

namespace CodeImage

def faultOf : IO.Error → FileFault
  | .noFileOrDirectory .. => .missing
  | .alreadyExists .. => .exists
  | .inappropriateType _ code _ => if code = 21 then .isDirectory else .notDirectory
  | .invalidArgument _ code _ => if code = 22 then .zeroInPath else .nameTooLong
  | e => .other (toString e)

def attempt (action : IO α) : IO (Except FileFault α) :=
  try return .ok (← action) catch e => return .error (faultOf e)

def kindOnDisk (path : String) : IO (Option PathKind) := do
  match ← attempt (IO.FS.realPath path) with
  | .error _ => return none
  | .ok place =>
    if ← place.isDir then return some .directory
    if ← place.pathExists then return some .file else return none

def perform : Task UInt32 → IO UInt32
  | .done code => return code
  | .fail failure => do
    (← IO.getStderr).putStr failure.text
    return 1
  | .directory next => do perform (next (← IO.currentDir).toString)
  | .kind path next => do perform (next (← kindOnDisk path))
  | .read path next => do
    if (← kindOnDisk path) = some .directory then perform (next (.error .isDirectory))
    else perform (next (← attempt (IO.FS.readBinFile path)))
  | .makeDirectories path next => do perform (next (← attempt (IO.FS.createDirAll path)))
  | .write path data next => do
    if (← kindOnDisk path) = some .directory then perform (next (.error .isDirectory))
    else perform (next (← attempt (IO.FS.writeBinFile path data)))
  | .print line next => do
    (← IO.getStdout).putStrLn line
    perform next

end CodeImage

def main (args : List String) : IO UInt32 := do
  let code ← CodeImage.perform (CodeImage.Arguments.task args)
  if code = 2 then (← IO.getStderr).putStrLn CodeImage.Arguments.usage
  return code
