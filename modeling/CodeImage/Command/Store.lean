import CodeImage.Command.Task

namespace CodeImage

structure Store where
  files : List (List String × ByteArray) := []
  directories : List (List String) := []
  workingDirectory : List String := []
deriving Inhabited

namespace Store

def file? (store : Store) (place : List String) : Option ByteArray := store.files.lookup place

def isDirectory (store : Store) (place : List String) : Bool :=
  place.isEmpty || (store.directories ++ store.files.map (·.1.dropLast)).any place.isPrefixOf

def kind? (store : Store) (place : List String) : Option PathKind :=
  if (store.file? place).isSome then some .file
  else if store.isDirectory place then some .directory
  else none

def nameLimit : Nat := 255

def pathLimit : Nat := 4095

def beside (place : List String) (name : String) : Except FileFault (List String) :=
  if name = "." then .ok place
  else if name = ".." then .ok place.dropLast
  else if nameLimit < name.utf8ByteSize then .error .nameTooLong
  else .ok (place ++ [name])

def enter (store : Store) (place : List String) : Except FileFault Unit :=
  match store.kind? place with
  | some .directory => .ok ()
  | some .file => .error .notDirectory
  | none => .error .missing

def walk (store : Store) (place : List String) (steps : List String) : Except FileFault (List String) :=
  steps.foldlM (fun place name => do
    store.enter place
    beside place name) place

def checkPath (path : String) : Except FileFault Unit :=
  if path.toList.any (·.toNat == 0) then .error .zeroInPath
  else if path = "" then .error .missing
  else if pathLimit < path.utf8ByteSize then .error .nameTooLong
  else .ok ()

def origin (store : Store) (path : String) : List String :=
  if Path.isAbsolute path then [] else store.workingDirectory

def locate (store : Store) (path : String) : Except FileFault (List String) := do
  checkPath path
  store.walk (store.origin path) (Path.steps path)

-- Reads a file. With a slash at its end a path leads to a directory only.
def read (store : Store) (path : String) : Except FileFault ByteArray := do
  let place ← store.locate path
  match store.file? place with
  | some data => if Path.endsWithSlash path then throw .notDirectory else return data
  | none => throw (if store.isDirectory place then .isDirectory else .missing)

def kindOf (store : Store) (path : String) : Option PathKind :=
  match store.locate path with
  | .error _ => none
  | .ok place => (store.kind? place).filter fun kind => !(kind == .file && Path.endsWithSlash path)

-- Writes a file in a directory. A slash at the end of the path stands for a directory, whatever is there.
def write (store : Store) (path : String) (data : ByteArray) : Except FileFault Store := do
  checkPath path
  let steps := Path.steps path
  let outer ← store.walk (store.origin path) steps.dropLast
  store.enter outer
  if Path.endsWithSlash path then throw .isDirectory
  let place ← beside outer (steps.getLast?.getD ".")
  if store.isDirectory place then throw .isDirectory
  return { store with files := (place, data) :: store.files.filter (·.1 != place) }

def makeDirectory (store : Store) (path : String) : Except FileFault Store := do
  checkPath path
  let steps := Path.steps path
  let outer ← store.walk (store.origin path) steps.dropLast
  store.enter outer
  let place ← beside outer (steps.getLast?.getD ".")
  if (store.kind? place).isSome then throw .exists
  return { store with directories := place :: store.directories }

def ensureDirectory (store : Store) (path : String) : Except FileFault Store :=
  match store.makeDirectory path with
  | .error .exists => if store.kindOf path = some .directory then .ok store else .error .exists
  | result => result

-- Makes a directory and those that it lies in, which are given from the inside out. An outer one is made only where an
-- inner one cannot be made without it.
def makeAll (store : Store) : List String → Except FileFault Store
  | [] => .ok store
  | directory :: outer =>
    if directory = "" then .ok store
    else
      match store.ensureDirectory directory with
      | .error .missing => (makeAll store outer).bind fun store => store.ensureDirectory directory
      | result => result

def makeDirectories (store : Store) (path : String) : Except FileFault Store :=
  store.makeAll (Path.ancestors path.length path)

end Store

structure Finished (α : Type) where
  result : Except Failure α
  output : String
  store : Store

namespace Task

def run (store : Store) (output : String) : Task α → Finished α
  | done value => ⟨.ok value, output, store⟩
  | fail failure => ⟨.error failure, output, store⟩
  | directory next => (next ("/" ++ "/".intercalate store.workingDirectory)).run store output
  | kind path next => (next (store.kindOf path)).run store output
  | read path next => (next (store.read path)).run store output
  | makeDirectories path next =>
    match store.makeDirectories path with
    | .ok store => (next (.ok ())).run store output
    | .error fault => (next (.error fault)).run store output
  | write path data next =>
    match store.write path data with
    | .ok store => (next (.ok ())).run store output
    | .error fault => (next (.error fault)).run store output
  | print line next => next.run store (output ++ line ++ "\n")

end Task
end CodeImage
