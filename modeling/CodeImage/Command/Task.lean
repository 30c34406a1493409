namespace CodeImage

namespace Path

def isAbsolute (path : String) : Bool := path.toList.head? == some '/'

def parts (path : String) : List String := path.splitOn "/"

def steps (path : String) : List String := (parts path).filter (· != "")

def endsWithSlash (path : String) : Bool := path.toList.getLast? == some '/'

def trim : List String → List String
  | [] => []
  | [part] => [part]
  | part :: rest => if part = "" ∨ part = "." then trim rest else part :: rest

def parent? (path : String) : Option String :=
  match trim (parts path).reverse with
  | [] | [""] => none
  | [_] => some ""
  | _ :: rest =>
    match trim rest with
    | [""] => some "/"
    | rest => some ("/".intercalate rest.reverse)

def join (directory path : String) : String :=
  if isAbsolute path ∨ directory = "" then path
  else if endsWithSlash directory then directory ++ path
  else directory ++ "/" ++ path

def ancestors : (fuel : Nat) → (directory : String) → List String
  | 0, directory => [directory]
  | fuel + 1, directory =>
    match parent? directory with
    | some outer => directory :: ancestors fuel outer
    | none => [directory]

end Path

inductive FileFault where
  | missing
  | exists
  | notDirectory
  | isDirectory
  | nameTooLong
  | zeroInPath
  | notText
  | other (reason : String)
deriving DecidableEq, Inhabited, Repr

def FileFault.message : FileFault → String
  | .missing => "No such file or directory (os error 2)"
  | .exists => "File exists (os error 17)"
  | .notDirectory => "Not a directory (os error 20)"
  | .isDirectory => "Is a directory (os error 21)"
  | .nameTooLong => "File name too long (os error 36)"
  | .zeroInPath => "file name contained an unexpected NUL byte"
  | .notText => "stream did not contain valid UTF-8"
  | .other reason => reason

inductive PathKind where
  | file | directory
deriving DecidableEq, Inhabited, Repr

structure Failure where
  message : String
  causes : List String := []
deriving DecidableEq, Inhabited, Repr

namespace Failure

def cause (several : Bool) (number : Nat) (text : String) : String :=
  if several then
    let digits := toString number
    "\n" ++ String.ofList (List.replicate (5 - digits.length) ' ') ++ digits ++ ": " ++ text
  else "\n    " ++ text

def text (failure : Failure) : String :=
  let causes := failure.causes.zipIdx.map fun (text, number) => cause (1 < failure.causes.length) number text
  let heading := if causes.isEmpty then "" else "\n\nCaused by:"
  "Error: " ++ failure.message ++ heading ++ String.join causes ++ "\n"

end Failure

-- A task is the tree of its steps. Running it is left to whoever has the files.
inductive Task (α : Type) where
  | done (value : α)
  | fail (failure : Failure)
  | directory (next : String → Task α)
  | kind (path : String) (next : Option PathKind → Task α)
  | read (path : String) (next : Except FileFault ByteArray → Task α)
  | makeDirectories (path : String) (next : Except FileFault Unit → Task α)
  | write (path : String) (data : ByteArray) (next : Except FileFault Unit → Task α)
  | print (line : String) (next : Task α)

namespace Task

def andThen : Task α → (α → Task β) → Task β
  | done value, f => f value
  | fail failure, _ => fail failure
  | directory next, f => directory fun path => (next path).andThen f
  | kind path next, f => kind path fun found => (next found).andThen f
  | read path next, f => read path fun result => (next result).andThen f
  | makeDirectories path next, f => makeDirectories path fun result => (next result).andThen f
  | write path data next, f => write path data fun result => (next result).andThen f
  | print line next, f => print line (next.andThen f)

instance : Monad Task where
  pure := done
  bind := andThen

def workingDirectory : Task String := directory done

def kindOf (path : String) : Task (Option PathKind) := kind path done

def orFail (result : Except ε α) (failure : ε → Failure) : Task α :=
  match result with
  | .ok value => done value
  | .error e => fail (failure e)

def readFile (path : String) : Task (Except FileFault ByteArray) := read path done

def readText (path : String) : Task (Except FileFault String) :=
  read path fun result => done (result.bind fun data =>
    match String.fromUTF8? data with
    | some text => .ok text
    | none => .error .notText)

def say (line : String) : Task Unit := print line (done ())

end Task
end CodeImage
