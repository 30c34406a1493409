import CodeImage.Image
import CodeImage.Patch.Query
import CodeImage.Rope

namespace CodeImage

-- The new code of edited functions, by ascending function number.
abbrev Edits := List (UInt32 × Rope)

namespace Edits

def get? (edits : Edits) (id : UInt32) : Option Rope := (edits.find? fun edit => edit.1 == id).map (·.2)

def put (id : UInt32) (rope : Rope) : Edits → Edits
  | [] => [(id, rope)]
  | edit :: rest =>
    if id < edit.1 then (id, rope) :: edit :: rest
    else if id = edit.1 then (id, rope) :: rest
    else edit :: put id rope rest

end Edits

structure Session where
  image : Image
  index : StringIndex
  edits : Edits := []
  -- New strings that are not yet in the table; the first one follows the table's last.
  pending : Array String := #[]
  added : Array UInt32 := #[]
  created : Array UInt32 := #[]
deriving Inhabited

namespace Session

def start (image : Image) : Session := { image, index := .ofTexts image.texts }

def functionCount (session : Session) : Nat := session.image.functions.size

def code (session : Session) (id : UInt32) : Except PatchError Rope :=
  match session.edits.get? id with
  | some rope => .ok rope
  | none => liftImage ((session.image.bodyOf id).map fun body => .leaf body.code)

def isEdited (session : Session) (id : UInt32) : Bool := (session.edits.get? id).isSome

def string? (session : Session) (id : UInt32) : Option String :=
  if session.image.strings.size ≤ id.toNat then session.pending[id.toNat - session.image.strings.size]?
  else session.image.text? id

def findString? (session : Session) (text : String) : Option UInt32 :=
  session.index.find? session.string? text

def findPartialString? (session : Session) (text : String) : Option UInt32 :=
  session.index.findPartial? session.string? text

def resolveString? (session : Session) (text : String) : Option UInt32 :=
  session.index.resolve? session.string? text

def resolveQuery (session : Session) (query : List Pattern) : Except PatchError (List ResolvedPattern) :=
  query.mapM (Pattern.resolve session.resolveString?)

def addString (session : Session) (text : String) : Session × UInt32 :=
  let id := (session.image.strings.size + session.pending.size).toUInt32
  ({ session with
    pending := session.pending.push text
    index := session.index.insert id text
    added := session.added.push id }, id)

def mergeStrings (session : Session) : Session :=
  { session with
    image := session.pending.foldl (fun image text => (image.addString text).1) session.image
    pending := #[] }

-- The session after an operation, and how the operation ended.
abbrev Done (α : Type) := Session × Except PatchError α

-- A lookup that fails ends an operation there, with the session as it is by then.
def given (session : Session) (found : Except PatchError α) (next : α → Done β) : Done β :=
  match found with
  | .error e => (session, .error e)
  | .ok a => next a

-- Creates a function. Pending strings move into the table first, since one of them may be its name; they stay there
-- when the function cannot be created.
def createFunction (session : Session) (spec : FuncSpec) : Done UInt32 :=
  let merged := session.mergeStrings
  match merged.image.addFunction spec with
  | .error e => (merged, .error (.image e))
  | .ok (image, id) => ({ merged with image, created := merged.created.push id }, .ok id)

-- Functions that shared the old body of an edited one keep it.
def commitEdit (image : Image) (edit : UInt32 × Rope) : Image :=
  let code := edit.2.toBytes
  let jumpTables := ((image.bodyOf edit.1).toOption.bind (·.jumpTables))
  let (image, body) := image.addBody ⟨code, jumpTables⟩
  image.modifyFunction edit.1 fun func =>
    { func with body, header := { func.header with codeSize := code.size.toUInt32 } }

def commit (session : Session) : Image := session.edits.foldl commitEdit session.mergeStrings.image

def checkRange (start stop length : Nat) : Except PatchError Unit :=
  if start ≤ stop ∧ stop ≤ length then .ok () else .error (.invalidRange start stop length)

def edit (session : Session) (id : UInt32) (start stop : Nat) (value : Rope) : Done Unit :=
  session.given (session.code id) fun rope =>
    session.given (checkRange start stop rope.size) fun _ =>
      ({ session with edits := session.edits.put id (rope.replace start stop value) }, .ok ())

def replaceBytes (session : Session) (id : UInt32) (start stop : Nat) (data : ByteArray) : Done Unit :=
  session.edit id start stop (.leaf data)

def insertBytes (session : Session) (id : UInt32) (start : Nat) (data : ByteArray) : Done Unit :=
  session.edit id start start (.leaf data)

def removeBytes (session : Session) (id : UInt32) (start stop : Nat) : Done Unit := session.edit id start stop .empty

def replaceInstructions (session : Session) (id : UInt32) (start stop : Nat) (insns : List Instruction) : Done Unit :=
  session.given (liftImage (session.image.function id)) fun _ =>
    session.given (liftImage (Instruction.encodeAll insns)) fun data =>
      session.replaceBytes id start stop data

-- The instructions in a range of a function's code; its bounds have to be instruction bounds.
def instructions (session : Session) (id : UInt32) (start stop : Nat) : Except PatchError (List Located) := do
  let rope ← session.code id
  checkRange start stop rope.size
  decodeFragment (rope.slice start stop).toBytes start

end Session
end CodeImage
