import CodeImage.Error
import CodeImage.Text.Quoted
import CodeImage.Instruction
import CodeImage.StringIndex

namespace CodeImage

inductive PatchError where
  | stringNotFound (text : String)
  | identifierNotFound (text : String)
  | matchFailed (function : UInt32) (length : Nat)
  | notUnique (function : UInt32) (count : Nat)
  | invalidRange (start stop length : Nat)
  | notAFunction (opcode : Opcode)
  | addressOverflow
  | image (cause : ImageError)
deriving DecidableEq, Inhabited

def PatchError.message : PatchError → String
  | .stringNotFound text => s!"Couldn't find string {Text.quoted text}"
  | .identifierNotFound text => s!"Couldn't find identifier {Text.quoted text}"
  | .matchFailed function length => s!"No match for a {length}-instruction query in function {function}"
  | .notUnique function count => s!"Query matched {count} times in function {function}"
  | .invalidRange start stop length => s!"Invalid range {start}..{stop} in {length} bytes of bytecode"
  | .notAFunction opcode => s!"{opcode.name} does not reference a function"
  | .addressOverflow => "An instruction ends past the last address"
  | .image cause => cause.message

def liftImage (result : Except ImageError α) : Except PatchError α := result.mapError .image

inductive OperandPattern where
  | any
  | value (operand : Operand)
  -- The number of the string that equals, or else contains, the text.
  | text (text : String)
deriving DecidableEq, Inhabited, Repr

-- A pattern for one instruction; operands that it does not list are free.
structure Pattern where
  opcode : Opcode
  operands : List OperandPattern
deriving DecidableEq, Inhabited, Repr

structure ResolvedPattern where
  opcode : Opcode
  operands : List (Option Operand)
deriving DecidableEq, Inhabited, Repr

namespace Pattern

def resolveOperand (find : String → Option UInt32) : OperandPattern → Except PatchError (Option Operand)
  | .any => .ok none
  | .value operand => .ok (some operand)
  | .text text =>
    match find text with
    | some id => .ok (some (.int id.toNat))
    | none => .error (.stringNotFound text)

def resolve (find : String → Option UInt32) (pattern : Pattern) : Except PatchError ResolvedPattern :=
  (pattern.operands.mapM (resolveOperand find)).map fun operands => ⟨pattern.opcode, operands⟩

end Pattern

def operandsMatch : List (Option Operand) → List Operand → Bool
  | [], _ => true
  | _ :: _, [] => false
  | want :: wants, found :: rest => (want.all fun value => value.equals found) && operandsMatch wants rest

def ResolvedPattern.accepts (pattern : ResolvedPattern) (insn : Instruction) : Bool :=
  insn.opcode.sameFamily pattern.opcode && operandsMatch pattern.operands insn.operands

def acceptsFront : List ResolvedPattern → List Located → Bool
  | [], _ => true
  | _ :: _, [] => false
  | pattern :: patterns, here :: rest => pattern.accepts here.insn && acceptsFront patterns rest

-- The places in a list at which a run of instructions matches the query. An empty query matches nowhere.
def windows (query : List ResolvedPattern) (insns : List Located) : List Nat :=
  if query.isEmpty then [] else go 0 insns
where
  go (start : Nat) : List Located → List Nat
    | [] => []
    | here :: rest =>
      if acceptsFront query (here :: rest) then start :: go (start + 1) rest else go (start + 1) rest

def decodeFragment (code : ByteArray) (base : Nat) : Except PatchError (List Located) :=
  liftImage ((Instruction.decodeBody code).map fun insns =>
    insns.map fun here => { here with ip := base + here.ip })

-- The instructions of a piece of code whose first byte is at an address that is chosen freely. An instruction past the
-- last address is noticed before a fault of the code after it.
def decodeAtAddress (code : ByteArray) (base : Nat) : Except PatchError (List Located) :=
  if (Instruction.decodeAll code).1.all fun here => (address? (base + here.ip)).isSome then decodeFragment code base
  else .error .addressOverflow

end CodeImage
