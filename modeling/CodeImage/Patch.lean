import CodeImage.Patch.Session
import CodeImage.Patch.Target

namespace CodeImage

structure Fingerprint where
  name : UInt32
  opcodes : List Opcode
  strings : List UInt32
  bigInts : List UInt32
  closures : List UInt32
deriving DecidableEq, Inhabited, Repr

namespace Fingerprint

def ascending (ids : List UInt32) : List UInt32 :=
  (ids.mergeSort fun a b => decide (a ≤ b)).eraseReps

def referred (insns : List Instruction) (role : OperandRole) : List UInt32 :=
  insns.flatMap fun insn => (insn.references role).map (·.2)

def ofInstructions (name : UInt32) (insns : List Instruction) : Fingerprint where
  name
  opcodes := Opcode.all.filter fun opcode => insns.any fun insn => insn.opcode == opcode
  strings := ascending (referred insns .string)
  bigInts := ascending (referred insns .bigInt)
  closures := (referred insns .function).eraseDups

def ofFunction (session : Session) (id : UInt32) : Except PatchError Fingerprint := do
  let func ← liftImage (session.image.function id)
  let rope ← session.code id
  let insns ← liftImage (Instruction.decodeBody rope.toBytes)
  return ofInstructions func.header.functionName (insns.map (·.insn))

end Fingerprint

structure Selector where
  identifier : Option String := none
  -- Texts that strings of the function contain.
  strings : List String := []
  opcodes : List Opcode := []
deriving DecidableEq, Inhabited, Repr

inductive Patch where
  | replace (selector : Selector) (insns : List Instruction)
  | nested (selector : Selector) (patches : List Patch)
  | apply (selector : Selector) (run : Session → UInt32 → Session × Except PatchError Unit)
deriving Inhabited

namespace Patch

def selector : Patch → Selector
  | replace selector _ | nested selector _ | apply selector _ => selector

def inner : Patch → List Patch
  | nested _ patches => patches
  | _ => []

end Patch

inductive Outcome where
  | applied (function : UInt32) (nested : List Outcome)
  | notFound
  -- It was applied to the first of several functions that it selects.
  | notUnique (function : UInt32) (count : Nat) (nested : List Outcome)
  | failed (reason : PatchError)
deriving Inhabited

namespace Outcome

def isApplied : Outcome → Bool
  | applied .. | notUnique .. => true
  | _ => false

def nested : Outcome → List Outcome
  | applied _ nested | notUnique _ _ nested => nested
  | _ => []

def message : Outcome → String
  | applied function _ => s!"applied to function {function}"
  | notFound => "did not match anything"
  | notUnique function count _ => s!"matched {count} functions, applied to function {function}"
  | failed reason => s!"failed: {reason.message}"

end Outcome
end CodeImage
