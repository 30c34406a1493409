import CodeImage.Error

namespace CodeImage

structure Instruction where
  opcode : Opcode
  operands : List Operand
deriving DecidableEq, Inhabited, Repr

structure Located where
  ip : Nat
  width : Nat
  insn : Instruction
deriving DecidableEq, Inhabited, Repr

def Located.next (here : Located) : Nat := here.ip + here.width

namespace Instruction

def readOperands (code : ByteArray) : (pos : Nat) → List OperandKind → List Operand
  | _, [] => []
  | pos, kind :: kinds => kind.read code pos :: readOperands code (pos + kind.width) kinds

def decodeAt (code : ByteArray) (ip : Nat) : Except ImageError Located :=
  if ip < code.size then
    match Opcode.ofByte? (byteAt code ip) with
    | none => .error (.invalidOpcode (byteAt code ip) ip)
    | some opcode =>
      let remaining := code.size - ip
      if opcode.width ≤ remaining then
        .ok ⟨ip, opcode.width, ⟨opcode, readOperands code (ip + 1) opcode.kinds⟩⟩
      else .error (.truncatedInstruction opcode ip opcode.width remaining)
  else .error (.unexpectedEnd ip 1 code.size)

theorem decodeAt_width {code : ByteArray} {ip : Nat} {here : Located}
    (decoded : decodeAt code ip = .ok here) : 0 < here.width := by
  unfold decodeAt at decoded
  split at decoded
  · split at decoded
    · cases decoded
    · dsimp only at decoded
      split at decoded
      · cases decoded; exact Opcode.width_pos _
      · cases decoded
  · cases decoded

-- The instructions from `ip` on, up to the end of the body or to the first error. `before` holds the instructions
-- already read, last first.
def decodeFrom (code : ByteArray) (ip : Nat) (before : List Located) : List Located × Option ImageError :=
  if ip < code.size then
    match decoded : decodeAt code ip with
    | .error e => (before.reverse, some e)
    | .ok here =>
      have : 0 < here.width := decodeAt_width decoded
      decodeFrom code (ip + here.width) (here :: before)
  else (before.reverse, none)
termination_by code.size - ip

def decodeAll (code : ByteArray) : List Located × Option ImageError := decodeFrom code 0 []

def decodeBody (code : ByteArray) : Except ImageError (List Located) :=
  match decodeAll code with
  | (insns, none) => .ok insns
  | (_, some e) => .error e

-- The first operand that does not fit. A float where an integer is stored is an error of its own.
def firstMisfit (opcode : Opcode) : (index : Nat) → List OperandKind → List Operand →
    Except ImageError (Option (Nat × Operand))
  | index, kind :: kinds, value :: values =>
    if value.isFloat && kind != .double then .error (.operandKind opcode index)
    else if kind.fits value then firstMisfit opcode (index + 1) kinds values
    else .ok (some (index, value))
  | _, _, _ => .ok none

def fit (opcode : Opcode) (operands : List Operand) : Except ImageError Opcode :=
  match firstMisfit opcode 0 opcode.kinds operands with
  | .error e => .error e
  | .ok none => .ok opcode
  | .ok (some (index, value)) =>
    match wider : opcode.wider? with
    | none => .error (.operandOutOfRange opcode index value)
    | some long =>
      have : opcode.code < long.code := Opcode.code_lt_of_wider? wider
      fit long operands
termination_by opcodeCount - opcode.code.val
decreasing_by have := long.code.isLt; omega

def writeOperands (out : ByteArray) : List OperandKind → List Operand → ByteArray
  | kind :: kinds, value :: values => writeOperands (kind.write out value) kinds values
  | _, _ => out

def encodeOnto (out : ByteArray) (insn : Instruction) : Except ImageError (ByteArray × Opcode) :=
  if insn.operands.length = insn.opcode.operandCount then
    match fit insn.opcode insn.operands with
    | .error e => .error e
    | .ok opcode => .ok (writeOperands (out.push opcode.byte) opcode.kinds insn.operands, opcode)
  else .error (.operandCount insn.opcode insn.opcode.operandCount insn.operands.length)

def encode (insn : Instruction) : Except ImageError ByteArray :=
  (encodeOnto ByteArray.empty insn).map (·.1)

def encodeAll (insns : List Instruction) : Except ImageError ByteArray :=
  insns.foldlM (fun out insn => (encodeOnto out insn).map (·.1)) ByteArray.empty

def references (insn : Instruction) (role : OperandRole) : List (Nat × UInt32) :=
  (insn.opcode.positions role).filterMap fun index =>
    (insn.operands[index]?.bind Operand.toIndex?).map fun id => (index, id)

end Instruction
end CodeImage
