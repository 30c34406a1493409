import CodeImage.Patch.Session

namespace CodeImage

def Instruction.withOperand (insn : Instruction) (index : Nat) (value : Operand) : Instruction :=
  { insn with operands := insn.operands.set index value }

namespace Session

def codeSize (session : Session) (id : UInt32) : Nat :=
  match session.code id with
  | .ok rope => rope.size
  | .error _ => 0

-- The position after an instruction. One that lies past the end of the code has to be an address.
def stopOf (session : Session) (id : UInt32) (here : Located) : Except PatchError Nat :=
  if here.next ≤ session.codeSize id ∨ here.next < addressLimit then .ok here.next else .error .addressOverflow

def decodeBetween (session : Session) (id : UInt32) (first last : Option Located) :
    Except PatchError (List Located) := do
  let rope ← session.code id
  let stop ← match last with
    | some last => session.stopOf id last
    | none => pure rope.size
  session.instructions id ((first.map (·.ip)).getD 0) stop

-- Positions found before a change are not moved by it, so a search is repeated after a change.
def matchBetween (session : Session) (id : UInt32) (first last : Option Located) (query : List Pattern) :
    Except PatchError (List Located) := do
  let insns ← session.decodeBetween id first last
  let resolved ← session.resolveQuery query
  if resolved.isEmpty then return []
  match windows resolved insns with
  | [] => throw (.matchFailed id query.length)
  | start :: _ => return (insns.drop start).take resolved.length

def matchFirst (session : Session) (id : UInt32) (query : List Pattern) : Except PatchError (List Located) :=
  session.matchBetween id none none query

def matchAfter (session : Session) (id : UInt32) (first : Located) (query : List Pattern) :
    Except PatchError (List Located) :=
  session.matchBetween id (some first) none query

def matchUnique (session : Session) (id : UInt32) (query : List Pattern) : Except PatchError (List Located) := do
  let insns ← session.decodeBetween id none none
  let resolved ← session.resolveQuery query
  match windows resolved insns with
  | [] => throw (.matchFailed id query.length)
  | [start] => return (insns.drop start).take resolved.length
  | starts => throw (.notUnique id starts.length)

def replaceOne (session : Session) (id : UInt32) (here : Located) (insns : List Instruction) : Done Unit :=
  session.given (session.stopOf id here) fun stop => session.replaceInstructions id here.ip stop insns

-- The end of a range of instructions, with the error for one that runs backwards.
def rangeStop (session : Session) (id : UInt32) (first last : Located) : Except PatchError Nat := do
  let stop ← session.stopOf id last
  if last.ip < first.ip then throw (.invalidRange first.ip stop (← session.code id).size)
  return stop

def replaceRange (session : Session) (id : UInt32) (first last : Located) (insns : List Instruction) : Done Unit :=
  session.given (session.rangeStop id first last) fun stop => session.replaceInstructions id first.ip stop insns

def replaceAll (session : Session) (id : UInt32) (insns : List Instruction) : Done Unit :=
  session.given (session.code id) fun rope => session.replaceInstructions id 0 rope.size insns

def insertBefore (session : Session) (id : UInt32) (here : Located) (insns : List Instruction) : Done Unit :=
  session.replaceInstructions id here.ip here.ip insns

def insertAfter (session : Session) (id : UInt32) (here : Located) (insns : List Instruction) : Done Unit :=
  session.given (session.stopOf id here) fun stop => session.replaceInstructions id stop stop insns

def closureOf (session : Session) (insn : Instruction) : Except PatchError UInt32 :=
  match (insn.opcode.positions .function).head?.bind fun index => insn.operands[index]?.bind Operand.toIndex? with
  | none => .error (.notAFunction insn.opcode)
  | some id => liftImage ((session.image.function id).map fun _ => id)

def stringsOf (session : Session) (insn : Instruction) : Except PatchError (List String) :=
  (insn.references .string).mapM fun (_, id) =>
    match session.string? id with
    | some text => .ok text
    | none => .error (.image (.stringIndex id))

end Session
end CodeImage
