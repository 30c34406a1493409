import CodeImage.FunctionHeader
import CodeImage.Header
import CodeImage.Instruction
import CodeImage.Literal
import CodeImage.StringTable
import CodeImage.OffsetTable

namespace CodeImage

structure Body where
  code : ByteArray
  jumpTables : Option ByteArray := none
deriving DecidableEq, Inhabited

structure Handler where
  start : UInt32
  stop : UInt32
  target : UInt32
deriving DecidableEq, Inhabited, Repr

structure DebugOffsets where
  sourceLocations : UInt32
  scopeDescData : UInt32
  textifiedCallees : UInt32
deriving DecidableEq, Inhabited, Repr

structure Func where
  header : FunctionHeader
  body : UInt32
  handlers : Option (List Handler) := none
  debug : Option DebugOffsets := none
deriving DecidableEq, Inhabited

structure Image where
  version : UInt32 := currentVersion
  sourceHash : Digest := default
  globalCodeIndex : UInt32 := 0
  segmentId : UInt32 := 0
  options : UInt32 := 0
  functions : Array Func := #[]
  bodies : Array Body := #[]
  strings : StringTable := {}
  -- The text of every string, as far as it is known without decoding: that of strings that were added in memory.
  known : Array (Option String) := #[]
  identifierHashes : Array UInt32 := #[]
  bigInts : OffsetTable := {}
  regExps : OffsetTable := {}
  arrayBuffer : ByteArray := ByteArray.empty
  objectKeyBuffer : ByteArray := ByteArray.empty
  objectValueBuffer : ByteArray := ByteArray.empty
  cjsModules : Array Extent := #[]
  functionSources : Array FunctionSource := #[]
  debugInfo : Option ByteArray := none
deriving DecidableEq, Inhabited

structure FuncSpec where
  name : UInt32
  paramCount : UInt32 := 1
  frameSize : UInt32 := 0
  environmentSize : UInt32 := 0
  prohibitInvoke : ProhibitInvoke := .none
  strictMode : Bool := false
  code : List Instruction ⊕ ByteArray := .inl []
  jumpTables : Option ByteArray := none
  handlers : Option (List Handler) := none
  debug : Option DebugOffsets := none
deriving Inhabited

inductive TypedOperand where
  | value (operand : Operand)
  | string (id : UInt32) (text : String)
  | function (id : UInt32)
  | bigInt (id : UInt32) (value : Nat)
deriving DecidableEq, Inhabited

namespace Image

def function (image : Image) (id : UInt32) : Except ImageError Func :=
  match image.functions[id.toNat]? with
  | some func => .ok func
  | none => .error (.functionIndex id)

def bodyOf (image : Image) (id : UInt32) : Except ImageError Body :=
  match image.function id with
  | .error e => .error e
  | .ok func =>
    match image.bodies[func.body.toNat]? with
    | some body => .ok body
    | none => .error (.invalidLayout (.danglingBody id.toNat))

-- A text that is not known is decoded.
def text? (image : Image) (id : UInt32) : Option String :=
  match image.known[id.toNat]? with
  | none => none
  | some (some text) => some text
  | some none => image.strings.get? id

def text (image : Image) (id : UInt32) : Except ImageError String :=
  match image.text? id with
  | some text => .ok text
  | none => .error (.stringIndex id)

def texts (image : Image) : List (UInt32 × String) :=
  (List.range image.strings.size).filterMap fun id =>
    (image.text? id.toUInt32).map fun text => (id.toUInt32, text)

def functionName? (image : Image) (id : UInt32) : Option String :=
  image.functions[id.toNat]?.bind fun func => image.text? func.header.functionName

def bigInt? (image : Image) (id : UInt32) : Option Nat := (image.bigInts.get? id).map BigEndian.toNat

def typedOperand (image : Image) (role : OperandRole) (operand : Operand) : Except ImageError TypedOperand :=
  match operand.toIndex?, role with
  | some id, .string => (image.text id).map fun text => .string id text
  | some id, .function => (image.function id).map fun _ => .function id
  | some id, .bigInt =>
    match image.bigInt? id with
    | some value => .ok (.bigInt id value)
    | none => .error (.bigIntIndex id)
  | _, _ => .ok (.value operand)

def typedOperands (image : Image) (insn : Instruction) : Except ImageError (List TypedOperand) :=
  insn.operands.zipIdx.mapM fun (operand, index) => image.typedOperand (insn.opcode.role index) operand

def literalText? (image : Image) : Literal → Option String
  | .string id => image.text? id
  | _ => none

def addString (image : Image) (text : String) : Image × UInt32 :=
  let (strings, id) := image.strings.push text .string
  ({ image with strings, known := image.known.push (some text) }, id)

def addIdentifier (image : Image) (text : String) (hash : UInt32) : Image × UInt32 :=
  let (strings, id) := image.strings.push text .identifier
  ({ image with
    strings
    known := image.known.push (some text)
    identifierHashes := image.identifierHashes.push hash }, id)

def addBigInt (image : Image) (value : Nat) : Image × UInt32 :=
  let (bigInts, id) := image.bigInts.push (BigEndian.ofNat value)
  ({ image with bigInts }, id)

def addRegExp (image : Image) (compiled : ByteArray) : Image × UInt32 :=
  let (regExps, id) := image.regExps.push compiled
  ({ image with regExps }, id)

def addBody (image : Image) (body : Body) : Image × UInt32 :=
  ({ image with bodies := image.bodies.push body }, image.bodies.size.toUInt32)

def FuncSpec.encoded (spec : FuncSpec) : Except ImageError ByteArray :=
  match spec.code with
  | .inl insns => Instruction.encodeAll insns
  | .inr code => .ok code

def FuncSpec.header (spec : FuncSpec) (size : Nat) : FunctionHeader :=
  { paramCount := spec.paramCount, codeSize := size.toUInt32, functionName := spec.name,
    frameSize := spec.frameSize, environmentSize := spec.environmentSize,
    prohibitInvoke := spec.prohibitInvoke, strictMode := spec.strictMode,
    hasExceptionHandler := spec.handlers.isSome, hasDebugInfo := spec.debug.isSome }

def addFunction (image : Image) (spec : FuncSpec) : Except ImageError (Image × UInt32) :=
  match image.text? spec.name with
  | none => .error (.stringIndex spec.name)
  | some _ =>
    match FuncSpec.encoded spec with
    | .error e => .error e
    | .ok code =>
      let func : Func :=
        ⟨FuncSpec.header spec code.size, image.bodies.size.toUInt32, spec.handlers, spec.debug⟩
      .ok ({ image with
        bodies := image.bodies.push ⟨code, spec.jumpTables⟩, functions := image.functions.push func },
        image.functions.size.toUInt32)

def addAlias (image : Image) (other name : UInt32) : Except ImageError (Image × UInt32) :=
  match image.function other with
  | .error e => .error e
  | .ok func =>
    let func := { func with header := { func.header with functionName := name } }
    .ok ({ image with functions := image.functions.push func }, image.functions.size.toUInt32)

def modifyFunction (image : Image) (id : UInt32) (change : Func → Func) : Image :=
  { image with functions := image.functions.modify id.toNat change }

end Image
end CodeImage
