import CodeImage.Instruction
import CodeImage.Json.Printer
import CodeImage.Json.Reader

namespace CodeImage

namespace JsonReader

def wrongType (text : List Char) : Except JsonFault α :=
  match text with
  | '[' :: rest | '\x7b' :: rest => fail .shape rest
  | text =>
    match value 1 text with
    | .error fault => .error fault
    | .ok (_, rest) => fail .shape rest

def string : JsonReader String := fun text =>
  match skipBlank text with
  | [] => fail .endInValue []
  | '"' :: rest => chars [] rest
  | text => wrongType text

def opcodeName : JsonReader Opcode := fun text =>
  match string text with
  | .error fault => .error fault
  | .ok (name, rest) =>
    match Opcode.ofName? name with
    | some opcode => .ok (opcode, rest)
    | none => fail .shape rest

def memberName : JsonReader Opcode := fun text =>
  match skipBlank text with
  | [] => fail .endInValue []
  | '"' :: rest => opcodeName ('"' :: rest)
  | text => failNext .keyNotString text

def unit : JsonReader Unit := fun text =>
  match skipBlank text with
  | [] => fail .endInValue []
  | 'n' :: rest => word () ['u', 'l', 'l'] rest
  | text => wrongType text

def opcode : JsonReader Opcode := fun text =>
  match skipBlank text with
  | [] => fail .endInValue []
  | '"' :: rest => opcodeName ('"' :: rest)
  | '\x7b' :: rest => do
    let (opcode, rest) ← memberName rest
    match skipBlank rest with
    | ':' :: rest =>
      let (_, rest) ← unit rest
      match skipBlank rest with
      | '\x7d' :: rest => .ok (opcode, rest)
      | [] => fail .endInObject []
      | rest => fail .expectedValue rest
    | [] => fail .endInObject []
    | rest => failNext .expectedColon rest
  | text => failNext .expectedValue text

def operand : JsonReader Operand := fun text =>
  match value (depthLimit - 1) text with
  | .ok (.number value, rest) => .ok (value, rest)
  | .ok (_, rest) => fail .shape rest
  | .error fault => .error fault

-- Read piece by piece, so that a wrong name is noticed before a later fault of the text.
def instruction : JsonReader Instruction := fun text =>
  match skipBlank text with
  | [] => fail .endInValue []
  | '[' :: rest =>
    match skipBlank rest with
    | [] => fail .endInList []
    | ']' :: rest => fail .shape rest
    | rest => do
      let (opcode, rest) ← opcode rest
      let (operands, rest) ← items operand (rest.length + 1) false [] rest
      if operands.length = opcode.operandCount then return (⟨opcode, operands⟩, rest)
      else fail .shape rest
  | text => wrongType text

end JsonReader

-- The instruction with a name, given as a string or as the only member of an object that holds null; where `lenient`,
-- the member may also hold an empty object.
def Opcode.ofJson? (lenient : Bool) : JsonValue → Option Opcode
  | .string name => ofName? name
  | .object [(name, .null)] => ofName? name
  | .object [(name, .object [])] => if lenient then ofName? name else none
  | _ => none

def Operand.ofJson? : JsonValue → Option Operand
  | .number value => some value
  | _ => none

namespace Instruction

def ofJson? : JsonValue → Option Instruction
  | .list (name :: operands) => do
    let opcode ← Opcode.ofJson? true name
    let operands ← operands.mapM Operand.ofJson?
    if operands.length = opcode.operandCount then return ⟨opcode, operands⟩ else none
  | _ => none

def parseJson (text : String) : Except JsonFault Instruction := JsonReader.whole JsonReader.instruction text

def toJson (insn : Instruction) : JsonValue :=
  .list (.string insn.opcode.name :: insn.operands.map .number)

end Instruction
end CodeImage
