import CodeImage.Bytes
import CodeImage.Binary64

namespace CodeImage

-- How an operand is stored. Addresses are relative to the start of their instruction.
inductive OperandKind where
  | reg8 | reg32 | uint8 | uint16 | uint32 | addr8 | addr32 | imm32 | double
deriving DecidableEq, Inhabited, Repr

inductive OperandRole where
  | plain | string | function | bigInt
deriving DecidableEq, Inhabited, Repr

-- An operand value. Only a `double` operand holds a float.
inductive Operand where
  | int (value : Int)
  | float (value : Binary64)
deriving DecidableEq, Inhabited, Repr

namespace Operand

def toInt : Operand → Int
  | .int v => v
  | .float x => x.toInt

def toIndex? : Operand → Option UInt32
  | .int v => if 0 ≤ v ∧ v < 0x100000000 then some v.toNat.toUInt32 else none
  | .float _ => none

def toBinary64 : Operand → Binary64
  | .int v => Binary64.ofInt v
  | .float x => x

def equals : Operand → Operand → Bool
  | .int a, .int b => a == b
  | .float a, .float b => a.equals b
  | _, _ => false

def isFloat : Operand → Bool
  | .int _ => false
  | .float _ => true

def text : Operand → String
  | .int v => if v < 0 then "-" ++ String.ofList (Nat.toDigits 10 v.natAbs) else String.ofList (Nat.toDigits 10 v.natAbs)
  | .float x => x.text

end Operand

namespace OperandKind

def width : OperandKind → Nat
  | .reg8 | .uint8 | .addr8 => 1
  | .uint16 => 2
  | .reg32 | .uint32 | .addr32 | .imm32 => 4
  | .double => 8

def isAddress : OperandKind → Bool
  | .addr8 | .addr32 => true
  | _ => false

def isSigned : OperandKind → Bool
  | .addr8 | .addr32 | .imm32 => true
  | _ => false

def range (kind : OperandKind) : Nat := Nat.pow 256 kind.width

def fits (kind : OperandKind) : Operand → Bool
  | .float _ => kind == .double
  | .int v =>
    if kind = .double then true
    else if kind.isSigned then decide (-kind.range ≤ 2 * v ∧ 2 * v < kind.range)
    else decide (0 ≤ v ∧ v < kind.range)

def read (kind : OperandKind) (code : ByteArray) (pos : Nat) : Operand :=
  let raw := natAt code pos kind.width
  if kind = .double then .float ⟨raw.toUInt64⟩
  else if kind.isSigned then .int (Int.bmod raw kind.range)
  else .int raw

def write (kind : OperandKind) (out : ByteArray) (value : Operand) : ByteArray :=
  if kind = .double then pushNat out 8 value.toBinary64.bits.toNat
  else pushNat out kind.width (value.toInt % kind.range).toNat

def name : OperandKind → String
  | .reg8 => "Reg8"
  | .reg32 => "Reg32"
  | .uint8 => "UInt8"
  | .uint16 => "UInt16"
  | .uint32 => "UInt32"
  | .addr8 => "Addr8"
  | .addr32 => "Addr32"
  | .imm32 => "Imm32"
  | .double => "Double"

def all : List OperandKind := [.reg8, .reg32, .uint8, .uint16, .uint32, .addr8, .addr32, .imm32, .double]

def ofName? (text : String) : Option OperandKind := all.find? fun kind => kind.name == text

end OperandKind

def OperandRole.name : OperandRole → String
  | .plain => "Plain"
  | .string => "String"
  | .function => "Function"
  | .bigInt => "BigInt"

end CodeImage
