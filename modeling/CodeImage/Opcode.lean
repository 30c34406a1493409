import CodeImage.Opcode.Table

namespace CodeImage

def opcodeCount : Nat := 206

theorem opcodeTable_size : opcodeTable.size = opcodeCount := by decide +kernel

structure Opcode where
  code : Fin opcodeCount
deriving DecidableEq, Repr

instance : Inhabited Opcode := ⟨⟨⟨0, by decide⟩⟩⟩

namespace Opcode

def row (op : Opcode) : OpcodeRow :=
  have : op.code.val < opcodeTable.size := by rw [opcodeTable_size]; exact op.code.isLt
  opcodeTable[op.code.val]

def name (op : Opcode) : String := op.row.name

def slots (op : Opcode) : List OperandSlot := op.row.slots

def kinds (op : Opcode) : List OperandKind := op.slots.map (·.kind)

def operandCount (op : Opcode) : Nat := op.slots.length

def byte (op : Opcode) : UInt8 := op.code.val.toUInt8

def ofNat? (code : Nat) : Option Opcode :=
  if h : code < opcodeCount then some ⟨⟨code, h⟩⟩ else none

def ofByte? (byte : UInt8) : Option Opcode := ofNat? byte.toNat

def all : List Opcode := (List.finRange opcodeCount).map Opcode.mk

def ofName? (text : String) : Option Opcode := all.find? fun op => op.name == text

def width (op : Opcode) : Nat := 1 + total (op.kinds.map OperandKind.width)

theorem width_pos (op : Opcode) : 0 < op.width := by unfold width; omega

def offsets (op : Opcode) : List Nat :=
  (op.kinds.foldl (fun (list, pos) kind => (list ++ [pos], pos + kind.width)) ([], 1)).1

def role (op : Opcode) (index : Nat) : OperandRole := (op.slots[index]?.map (·.role)).getD .plain

def positions (op : Opcode) (role : OperandRole) : List Nat :=
  (List.range op.operandCount).filter fun index => op.role index == role

def isJump (op : Opcode) : Bool := op.kinds.any OperandKind.isAddress

def wider? (op : Opcode) : Option Opcode := op.row.wider.bind ofNat?

theorem code_lt_of_wider? {op long : Opcode} (h : op.wider? = some long) : op.code < long.code := by
  have sorted : ∀ code : Fin opcodeCount,
      (Opcode.wider? ⟨code⟩).all (fun later => decide (code < later.code)) = true := by
    decide +kernel
  have := sorted op.code
  rw [show (⟨op.code⟩ : Opcode) = op from rfl, h] at this
  simpa using this

def widenings (op : Opcode) : List Opcode :=
  match h : op.wider? with
  | none => [op]
  | some long =>
    have : op.code < long.code := code_lt_of_wider? h
    op :: long.widenings
termination_by opcodeCount - op.code.val
decreasing_by have := long.code.isLt; omega

-- For each instruction the narrowest form of its family: the first one that widens to it.
def narrowest : Array Opcode :=
  (all.map fun op => (all.find? fun short => short.widenings.contains op).getD op).toArray

def canonical (op : Opcode) : Opcode := narrowest[op.code.val]?.getD op

def sameFamily (op other : Opcode) : Bool := op.canonical == other.canonical

end Opcode
end CodeImage
