import CodeImage.Operand

namespace CodeImage

structure OperandSlot where
  kind : OperandKind
  role : OperandRole
deriving DecidableEq, Inhabited, Repr

structure OpcodeRow where
  name : String
  slots : List OperandSlot
  wider : Option Nat
deriving Inhabited, Repr

namespace OpcodeTable

def r8 : OperandSlot := ⟨.reg8, .plain⟩
def r32 : OperandSlot := ⟨.reg32, .plain⟩
def u8 : OperandSlot := ⟨.uint8, .plain⟩
def u16 : OperandSlot := ⟨.uint16, .plain⟩
def u32 : OperandSlot := ⟨.uint32, .plain⟩
def a8 : OperandSlot := ⟨.addr8, .plain⟩
def a32 : OperandSlot := ⟨.addr32, .plain⟩
def i32 : OperandSlot := ⟨.imm32, .plain⟩
def f64 : OperandSlot := ⟨.double, .plain⟩

end OpcodeTable

def OperandSlot.string (slot : OperandSlot) : OperandSlot := { slot with role := .string }

def OperandSlot.function (slot : OperandSlot) : OperandSlot := { slot with role := .function }

def OperandSlot.bigInt (slot : OperandSlot) : OperandSlot := { slot with role := .bigInt }

open OpcodeTable in
-- The code of an instruction is the number of its row.
def opcodeTable : Array OpcodeRow := #[
  -- 0x00
  ⟨"Unreachable", [], none⟩,
  ⟨"NewObjectWithBuffer", [r8, u16, u16, u16, u16], some 2⟩,
  ⟨"NewObjectWithBufferLong", [r8, u16, u16, u32, u32], none⟩,
  ⟨"NewObject", [r8], none⟩,
  ⟨"NewObjectWithParent", [r8, r8], none⟩,
  ⟨"NewArrayWithBuffer", [r8, u16, u16, u16], some 6⟩,
  ⟨"NewArrayWithBufferLong", [r8, u16, u16, u32], none⟩,
  ⟨"NewArray", [r8, u16], none⟩,
  ⟨"Mov", [r8, r8], some 9⟩,
  ⟨"MovLong", [r32, r32], none⟩,
  ⟨"Negate", [r8, r8], none⟩,
  ⟨"Not", [r8, r8], none⟩,
  ⟨"BitNot", [r8, r8], none⟩,
  ⟨"TypeOf", [r8, r8], none⟩,
  ⟨"Eq", [r8, r8, r8], none⟩,
  ⟨"StrictEq", [r8, r8, r8], none⟩,
  -- 0x10
  ⟨"Neq", [r8, r8, r8], none⟩,
  ⟨"StrictNeq", [r8, r8, r8], none⟩,
  ⟨"Less", [r8, r8, r8], none⟩,
  ⟨"LessEq", [r8, r8, r8], none⟩,
  ⟨"Greater", [r8, r8, r8], none⟩,
  ⟨"GreaterEq", [r8, r8, r8], none⟩,
  ⟨"Add", [r8, r8, r8], none⟩,
  ⟨"AddN", [r8, r8, r8], none⟩,
  ⟨"Mul", [r8, r8, r8], none⟩,
  ⟨"MulN", [r8, r8, r8], none⟩,
  ⟨"Div", [r8, r8, r8], none⟩,
  ⟨"DivN", [r8, r8, r8], none⟩,
  ⟨"Mod", [r8, r8, r8], none⟩,
  ⟨"Sub", [r8, r8, r8], none⟩,
  ⟨"SubN", [r8, r8, r8], none⟩,
  ⟨"LShift", [r8, r8, r8], none⟩,
  -- 0x20
  ⟨"RShift", [r8, r8, r8], none⟩,
  ⟨"URshift", [r8, r8, r8], none⟩,
  ⟨"BitAnd", [r8, r8, r8], none⟩,
  ⟨"BitXor", [r8, r8, r8], none⟩,
  ⟨"BitOr", [r8, r8, r8], none⟩,
  ⟨"Inc", [r8, r8], none⟩,
  ⟨"Dec", [r8, r8], none⟩,
  ⟨"InstanceOf", [r8, r8, r8], none⟩,
  ⟨"IsIn", [r8, r8, r8], none⟩,
  ⟨"GetEnvironment", [r8, u8], none⟩,
  ⟨"StoreToEnvironment", [r8, u8, r8], some 43⟩,
  ⟨"StoreToEnvironmentL", [r8, u16, r8], none⟩,
  ⟨"StoreNPToEnvironment", [r8, u8, r8], some 45⟩,
  ⟨"StoreNPToEnvironmentL", [r8, u16, r8], none⟩,
  ⟨"LoadFromEnvironment", [r8, r8, u8], some 47⟩,
  ⟨"LoadFromEnvironmentL", [r8, r8, u16], none⟩,
  -- 0x30
  ⟨"GetGlobalObject", [r8], none⟩,
  ⟨"GetNewTarget", [r8], none⟩,
  ⟨"CreateEnvironment", [r8], none⟩,
  ⟨"CreateInnerEnvironment", [r8, r8, u32], none⟩,
  ⟨"DeclareGlobalVar", [u32.string], none⟩,
  ⟨"ThrowIfHasRestrictedGlobalProperty", [u32.string], none⟩,
  ⟨"GetByIdShort", [r8, r8, u8, u8.string], some 55⟩,
  ⟨"GetById", [r8, r8, u8, u16.string], some 56⟩,
  ⟨"GetByIdLong", [r8, r8, u8, u32.string], none⟩,
  ⟨"TryGetById", [r8, r8, u8, u16.string], some 58⟩,
  ⟨"TryGetByIdLong", [r8, r8, u8, u32.string], none⟩,
  ⟨"PutById", [r8, r8, u8, u16.string], some 60⟩,
  ⟨"PutByIdLong", [r8, r8, u8, u32.string], none⟩,
  ⟨"TryPutById", [r8, r8, u8, u16.string], some 62⟩,
  ⟨"TryPutByIdLong", [r8, r8, u8, u32.string], none⟩,
  ⟨"PutNewOwnByIdShort", [r8, r8, u8.string], some 64⟩,
  -- 0x40
  ⟨"PutNewOwnById", [r8, r8, u16.string], some 65⟩,
  ⟨"PutNewOwnByIdLong", [r8, r8, u32.string], none⟩,
  ⟨"PutNewOwnNEById", [r8, r8, u16.string], some 67⟩,
  ⟨"PutNewOwnNEByIdLong", [r8, r8, u32.string], none⟩,
  ⟨"PutOwnByIndex", [r8, r8, u8], some 69⟩,
  ⟨"PutOwnByIndexL", [r8, r8, u32], none⟩,
  ⟨"PutOwnByVal", [r8, r8, r8, u8], none⟩,
  ⟨"DelById", [r8, r8, u16.string], some 72⟩,
  ⟨"DelByIdLong", [r8, r8, u32.string], none⟩,
  ⟨"GetByVal", [r8, r8, r8], none⟩,
  ⟨"PutByVal", [r8, r8, r8], none⟩,
  ⟨"DelByVal", [r8, r8, r8], none⟩,
  ⟨"PutOwnGetterSetterByVal", [r8, r8, r8, r8, u8], none⟩,
  ⟨"GetPNameList", [r8, r8, r8, r8], none⟩,
  ⟨"GetNextPName", [r8, r8, r8, r8, r8], none⟩,
  ⟨"Call", [r8, r8, u8], some 86⟩,
  -- 0x50
  ⟨"Construct", [r8, r8, u8], some 87⟩,
  ⟨"Call1", [r8, r8, r8], none⟩,
  ⟨"CallDirect", [r8, u8, u16.function], some 88⟩,
  ⟨"Call2", [r8, r8, r8, r8], none⟩,
  ⟨"Call3", [r8, r8, r8, r8, r8], none⟩,
  ⟨"Call4", [r8, r8, r8, r8, r8, r8], none⟩,
  ⟨"CallLong", [r8, r8, u32], none⟩,
  ⟨"ConstructLong", [r8, r8, u32], none⟩,
  ⟨"CallDirectLongIndex", [r8, u8, u32.function], none⟩,
  ⟨"CallBuiltin", [r8, u8, u8], some 90⟩,
  ⟨"CallBuiltinLong", [r8, u8, u32], none⟩,
  ⟨"GetBuiltinClosure", [r8, u8], none⟩,
  ⟨"Ret", [r8], none⟩,
  ⟨"Catch", [r8], none⟩,
  ⟨"DirectEval", [r8, r8, u8], none⟩,
  ⟨"Throw", [r8], none⟩,
  -- 0x60
  ⟨"ThrowIfEmpty", [r8, r8], none⟩,
  ⟨"Debugger", [], none⟩,
  ⟨"AsyncBreakCheck", [], none⟩,
  ⟨"ProfilePoint", [u16], none⟩,
  ⟨"CreateClosure", [r8, r8, u16.function], some 101⟩,
  ⟨"CreateClosureLongIndex", [r8, r8, u32.function], none⟩,
  ⟨"CreateGeneratorClosure", [r8, r8, u16.function], some 103⟩,
  ⟨"CreateGeneratorClosureLongIndex", [r8, r8, u32.function], none⟩,
  ⟨"CreateAsyncClosure", [r8, r8, u16.function], some 105⟩,
  ⟨"CreateAsyncClosureLongIndex", [r8, r8, u32.function], none⟩,
  ⟨"CreateThis", [r8, r8, r8], none⟩,
  ⟨"SelectObject", [r8, r8, r8], none⟩,
  ⟨"LoadParam", [r8, u8], some 109⟩,
  ⟨"LoadParamLong", [r8, u32], none⟩,
  ⟨"LoadConstUInt8", [r8, u8], some 111⟩,
  ⟨"LoadConstInt", [r8, i32], none⟩,
  -- 0x70
  ⟨"LoadConstDouble", [r8, f64], none⟩,
  ⟨"LoadConstBigInt", [r8, u16.bigInt], some 114⟩,
  ⟨"LoadConstBigIntLongIndex", [r8, u32.bigInt], none⟩,
  ⟨"LoadConstString", [r8, u16.string], some 116⟩,
  ⟨"LoadConstStringLongIndex", [r8, u32.string], none⟩,
  ⟨"LoadConstEmpty", [r8], none⟩,
  ⟨"LoadConstUndefined", [r8], none⟩,
  ⟨"LoadConstNull", [r8], none⟩,
  ⟨"LoadConstTrue", [r8], none⟩,
  ⟨"LoadConstFalse", [r8], none⟩,
  ⟨"LoadConstZero", [r8], none⟩,
  ⟨"CoerceThisNS", [r8, r8], none⟩,
  ⟨"LoadThisNS", [r8], none⟩,
  ⟨"ToNumber", [r8, r8], none⟩,
  ⟨"ToNumeric", [r8, r8], none⟩,
  ⟨"ToInt32", [r8, r8], none⟩,
  -- 0x80
  ⟨"AddEmptyString", [r8, r8], none⟩,
  ⟨"GetArgumentsPropByVal", [r8, r8, r8], none⟩,
  ⟨"GetArgumentsLength", [r8, r8], none⟩,
  ⟨"ReifyArguments", [r8], none⟩,
  ⟨"CreateRegExp", [r8, u32.string, u32.string, u32], none⟩,
  ⟨"SwitchImm", [r8, u32, a32, u32, u32], none⟩,
  ⟨"StartGenerator", [], none⟩,
  ⟨"ResumeGenerator", [r8, r8], none⟩,
  ⟨"CompleteGenerator", [], none⟩,
  ⟨"CreateGenerator", [r8, r8, u16.function], some 138⟩,
  ⟨"CreateGeneratorLongIndex", [r8, r8, u32.function], none⟩,
  ⟨"IteratorBegin", [r8, r8], none⟩,
  ⟨"IteratorNext", [r8, r8, r8], none⟩,
  ⟨"IteratorClose", [r8, u8], none⟩,
  ⟨"Jmp", [a8], some 143⟩,
  ⟨"JmpLong", [a32], none⟩,
  -- 0x90
  ⟨"JmpTrue", [a8, r8], some 145⟩,
  ⟨"JmpTrueLong", [a32, r8], none⟩,
  ⟨"JmpFalse", [a8, r8], some 147⟩,
  ⟨"JmpFalseLong", [a32, r8], none⟩,
  ⟨"JmpUndefined", [a8, r8], some 149⟩,
  ⟨"JmpUndefinedLong", [a32, r8], none⟩,
  ⟨"SaveGenerator", [a8], some 151⟩,
  ⟨"SaveGeneratorLong", [a32], none⟩,
  ⟨"JLess", [a8, r8, r8], some 153⟩,
  ⟨"JLessLong", [a32, r8, r8], none⟩,
  ⟨"JNotLess", [a8, r8, r8], some 155⟩,
  ⟨"JNotLessLong", [a32, r8, r8], none⟩,
  ⟨"JLessN", [a8, r8, r8], some 157⟩,
  ⟨"JLessNLong", [a32, r8, r8], none⟩,
  ⟨"JNotLessN", [a8, r8, r8], some 159⟩,
  ⟨"JNotLessNLong", [a32, r8, r8], none⟩,
  -- 0xa0
  ⟨"JLessEqual", [a8, r8, r8], some 161⟩,
  ⟨"JLessEqualLong", [a32, r8, r8], none⟩,
  ⟨"JNotLessEqual", [a8, r8, r8], some 163⟩,
  ⟨"JNotLessEqualLong", [a32, r8, r8], none⟩,
  ⟨"JLessEqualN", [a8, r8, r8], some 165⟩,
  ⟨"JLessEqualNLong", [a32, r8, r8], none⟩,
  ⟨"JNotLessEqualN", [a8, r8, r8], some 167⟩,
  ⟨"JNotLessEqualNLong", [a32, r8, r8], none⟩,
  ⟨"JGreater", [a8, r8, r8], some 169⟩,
  ⟨"JGreaterLong", [a32, r8, r8], none⟩,
  ⟨"JNotGreater", [a8, r8, r8], some 171⟩,
  ⟨"JNotGreaterLong", [a32, r8, r8], none⟩,
  ⟨"JGreaterN", [a8, r8, r8], some 173⟩,
  ⟨"JGreaterNLong", [a32, r8, r8], none⟩,
  ⟨"JNotGreaterN", [a8, r8, r8], some 175⟩,
  ⟨"JNotGreaterNLong", [a32, r8, r8], none⟩,
  -- 0xb0
  ⟨"JGreaterEqual", [a8, r8, r8], some 177⟩,
  ⟨"JGreaterEqualLong", [a32, r8, r8], none⟩,
  ⟨"JNotGreaterEqual", [a8, r8, r8], some 179⟩,
  ⟨"JNotGreaterEqualLong", [a32, r8, r8], none⟩,
  ⟨"JGreaterEqualN", [a8, r8, r8], some 181⟩,
  ⟨"JGreaterEqualNLong", [a32, r8, r8], none⟩,
  ⟨"JNotGreaterEqualN", [a8, r8, r8], some 183⟩,
  ⟨"JNotGreaterEqualNLong", [a32, r8, r8], none⟩,
  ⟨"JEqual", [a8, r8, r8], some 185⟩,
  ⟨"JEqualLong", [a32, r8, r8], none⟩,
  ⟨"JNotEqual", [a8, r8, r8], some 187⟩,
  ⟨"JNotEqualLong", [a32, r8, r8], none⟩,
  ⟨"JStrictEqual", [a8, r8, r8], some 189⟩,
  ⟨"JStrictEqualLong", [a32, r8, r8], none⟩,
  ⟨"JStrictNotEqual", [a8, r8, r8], some 191⟩,
  ⟨"JStrictNotEqualLong", [a32, r8, r8], none⟩,
  -- 0xc0
  ⟨"Add32", [r8, r8, r8], none⟩,
  ⟨"Sub32", [r8, r8, r8], none⟩,
  ⟨"Mul32", [r8, r8, r8], none⟩,
  ⟨"Divi32", [r8, r8, r8], none⟩,
  ⟨"Divu32", [r8, r8, r8], none⟩,
  ⟨"Loadi8", [r8, r8, r8], none⟩,
  ⟨"Loadu8", [r8, r8, r8], none⟩,
  ⟨"Loadi16", [r8, r8, r8], none⟩,
  ⟨"Loadu16", [r8, r8, r8], none⟩,
  ⟨"Loadi32", [r8, r8, r8], none⟩,
  ⟨"Loadu32", [r8, r8, r8], none⟩,
  ⟨"Store8", [r8, r8, r8], none⟩,
  ⟨"Store16", [r8, r8, r8], none⟩,
  ⟨"Store32", [r8, r8, r8], none⟩]

end CodeImage
