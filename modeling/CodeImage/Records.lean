import CodeImage.Packed.Schema

namespace CodeImage

-- The fields of a function header in stored form. Both header records have these fields, in this order.
structure HeaderRecord where
  offset : UInt32
  paramCount : UInt32
  codeSize : UInt32
  functionName : UInt32
  infoOffset : UInt32
  frameSize : UInt32
  environmentSize : UInt32
  readCacheIndex : UInt32
  writeCacheIndex : UInt32
  prohibitInvoke : UInt32
  strictMode : UInt32
  hasExceptionHandler : UInt32
  hasDebugInfo : UInt32
  overflowed : UInt32
deriving DecidableEq, Inhabited, Repr

structure KindRun where
  count : UInt32
  kind : UInt32
deriving DecidableEq, Inhabited, Repr

-- Where a string lies in storage. A length of 255 makes `offset` an index of the overflow table.
structure StringSlot where
  isUtf16 : UInt32
  offset : UInt32
  length : UInt32
deriving DecidableEq, Inhabited, Repr

structure Extent where
  offset : UInt32
  length : UInt32
deriving DecidableEq, Inhabited, Repr

structure FunctionSource where
  functionId : UInt32
  stringId : UInt32
deriving DecidableEq, Inhabited, Repr

def overflowLength : UInt32 := 0xff

namespace HeaderRecord

def toWords (r : HeaderRecord) : List UInt32 :=
  [r.offset, r.paramCount, r.codeSize, r.functionName, r.infoOffset, r.frameSize, r.environmentSize,
    r.readCacheIndex, r.writeCacheIndex, r.prohibitInvoke, r.strictMode, r.hasExceptionHandler,
    r.hasDebugInfo, r.overflowed]

def ofWords (words : List UInt32) : HeaderRecord :=
  let word (i : Nat) : UInt32 := words.getD i 0
  ⟨word 0, word 1, word 2, word 3, word 4, word 5, word 6, word 7, word 8, word 9, word 10, word 11,
    word 12, word 13⟩

end HeaderRecord

namespace Schema

def headerWidths (wide : List Nat) : List (String × Nat) :=
  ["offset", "param_count", "bytecode_size_in_bytes", "function_name", "info_offset", "frame_size",
    "environment_size"].zip wide ++
  [("highest_read_cache_index", 8), ("highest_write_cache_index", 8), ("prohibit_invoke", 2),
    ("strict_mode", 1), ("has_exception_handler", 1), ("has_debug_info", 1), ("overflowed", 1)]

def smallHeader : Schema HeaderRecord :=
  ⟨.ofWidths (headerWidths [25, 7, 15, 17, 25, 7, 8]), HeaderRecord.toWords, HeaderRecord.ofWords⟩

def largeHeader : Schema HeaderRecord :=
  ⟨.ofWidths (headerWidths [32, 32, 32, 32, 32, 32, 32]), HeaderRecord.toWords, HeaderRecord.ofWords⟩

def kindRun : Schema KindRun :=
  ⟨.ofWidths [("count", 31), ("kind", 1)], fun r => [r.count, r.kind],
    fun words => ⟨words.getD 0 0, words.getD 1 0⟩⟩

def identifierHash : Schema UInt32 :=
  ⟨.ofWidths [("hash", 32)], fun hash => [hash], fun words => words.getD 0 0⟩

def stringSlot : Schema StringSlot :=
  ⟨.ofWidths [("is_utf16", 1), ("offset", 23), ("length", 8)], fun r => [r.isUtf16, r.offset, r.length],
    fun words => ⟨words.getD 0 0, words.getD 1 0, words.getD 2 0⟩⟩

def extent : Schema Extent :=
  ⟨.ofWidths [("offset", 32), ("length", 32)], fun r => [r.offset, r.length],
    fun words => ⟨words.getD 0 0, words.getD 1 0⟩⟩

def functionSource : Schema FunctionSource :=
  ⟨.ofWidths [("function_id", 32), ("string_id", 32)], fun r => [r.functionId, r.stringId],
    fun words => ⟨words.getD 0 0, words.getD 1 0⟩⟩

end Schema
end CodeImage
