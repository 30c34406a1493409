import CodeImage.Digest
import CodeImage.Error

namespace CodeImage

def currentVersion : UInt32 := 96

def signature : Nat := 0x1F1903C103BC1FC6

def headerSize : Nat := 128

structure Header where
  version : UInt32 := currentVersion
  sourceHash : Digest := default
  fileLength : UInt32 := 0
  globalCodeIndex : UInt32 := 0
  functionCount : UInt32 := 0
  stringKindCount : UInt32 := 0
  identifierCount : UInt32 := 0
  stringCount : UInt32 := 0
  overflowStringCount : UInt32 := 0
  stringStorageSize : UInt32 := 0
  bigIntCount : UInt32 := 0
  bigIntStorageSize : UInt32 := 0
  regExpCount : UInt32 := 0
  regExpStorageSize : UInt32 := 0
  arrayBufferSize : UInt32 := 0
  objectKeyBufferSize : UInt32 := 0
  objectValueBufferSize : UInt32 := 0
  segmentId : UInt32 := 0
  cjsModuleCount : UInt32 := 0
  functionSourceCount : UInt32 := 0
  debugInfoOffset : UInt32 := 0
  options : UInt32 := 0
deriving DecidableEq, Inhabited

namespace Header

def toWords (h : Header) : List UInt32 :=
  [h.fileLength, h.globalCodeIndex, h.functionCount, h.stringKindCount, h.identifierCount, h.stringCount,
    h.overflowStringCount, h.stringStorageSize, h.bigIntCount, h.bigIntStorageSize, h.regExpCount,
    h.regExpStorageSize, h.arrayBufferSize, h.objectKeyBufferSize, h.objectValueBufferSize, h.segmentId,
    h.cjsModuleCount, h.functionSourceCount, h.debugInfoOffset, h.options]

def ofWords (version : UInt32) (sourceHash : Digest) (words : List UInt32) : Header :=
  let word (i : Nat) : UInt32 := words.getD i 0
  ⟨version, sourceHash, word 0, word 1, word 2, word 3, word 4, word 5, word 6, word 7, word 8, word 9,
    word 10, word 11, word 12, word 13, word 14, word 15, word 16, word 17, word 18, word 19⟩

def wordNames : List String :=
  ["file_length", "global_code_index", "function_count", "string_kind_count", "identifier_count",
    "string_count", "overflow_string_count", "string_storage_size", "bigint_count",
    "bigint_storage_size", "regexp_count", "regexp_storage_size", "array_buffer_size",
    "obj_key_buffer_size", "obj_value_buffer_size", "segment_id", "cjs_module_count",
    "function_source_count", "debug_info_offset", "options"]

def wordsPos : Nat := 32

def parse (data : ByteArray) : Except ImageError Header :=
  if data.size < headerSize then .error (.unexpectedEnd 0 headerSize data.size)
  else if natAt data 0 8 ≠ signature then .error (.invalidMagic (natAt data 0 8))
  else .ok (ofWords (wordAt data 8) (Digest.take (data.extract 12 32))
    ((List.range 20).map fun i => wordAt data (wordsPos + 4 * i)))

def warnings (header : Header) (expected : UInt32) : List Warning :=
  if header.version = expected then [] else [.unexpectedVersion]

def encode (header : Header) : ByteArray :=
  let fixed := pushNat (pushNat ByteArray.empty 8 signature) 4 header.version.toNat
  paddedTo (header.toWords.foldl pushWord (fixed ++ header.sourceHash.bytes)) headerSize

def write (header : Header) (out : ByteArray) : Except ImageError ByteArray :=
  if out.size < headerSize then .error (.unexpectedEnd 0 headerSize out.size)
  else .ok (header.encode ++ out.extract headerSize out.size)

end Header
end CodeImage
