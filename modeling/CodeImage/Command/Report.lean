import CodeImage.Image.Reader
import CodeImage.Json.Printer

namespace CodeImage

structure Report where
  header : Header
  image : Image
  functions : List (Func × Nat)
deriving Inhabited

namespace Report

def make (header : Header) (image : Image) (withFunctions : Bool) : Report :=
  ⟨header, image, if withFunctions then image.functions.toList.zipIdx else []⟩

def overflowed (report : Report) : Nat := report.image.functions.countP (·.header.overflowed)

def functionName? (report : Report) (func : Func) : Option String :=
  report.image.text? func.header.functionName

def fill (text : String) (width : Nat) : String :=
  text ++ String.ofList (List.replicate (width - text.length) ' ')

def functionLine (report : Report) (row : Func × Nat) : String :=
  let (func, id) := row
  let h := func.header
  let name := fill ((report.functionName? func).getD "<invalid>") 32
  s!"  #{fill (toString id) 6} {name} params={h.paramCount} frame={h.frameSize} size={h.codeSize}"

def lines (report : Report) : List String :=
  let h := report.header
  let debug := match report.image.debugInfo with
    | some data => s!"{data.size} bytes at 0x{hexNat h.debugInfoOffset.toNat 1}"
    | none => "none"
  [s!"version        {h.version}",
    s!"source hash    {hex h.sourceHash.bytes}",
    s!"file length    {h.fileLength}",
    s!"functions      {h.functionCount} ({report.overflowed} overflowed, " ++
      s!"{report.image.bodies.size} bytecode blobs, global code #{h.globalCodeIndex})",
    s!"strings        {h.stringCount} ({h.identifierCount} identifiers, " ++
      s!"{h.overflowStringCount} overflowed, {h.stringStorageSize} bytes)",
    s!"bigints        {h.bigIntCount}",
    s!"regexps        {h.regExpCount}",
    s!"literals       {h.arrayBufferSize} array / {h.objectKeyBufferSize} key / {h.objectValueBufferSize} value bytes",
    s!"cjs modules    {h.cjsModuleCount}",
    s!"debug info     {debug}"] ++ report.functions.map report.functionLine

def natural (n : Nat) : JsonValue := .number (.int n)

def headerJson (h : Header) : JsonValue :=
  .object ([("version", natural h.version.toNat),
    ("source_hash", .list (h.sourceHash.bytes.toList.map fun b => natural b.toNat))] ++
    (Header.wordNames.zip h.toWords).map fun (name, w) => (name, natural w.toNat))

def functionHeaderJson (h : FunctionHeader) : JsonValue :=
  .object [("offset", natural h.offset.toNat), ("param_count", natural h.paramCount.toNat),
    ("bytecode_size_in_bytes", natural h.codeSize.toNat), ("function_name", natural h.functionName.toNat),
    ("info_offset", natural h.infoOffset.toNat), ("frame_size", natural h.frameSize.toNat),
    ("environment_size", natural h.environmentSize.toNat),
    ("highest_read_cache_index", natural h.readCacheIndex.toNat),
    ("highest_write_cache_index", natural h.writeCacheIndex.toNat),
    ("prohibit_invoke", .string h.prohibitInvoke.name), ("strict_mode", .bool h.strictMode),
    ("has_exception_handler", .bool h.hasExceptionHandler), ("has_debug_info", .bool h.hasDebugInfo),
    ("overflowed", .bool h.overflowed)]

def functionJson (report : Report) (row : Func × Nat) : JsonValue :=
  let (func, id) := row
  .object [("id", natural id), ("name", (report.functionName? func).elim .null .string),
    ("bytecode", natural func.body.toNat), ("header", functionHeaderJson func.header)]

def json (report : Report) : JsonValue :=
  .object [("header", headerJson report.header), ("bytecode_blobs", natural report.image.bodies.size),
    ("overflowed_headers", natural report.overflowed),
    ("functions", .list (report.functions.map report.functionJson))]

end Report
end CodeImage
