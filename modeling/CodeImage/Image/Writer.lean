import CodeImage.Image.Placement
import CodeImage.Image.Reader

namespace CodeImage

namespace Writer

-- The header of a written image, but for the two fields that depend on where everything lies.
def header (image : Image) (version : Option UInt32) : Except ImageError Header := do
  let (slots, overflow) := image.strings.encode
  return {
    version := version.getD image.version
    sourceHash := image.sourceHash
    globalCodeIndex := image.globalCodeIndex
    functionCount := ← toWord "functions" image.functions.size
    stringKindCount := ← toWord "string kinds" image.strings.kindRuns.size
    identifierCount := ← toWord "identifiers" image.identifierHashes.size
    stringCount := ← toWord "strings" slots.size
    overflowStringCount := ← toWord "overflow strings" overflow.size
    stringStorageSize := ← toWord "string storage" image.strings.storage.size
    bigIntCount := ← toWord "bigints" image.bigInts.size
    bigIntStorageSize := ← toWord "bigint storage" image.bigInts.storage.size
    regExpCount := ← toWord "regexps" image.regExps.size
    regExpStorageSize := ← toWord "regexp storage" image.regExps.storage.size
    arrayBufferSize := ← toWord "array buffer" image.arrayBuffer.size
    objectKeyBufferSize := ← toWord "object key buffer" image.objectKeyBuffer.size
    objectValueBufferSize := ← toWord "object value buffer" image.objectValueBuffer.size
    segmentId := image.segmentId
    cjsModuleCount := ← toWord "cjs modules" image.cjsModules.size
    functionSourceCount := ← toWord "function sources" image.functionSources.size
    options := image.options }

def smallRecord (p : Placement) : HeaderRecord :=
  if p.header.overflowed then p.header.toStub p.header.infoOffset else p.header.toSmall

def segment (image : Image) (placements : List Placement) : Segment → ByteArray
  | .functionHeaders => Schema.smallHeader.encodeMany (placements.map smallRecord).toArray
  | .stringKinds => Schema.kindRun.encodeMany image.strings.kindRuns
  | .identifierHashes => Schema.identifierHash.encodeMany image.identifierHashes
  | .stringTable => Schema.stringSlot.encodeMany image.strings.encode.1
  | .overflowStringTable => Schema.extent.encodeMany image.strings.encode.2
  | .stringStorage => image.strings.storage
  | .arrayBuffer => image.arrayBuffer
  | .objectKeyBuffer => image.objectKeyBuffer
  | .objectValueBuffer => image.objectValueBuffer
  | .bigIntTable => Schema.extent.encodeMany image.bigInts.entries
  | .bigIntStorage => image.bigInts.storage
  | .regExpTable => Schema.extent.encodeMany image.regExps.entries
  | .regExpStorage => image.regExps.storage
  | .cjsModuleTable => Schema.extent.encodeMany image.cjsModules
  | .functionSourceTable => Schema.functionSource.encodeMany image.functionSources

def appendBody (out : ByteArray) (body : Body) : ByteArray :=
  match body.jumpTables with
  | none => out ++ body.code
  | some tables => padded (out ++ body.code) ++ tables

def handlerWords (handlers : List Handler) : List UInt32 :=
  handlers.length.toUInt32 :: handlers.flatMap fun h => [h.start, h.stop, h.target]

def debugWords (debug : DebugOffsets) : List UInt32 :=
  [debug.sourceLocations, debug.scopeDescData, debug.textifiedCallees]

def appendTrailer (out : ByteArray) (func : Func) (p : Placement) : ByteArray :=
  let out := if p.header.overflowed then out ++ Schema.largeHeader.encode p.header.toLarge else out
  let out := ((func.handlers.map handlerWords).getD []).foldl pushWord out
  ((func.debug.map debugWords).getD []).foldl pushWord out

def contents (image : Image) (header : Header) (placements : List Placement) : ByteArray :=
  let out := Segment.all.foldl (fun out s => padded (out ++ segment image placements s)) header.encode
  let out := padded ((placements.filterMap (·.body)).foldl appendBody out)
  let out := (image.functions.toList.zip placements).foldl (fun out (func, p) => appendTrailer out func p) out
  out ++ image.debugInfo.getD ByteArray.empty

end Writer

namespace Image

def write (image : Image) (version : Option UInt32 := none) : Except ImageError ByteArray := do
  let header ← Writer.header image version
  let table ← SegmentTable.ofHeader header
  let (placements, stop) ← Placement.plan image table.codeStart
  let debugInfoOffset ← if image.debugInfo.isSome then toWord "debug info" stop else pure 0
  let length := stop + (image.debugInfo.getD ByteArray.empty).size + digestSize
  let fileLength ← toWord "file" length
  let out := Writer.contents image { header with debugInfoOffset, fileLength } placements
  return out ++ (Digest.of out).bytes

def verify (data : ByteArray) : Except ImageError Image := do
  checkDigest data
  let image ← parse data
  let out ← image.write
  if out = data then return image
  else throw (.roundTripMismatch (firstDifference out data) data.size out.size)

end Image
end CodeImage
