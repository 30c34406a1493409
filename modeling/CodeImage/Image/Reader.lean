import CodeImage.Error
import CodeImage.Image
import CodeImage.Segment
import CodeImage.Stream.Fetch

namespace CodeImage

structure Region where
  base : Nat
  bytes : ByteArray
deriving DecidableEq, Inhabited

namespace Region

def stop (region : Region) : Nat := region.base + region.bytes.size

def slice (region : Region) (offset len : Nat) : Except ImageError ByteArray :=
  if region.base ≤ offset ∧ offset + len ≤ region.stop then
    .ok (region.bytes.extract (offset - region.base) (offset - region.base + len))
  else .error (.unexpectedEnd offset len region.stop)

def word (region : Region) (offset : Nat) : Except ImageError UInt32 :=
  if region.base ≤ offset ∧ offset + 4 ≤ region.stop then .ok (wordAt region.bytes (offset - region.base))
  else .error (.unexpectedEnd offset 4 region.stop)

def triple (region : Region) (offset : Nat) : Except ImageError (UInt32 × UInt32 × UInt32) := do
  let first ← region.word offset
  let second ← region.word (offset + 4)
  let third ← region.word (offset + 8)
  return (first, second, third)

end Region

structure ReadOptions where
  expectedVersion : UInt32 := currentVersion
  verifyDigest : Bool := false
deriving DecidableEq, Inhabited, Repr

structure Tables where
  header : Header
  codeStart : Nat
  headers : Array HeaderRecord
  strings : StringTable
  identifierHashes : Array UInt32
  bigInts : OffsetTable
  regExps : OffsetTable
  arrayBuffer : ByteArray
  objectKeyBuffer : ByteArray
  objectValueBuffer : ByteArray
  cjsModules : Array Extent
  functionSources : Array FunctionSource
deriving Inhabited

namespace Tables

def decode (header : Header) (codeStart : Nat) (segment : Segment → ByteArray) : Except ImageError Tables := do
  let slots ← Schema.stringSlot.parseMany (segment .stringTable)
  let overflow ← Schema.extent.parseMany (segment .overflowStringTable)
  let kinds ← Schema.kindRun.parseMany (segment .stringKinds)
  let strings ← StringTable.ofRecords (segment .stringStorage) slots overflow kinds
  let bigIntEntries ← Schema.extent.parseMany (segment .bigIntTable)
  let bigInts ← OffsetTable.build "bigint" (segment .bigIntStorage) bigIntEntries
  let regExpEntries ← Schema.extent.parseMany (segment .regExpTable)
  let regExps ← OffsetTable.build "regexp" (segment .regExpStorage) regExpEntries
  let identifierHashes ← Schema.identifierHash.parseMany (segment .identifierHashes)
  let headers ← Schema.smallHeader.parseMany (segment .functionHeaders)
  let cjsModules ← Schema.extent.parseMany (segment .cjsModuleTable)
  let functionSources ← Schema.functionSource.parseMany (segment .functionSourceTable)
  return {
    header, codeStart, headers, strings, identifierHashes, bigInts, regExps, cjsModules, functionSources
    arrayBuffer := segment .arrayBuffer
    objectKeyBuffer := segment .objectKeyBuffer
    objectValueBuffer := segment .objectValueBuffer }

def bodyStop (tables : Tables) : Nat := max (tables.header.fileLength.toNat - digestSize) tables.codeStart

end Tables

-- The file does not say how many bodies there are. Two functions have the same one when their headers agree on offset
-- and size.
abbrev BodyKey := UInt32 × UInt32

namespace Reader

def resolveHeader (region : Region) (small : HeaderRecord) : Except ImageError FunctionHeader :=
  if small.overflowed = 0 then FunctionHeader.ofRecord small
  else
    match region.slice (FunctionHeader.largeOffset small).toNat Schema.largeHeader.size with
    | .error e => .error e
    | .ok data => FunctionHeader.ofLarge (Schema.largeHeader.decode data 0)

def bodyKey (header : FunctionHeader) : BodyKey := (header.offset, header.codeSize)

def bodyKeys (headers : List FunctionHeader) : List BodyKey :=
  headers.foldl (fun keys header => if keys.contains (bodyKey header) then keys else keys ++ [bodyKey header]) []

-- Jump tables have no length of their own either: a body goes on to the start of the next one, and the last one to the
-- first trailer.
def bodyStops (headers : List FunctionHeader) : List Nat :=
  match headers with
  | [] => []
  | first :: _ => ((bodyKeys headers).drop 1).map (·.1.toNat) ++ [first.infoOffset.toNat]

def readBody (region : Region) (key : BodyKey) (stop : Nat) : Except ImageError Body := do
  let codeStop := key.1.toNat + key.2.toNat
  let code ← region.slice key.1.toNat key.2.toNat
  if align4 codeStop < stop then
    return ⟨code, some (← region.slice (align4 codeStop) (stop - align4 codeStop))⟩
  else return ⟨code, none⟩

def readHandlers (region : Region) : (count offset : Nat) → List Handler → Except ImageError (List Handler)
  | 0, _, before => .ok before.reverse
  | count + 1, offset, before =>
    match region.triple offset with
    | .error e => .error e
    | .ok (start, stop, target) => readHandlers region count (offset + 12) (⟨start, stop, target⟩ :: before)

def readTrailer (region : Region) (header : FunctionHeader) :
    Except ImageError (Option (List Handler) × Option DebugOffsets) := do
  let start := header.infoOffset.toNat + if header.overflowed then Schema.largeHeader.size else 0
  let (handlers, offset) ←
    if header.hasExceptionHandler then do
      let count ← region.word start
      let handlers ← readHandlers region count.toNat (start + 4) []
      pure (some handlers, start + 4 + 12 * count.toNat)
    else pure (none, start)
  if header.hasDebugInfo then
    let (locations, scopes, callees) ← region.triple offset
    return (handlers, some ⟨locations, scopes, callees⟩)
  else return (handlers, none)

def readFunctions (region : Region) (keys : List BodyKey) (stops : List Nat) :
    List FunctionHeader → Array Func → Array Body → Except ImageError (Array Func × Array Body)
  | [], functions, bodies => .ok (functions, bodies)
  | header :: rest, functions, bodies => do
    let id := keys.idxOf (bodyKey header)
    let bodies ←
      if id < bodies.size then pure bodies
      else do pure (bodies.push (← readBody region (bodyKey header) (stops.getD id 0)))
    let (handlers, debug) ← readTrailer region header
    readFunctions region keys stops rest (functions.push ⟨header, id.toUInt32, handlers, debug⟩) bodies

def assemble (region : Region) (headers : List FunctionHeader) : Except ImageError (Array Func × Array Body) :=
  readFunctions region (bodyKeys headers) (bodyStops headers) headers #[] #[]

def readDebugInfo (region : Region) (offset stop : Nat) : Except ImageError (Option ByteArray) :=
  if offset = 0 then .ok none
  else if stop < offset then .error (.invalidLayout (.debugInfo offset))
  else (region.slice offset (stop - offset)).map some

end Reader

def Tables.finish (tables : Tables) (region : Region) : Except ImageError Image := do
  let headers ← tables.headers.toList.mapM (Reader.resolveHeader region)
  let (functions, bodies) ← Reader.assemble region headers
  let debugInfo ← Reader.readDebugInfo region tables.header.debugInfoOffset.toNat tables.bodyStop
  return {
    version := tables.header.version
    sourceHash := tables.header.sourceHash
    globalCodeIndex := tables.header.globalCodeIndex
    segmentId := tables.header.segmentId
    options := tables.header.options
    functions, bodies
    strings := tables.strings
    known := Array.replicate tables.strings.size none
    identifierHashes := tables.identifierHashes
    bigInts := tables.bigInts
    regExps := tables.regExps
    arrayBuffer := tables.arrayBuffer
    objectKeyBuffer := tables.objectKeyBuffer
    objectValueBuffer := tables.objectValueBuffer
    cjsModules := tables.cjsModules
    functionSources := tables.functionSources
    debugInfo }

def SegmentTable.contents (table : SegmentTable) (region : Region) : Except ImageError (Segment → ByteArray) := do
  let parts ← table.placed.mapM fun p => do return (p.segment, ← region.slice p.offset p.size)
  return fun segment => (parts.lookup segment).getD ByteArray.empty

namespace Image

def parseBody (data : ByteArray) (options : ReadOptions) (header : Header) : Except ImageError Image := do
  let length := header.fileLength.toNat
  if length < headerSize + digestSize then throw (.invalidLayout (.fileLength length))
  if data.size < length then throw (.unexpectedEnd 0 length data.size)
  let file := data.extract 0 length
  if options.verifyDigest then checkDigest file
  let table ← SegmentTable.ofHeader header
  let region : Region := ⟨0, file⟩
  let contents ← table.contents region
  let tables ← Tables.decode header table.codeStart contents
  tables.finish region

-- Reads a complete file; bytes after the declared length are left out.
def parse (data : ByteArray) (options : ReadOptions := {}) : Except ImageError Image := do
  let header ← Header.parse data
  parseBody data options header

def parseWarnings (data : ByteArray) (options : ReadOptions := {}) : List Warning :=
  match Header.parse data with
  | .error _ => []
  | .ok header => header.warnings options.expectedVersion


def fetchBody (options : ReadOptions) (tables : Tables) : Fetch Image :=
  let start := tables.codeStart
  .ask [(start, tables.bodyStop - start)] fun parts =>
    let region : Region := ⟨start, parts.headD ByteArray.empty⟩
    if options.verifyDigest then
      .ask [(0, tables.header.fileLength.toNat)] fun whole =>
        match checkDigest (whole.headD ByteArray.empty) with
        | .error e => .done (.error e)
        | .ok () => .done (tables.finish region)
    else .done (tables.finish region)

def fetchSegments (options : ReadOptions) (header : Header) : Fetch Image :=
  let length := header.fileLength.toNat
  if length < headerSize + digestSize then .done (.error (.invalidLayout (.fileLength length)))
  else
    match SegmentTable.ofHeader header with
    | .error e => .done (.error e)
    | .ok table =>
      .ask (table.placed.map fun p => (p.offset, p.size)) fun parts =>
        let named := (table.placed.map (·.segment)).zip parts
        match Tables.decode header table.codeStart fun s => (named.lookup s).getD ByteArray.empty with
        | .error e => .done (.error e)
        | .ok tables => fetchBody options tables

def fetch (options : ReadOptions) : Fetch Image :=
  .ask [(0, headerSize)] fun parts =>
    match Header.parse (parts.headD ByteArray.empty) with
    | .error e => .done (.error e)
    | .ok header => fetchSegments options header

def parseChunks (chunks : List ByteArray) (options : ReadOptions := {}) : Except ImageError Image :=
  (((fetch options).start.feedAll chunks).result?).getD (.error (.streamEnded 0 headerSize 0))

-- Reads an image from a source that gives chunks and then ends or fails; a failure of the source wins.
def parseSource (chunks : List ByteArray) (failure : Option String) (options : ReadOptions := {}) :
    Except ImageError Image :=
  match failure with
  | some reason => .error (.source reason)
  | none => parseChunks chunks options

end Image
end CodeImage
