import CodeImage.Proofs.Parsed

-- Here every byte, every slice and every element is looked up, and a look-up that finds nothing ends the computation
-- with neither a result nor an error.

namespace CodeImage

-- A computation in which an access can miss; what misses is `none`.
abbrev Checked (α : Type) := ExceptT ImageError Option α

variable {α β : Type}

-- A computation none of whose accesses misses.
def inRange (x : Except ImageError α) : Checked α := ExceptT.mk (some x)

theorem pure_eq_inRange (a : α) : (pure a : Checked α) = inRange (.ok a) := rfl

-- An access, by what it finds.
def access (found : Option α) : Checked α := ExceptT.mk (found.map .ok)

theorem access_some (a : α) : access (some a) = inRange (.ok a) := rfl

theorem inRange_bind {x : Except ImageError α} {f : α → Checked β} {g : α → Except ImageError β}
    (later : ∀ a, x = .ok a → f a = inRange (g a)) : (inRange x >>= f) = inRange (x >>= g) := by
  cases x with
  | error e => rfl
  | ok a => exact later a rfl

theorem ok_inRange_bind (a : α) (f : α → Checked β) : (inRange (.ok a) >>= f) = f a := rfl

theorem mapM_inRange {f : α → Checked β} {g : α → Except ImageError β} {xs : List α}
    (each : ∀ x ∈ xs, f x = inRange (g x)) : xs.mapM f = inRange (xs.mapM g) := by
  induction xs with
  | nil => rfl
  | cons x rest ih =>
    obtain ⟨first, others⟩ := List.forall_mem_cons.mp each
    rw [List.mapM_cons, List.mapM_cons, first]
    refine inRange_bind fun y _ => ?_
    rw [ih others]
    exact inRange_bind fun ys _ => rfl

theorem mapM_some {f : α → Option β} {g : α → β} {xs : List α} (each : ∀ x ∈ xs, f x = some (g x)) :
    xs.mapM f = some (xs.map g) := by
  induction xs with
  | nil => rfl
  | cons x rest ih =>
    obtain ⟨first, others⟩ := List.forall_mem_cons.mp each
    rw [List.mapM_cons, first, ih others]
    rfl

-- A byte, and a number of several bytes, if all of them are there.
def byte? (data : ByteArray) (pos : Nat) : Option UInt8 := if pos < data.size then some (byteAt data pos) else none

def natAt? (data : ByteArray) (pos width : Nat) : Option Nat :=
  if pos + width ≤ data.size then some (natAt data pos width) else none

def wordAt? (data : ByteArray) (pos : Nat) : Option UInt32 := (natAt? data pos 4).map Nat.toUInt32

section Bytes

variable {data : ByteArray} {pos : Nat}

theorem natAt?_of_le {width : Nat} (room : pos + width ≤ data.size) :
    natAt? data pos width = some (natAt data pos width) := if_pos room

theorem wordAt?_of_le (room : pos + 4 ≤ data.size) : wordAt? data pos = some (wordAt data pos) := by
  rw [wordAt?, natAt?_of_le room]
  rfl

theorem slice?_of_le {len : Nat} (room : pos + len ≤ data.size) :
    slice? data pos len = some (data.extract pos (pos + len)) := if_pos room

end Bytes

-- All fields of a record are in it.
theorem Layout.readAll?_of_le {layout : Layout} (packed : layout.Packed) {data : ByteArray}
    (room : layout.byteSize ≤ data.size) : layout.readAll? data = some (layout.decode data 0) := by
  have each : ∀ i ∈ List.range layout.fields.length,
      layout.read? data i = some ((layout.fields.getD i default).read data 0) := by
    intro i member
    have inside := List.mem_range.mp member
    have within := packed.within _ (List.getElem_mem inside)
    rw [read?, List.getElem?_eq_getElem inside, List.getD_eq_getElem _ _ inside]
    exact if_pos (by omega)
  rw [readAll?, mapM_some each, decode]
  congr 1
  apply List.ext_getElem
  · simp
  · intro i left right
    have inside : i < layout.fields.length := by simpa using right
    rw [List.getElem_map, List.getElem_map, List.getElem_range, List.getD_eq_getElem _ _ inside]

namespace Schema

def decode? (schema : Schema α) (chunk : ByteArray) : Option α := (schema.layout.readAll? chunk).map schema.ofWords

def parseMany? (schema : Schema α) (data : ByteArray) : Checked (Array α) :=
  if data.size % schema.size = 0 then do
    let records ← access ((List.range (data.size / schema.size)).mapM fun i =>
      (slice? data (i * schema.size) schema.size).bind schema.decode?)
    return records.toArray
  else throw (.invalidLayout (.recordSize data.size schema.size))

variable {schema : Schema α}

theorem decode?_of_slice (lawful : schema.Lawful) {data : ByteArray} {pos : Nat} (room : pos + schema.size ≤ data.size) :
    (slice? data pos schema.size).bind schema.decode? = some (schema.decode data pos) := by
  have cut : (data.extract pos (pos + schema.size)).size = schema.size := by rw [ByteArray.size_extract]; omega
  rw [slice?_of_le room, Option.bind_some, decode?, Layout.readAll?_of_le lawful.packed (Nat.le_of_eq cut.symm),
    decode, Layout.decode_of_holds lawful.packed (Holds.of_extract room) (Nat.le_of_eq cut.symm)]
  rfl

theorem parseMany?_eq (lawful : schema.Lawful) (data : ByteArray) :
    schema.parseMany? data = inRange (schema.parseMany data) := by
  unfold parseMany? parseMany
  split
  · have each : ∀ i ∈ List.range (data.size / schema.size),
        (slice? data (i * schema.size) schema.size).bind schema.decode? =
          some (schema.decode data (i * schema.size)) := by
      intro i member
      have below : i + 1 ≤ data.size / schema.size := List.mem_range.mp member
      have room := Nat.le_trans (Nat.mul_le_mul_right schema.size below) (Nat.div_mul_le_self ..)
      rw [Nat.add_mul, Nat.one_mul] at room
      exact decode?_of_slice lawful room
    rw [mapM_some each, access_some, ok_inRange_bind, pure_eq_inRange]
    congr 2
    apply Array.ext
    · simp
    · intro i left right
      simp
  · rfl

end Schema

namespace Region

def slice? (region : Region) (offset len : Nat) : Checked ByteArray :=
  if region.base ≤ offset ∧ offset + len ≤ region.stop then
    access (CodeImage.slice? region.bytes (offset - region.base) len)
  else throw (.unexpectedEnd offset len region.stop)

def word? (region : Region) (offset : Nat) : Checked UInt32 := do
  let part ← region.slice? offset 4
  access (wordAt? part 0)

def triple? (region : Region) (offset : Nat) : Checked (UInt32 × UInt32 × UInt32) := do
  let first ← region.word? offset
  let second ← region.word? (offset + 4)
  let third ← region.word? (offset + 8)
  return (first, second, third)

theorem slice?_eq (region : Region) (offset len : Nat) :
    region.slice? offset len = inRange (region.slice offset len) := by
  unfold slice? slice
  split
  · next bounds =>
    have room : offset - region.base + len ≤ region.bytes.size := by
      have high := bounds.2
      unfold stop at high
      omega
    rw [slice?_of_le room]
    rfl
  · rfl

theorem word?_eq (region : Region) (offset : Nat) : region.word? offset = inRange (region.word offset) := by
  rw [word?, slice?_eq]
  cases sliced : region.slice offset 4 with
  | ok part =>
    have size := (slice_ok_iff.mp sliced).2
    rw [ok_inRange_bind, wordAt?_of_le (by omega), word_ok_iff.mpr ⟨part, sliced, rfl⟩]
    rfl
  | error e =>
    unfold slice at sliced
    split at sliced
    · cases sliced
    · next outside =>
      cases sliced
      rw [word, if_neg outside]
      rfl

theorem triple?_eq (region : Region) (offset : Nat) : region.triple? offset = inRange (region.triple offset) := by
  simp only [triple?, triple, word?_eq]
  refine inRange_bind fun first _ => inRange_bind fun second _ => inRange_bind fun third _ => rfl

end Region

namespace Reader

def resolveHeader? (region : Region) (small : HeaderRecord) : Checked FunctionHeader :=
  if small.overflowed = 0 then inRange (FunctionHeader.ofRecord small)
  else do
    let data ← region.slice? (FunctionHeader.largeOffset small).toNat Schema.largeHeader.size
    let large ← access (Schema.largeHeader.decode? data)
    inRange (FunctionHeader.ofLarge large)

def readBody? (region : Region) (key : BodyKey) (stop : Nat) : Checked Body := do
  let codeStop := key.1.toNat + key.2.toNat
  let code ← region.slice? key.1.toNat key.2.toNat
  if align4 codeStop < stop then
    let tables ← region.slice? (align4 codeStop) (stop - align4 codeStop)
    return ⟨code, some tables⟩
  else return ⟨code, none⟩

def readHandlers? (region : Region) : (count offset : Nat) → List Handler → Checked (List Handler)
  | 0, _, before => return before.reverse
  | count + 1, offset, before => do
    let (start, stop, target) ← region.triple? offset
    readHandlers? region count (offset + 12) (⟨start, stop, target⟩ :: before)

def handlerPart? (region : Region) (header : FunctionHeader) : Checked (Option (List Handler) × Nat) :=
  if header.hasExceptionHandler then do
    let count ← region.word? (trailerStart header)
    let handlers ← readHandlers? region count.toNat (trailerStart header + 4) []
    return (some handlers, trailerStart header + 4 + 12 * count.toNat)
  else return (none, trailerStart header)

def debugPart? (region : Region) (header : FunctionHeader) (offset : Nat) : Checked (Option DebugOffsets) :=
  if header.hasDebugInfo then do
    let values ← region.triple? offset
    return some ⟨values.1, values.2.1, values.2.2⟩
  else return none

def readTrailer? (region : Region) (header : FunctionHeader) :
    Checked (Option (List Handler) × Option DebugOffsets) := do
  let first ← handlerPart? region header
  let debug ← debugPart? region header first.2
  return (first.1, debug)

-- The end of a body's space is looked up too.
def nextBodies? (region : Region) (keys : List BodyKey) (stops : List Nat) (header : FunctionHeader)
    (bodies : Array Body) : Checked (Array Body) :=
  if keys.idxOf (bodyKey header) < bodies.size then return bodies
  else do
    let stop ← access stops[keys.idxOf (bodyKey header)]?
    let body ← readBody? region (bodyKey header) stop
    return bodies.push body

def readFunctions? (region : Region) (keys : List BodyKey) (stops : List Nat) :
    List FunctionHeader → Array Func → Array Body → Checked (Array Func × Array Body)
  | [], functions, bodies => return (functions, bodies)
  | header :: rest, functions, bodies => do
    let bodies ← nextBodies? region keys stops header bodies
    let trailer ← readTrailer? region header
    readFunctions? region keys stops rest
      (functions.push ⟨header, (keys.idxOf (bodyKey header)).toUInt32, trailer.1, trailer.2⟩) bodies

def assemble? (region : Region) (headers : List FunctionHeader) : Checked (Array Func × Array Body) :=
  readFunctions? region (bodyKeys headers) (bodyStops headers) headers #[] #[]

def readDebugInfo? (region : Region) (offset stop : Nat) : Checked (Option ByteArray) :=
  if offset = 0 then return none
  else if stop < offset then throw (.invalidLayout (.debugInfo offset))
  else do
    let info ← region.slice? offset (stop - offset)
    return some info

theorem resolveHeader?_eq (region : Region) (small : HeaderRecord) :
    resolveHeader? region small = inRange (resolveHeader region small) := by
  unfold resolveHeader? resolveHeader
  split
  · rfl
  · rw [Region.slice?_eq]
    cases sliced : region.slice (FunctionHeader.largeOffset small).toNat Schema.largeHeader.size with
    | error e => rfl
    | ok data =>
      have size : Schema.largeHeader.layout.byteSize ≤ data.size := Nat.le_of_eq (Region.slice_ok_iff.mp sliced).2.symm
      rw [ok_inRange_bind, Schema.decode?, Layout.readAll?_of_le Schema.largeHeader_lawful.packed size]
      rfl

theorem readBody?_eq (region : Region) (key : BodyKey) (stop : Nat) :
    readBody? region key stop = inRange (readBody region key stop) := by
  simp only [readBody?, readBody, Region.slice?_eq]
  refine inRange_bind fun code _ => ?_
  split
  · exact inRange_bind fun tables _ => rfl
  · rfl

theorem readHandlers?_eq (region : Region) (count offset : Nat) (before : List Handler) :
    readHandlers? region count offset before = inRange (readHandlers region count offset before) := by
  induction count generalizing offset before with
  | zero => rfl
  | succ count ih =>
    rw [readHandlers?, readHandlers, Region.triple?_eq]
    cases region.triple offset with
    | error e => rfl
    | ok values => exact ih _ _

theorem readTrailer?_eq (region : Region) (header : FunctionHeader) :
    readTrailer? region header = inRange (readTrailer region header) := by
  have first : handlerPart? region header = inRange (handlerPart region header) := by
    unfold handlerPart? handlerPart
    split
    · simp only [Region.word?_eq, readHandlers?_eq]
      exact inRange_bind fun count _ => inRange_bind fun handlers _ => rfl
    · rfl
  have second (offset : Nat) : debugPart? region header offset = inRange (debugPart region header offset) := by
    unfold debugPart? debugPart
    split
    · rw [Region.triple?_eq]
      exact inRange_bind fun values _ => rfl
    · rfl
  simp only [readTrailer?, readTrailer_eq, first, second]
  exact inRange_bind fun part _ => inRange_bind fun debug _ => rfl

theorem nextBodies?_eq (region : Region) {keys : List BodyKey} {stops : List Nat} {header : FunctionHeader}
    (slot : keys.idxOf (bodyKey header) < stops.length) (bodies : Array Body) :
    nextBodies? region keys stops header bodies = inRange (nextBodies region keys stops header bodies) := by
  unfold nextBodies? nextBodies
  split
  · rfl
  · rw [List.getElem?_eq_getElem slot, access_some, ok_inRange_bind, readBody?_eq, List.getD_eq_getElem _ _ slot]
    cases readBody region (bodyKey header) stops[keys.idxOf (bodyKey header)] with
    | error e => rfl
    | ok body => rfl

theorem readFunctions?_eq (region : Region) {keys : List BodyKey} {stops : List Nat} {headers : List FunctionHeader}
    (slots : ∀ header ∈ headers, keys.idxOf (bodyKey header) < stops.length) (functions : Array Func)
    (bodies : Array Body) :
    readFunctions? region keys stops headers functions bodies =
      inRange (readFunctions region keys stops headers functions bodies) := by
  induction headers generalizing functions bodies with
  | nil => rfl
  | cons header rest ih =>
    obtain ⟨slot, others⟩ := List.forall_mem_cons.mp slots
    rw [readFunctions?, readFunctions_cons, nextBodies?_eq region slot, readTrailer?_eq]
    exact inRange_bind fun bodies _ => inRange_bind fun trailer _ => ih others _ _

-- Every header has a slot for its body.
theorem assemble?_eq (region : Region) (headers : List FunctionHeader) :
    assemble? region headers = inRange (assemble region headers) := by
  refine readFunctions?_eq region ?_ #[] #[]
  intro header member
  rw [length_bodyStops]
  apply List.idxOf_lt_length_of_mem
  rw [bodyKeys_eq]
  exact mem_foldl_addKey (List.mem_map_of_mem member)

theorem readDebugInfo?_eq (region : Region) (offset stop : Nat) :
    readDebugInfo? region offset stop = inRange (readDebugInfo region offset stop) := by
  unfold readDebugInfo? readDebugInfo
  split
  · rfl
  · split
    · rfl
    · rw [Region.slice?_eq]
      cases region.slice offset (stop - offset) with
      | error e => rfl
      | ok info => rfl

end Reader

def Header.parse? (data : ByteArray) : Checked Header :=
  if data.size < headerSize then throw (.unexpectedEnd 0 headerSize data.size)
  else do
    let magic ← access (natAt? data 0 8)
    if magic ≠ signature then throw (.invalidMagic magic)
    else do
      let version ← access (wordAt? data 8)
      let hash ← access (slice? data 12 digestSize)
      let words ← access ((List.range 20).mapM fun i => wordAt? data (wordsPos + 4 * i))
      return ofWords version (Digest.take hash) words

theorem Header.parse?_eq (data : ByteArray) : Header.parse? data = inRange (Header.parse data) := by
  unfold Header.parse? Header.parse
  split
  · rfl
  · next long =>
    have room : 128 ≤ data.size := Nat.le_of_not_lt long
    have words : ∀ i ∈ List.range 20, wordAt? data (wordsPos + 4 * i) = some (wordAt data (wordsPos + 4 * i)) := by
      intro i member
      have inside := List.mem_range.mp member
      exact wordAt?_of_le (by rw [wordsPos]; omega)
    have hash : slice? data 12 digestSize = some (data.extract 12 32) := slice?_of_le (by rw [digestSize]; omega)
    rw [natAt?_of_le (by omega), wordAt?_of_le (by omega), hash, mapM_some words]
    simp only [access_some, ok_inRange_bind]
    split
    · rfl
    · rfl

def checkDigest? (file : ByteArray) : Checked Unit :=
  if file.size < digestSize then throw (.unexpectedEnd 0 digestSize file.size)
  else do
    let front ← access (slice? file 0 (file.size - digestSize))
    let stored ← access (slice? file (file.size - digestSize) digestSize)
    if stored = (Digest.of front).bytes then return () else throw (.hashMismatch stored (Digest.of front).bytes)

theorem checkDigest?_eq (file : ByteArray) : checkDigest? file = inRange (checkDigest file) := by
  unfold checkDigest? checkDigest
  split
  · rfl
  · next long =>
    have split : file.size - digestSize + digestSize = file.size := Nat.sub_add_cancel (Nat.le_of_not_lt long)
    rw [slice?_of_le (by omega), slice?_of_le (by omega), split, Nat.zero_add]
    simp only [access_some, ok_inRange_bind]
    split
    · rfl
    · rfl

-- The segments are looked up by name.
def SegmentTable.contents? (table : SegmentTable) (region : Region) : Checked (Segment → Option ByteArray) := do
  let parts ← table.placed.mapM fun p => do return (p.segment, ← region.slice? p.offset p.size)
  return fun segment => parts.lookup segment

def Tables.decode? (header : Header) (codeStart : Nat) (segment : Segment → Option ByteArray) : Checked Tables := do
  let slots ← Schema.stringSlot.parseMany? (← access (segment .stringTable))
  let overflow ← Schema.extent.parseMany? (← access (segment .overflowStringTable))
  let kinds ← Schema.kindRun.parseMany? (← access (segment .stringKinds))
  let strings ← inRange (StringTable.ofRecords (← access (segment .stringStorage)) slots overflow kinds)
  let bigIntEntries ← Schema.extent.parseMany? (← access (segment .bigIntTable))
  let bigInts ← inRange (OffsetTable.build "bigint" (← access (segment .bigIntStorage)) bigIntEntries)
  let regExpEntries ← Schema.extent.parseMany? (← access (segment .regExpTable))
  let regExps ← inRange (OffsetTable.build "regexp" (← access (segment .regExpStorage)) regExpEntries)
  let identifierHashes ← Schema.identifierHash.parseMany? (← access (segment .identifierHashes))
  let headers ← Schema.smallHeader.parseMany? (← access (segment .functionHeaders))
  let cjsModules ← Schema.extent.parseMany? (← access (segment .cjsModuleTable))
  let functionSources ← Schema.functionSource.parseMany? (← access (segment .functionSourceTable))
  return {
    header, codeStart, headers, strings, identifierHashes, bigInts, regExps, cjsModules, functionSources
    arrayBuffer := ← access (segment .arrayBuffer)
    objectKeyBuffer := ← access (segment .objectKeyBuffer)
    objectValueBuffer := ← access (segment .objectValueBuffer) }

theorem Tables.decode?_eq {header : Header} {codeStart : Nat} {found : Segment → Option ByteArray}
    {segment : Segment → ByteArray} (all : ∀ s, found s = some (segment s)) :
    Tables.decode? header codeStart found = inRange (Tables.decode header codeStart segment) := by
  simp only [Tables.decode?, Tables.decode, all, access_some, ok_inRange_bind,
    Schema.parseMany?_eq Schema.stringSlot_lawful, Schema.parseMany?_eq Schema.extent_lawful,
    Schema.parseMany?_eq Schema.kindRun_lawful, Schema.parseMany?_eq Schema.identifierHash_lawful,
    Schema.parseMany?_eq Schema.smallHeader_lawful, Schema.parseMany?_eq Schema.functionSource_lawful]
  exact inRange_bind fun slots _ => inRange_bind fun overflow _ => inRange_bind fun kinds _ =>
    inRange_bind fun strings _ => inRange_bind fun bigIntEntries _ => inRange_bind fun bigInts _ =>
    inRange_bind fun regExpEntries _ => inRange_bind fun regExps _ => inRange_bind fun hashes _ =>
    inRange_bind fun headers _ => inRange_bind fun modules _ => inRange_bind fun sources _ => rfl

def Tables.finish? (tables : Tables) (region : Region) : Checked Image := do
  let headers ← tables.headers.toList.mapM (Reader.resolveHeader? region)
  let assembled ← Reader.assemble? region headers
  let debugInfo ← Reader.readDebugInfo? region tables.header.debugInfoOffset.toNat tables.bodyStop
  return tables.imageWith assembled.1 assembled.2 debugInfo

theorem Tables.finish?_eq (tables : Tables) (region : Region) :
    tables.finish? region = inRange (tables.finish region) := by
  rw [Tables.finish?, Tables.finish, mapM_inRange fun small _ => Reader.resolveHeader?_eq region small]
  simp only [Reader.assemble?_eq, Reader.readDebugInfo?_eq]
  exact inRange_bind fun headers _ => inRange_bind fun assembled _ => inRange_bind fun info _ => rfl

namespace Image

def accept? (data : ByteArray) (options : ReadOptions) (header : Header) : Checked ByteArray :=
  let length := header.fileLength.toNat
  if length < headerSize + digestSize then throw (.invalidLayout (.fileLength length))
  else if data.size < length then throw (.unexpectedEnd 0 length data.size)
  else do
    let file ← access (slice? data 0 length)
    if options.verifyDigest then checkDigest? file
    return file

def parseBody? (data : ByteArray) (options : ReadOptions) (header : Header) : Checked Image := do
  let file ← accept? data options header
  let table ← inRange (SegmentTable.ofHeader header)
  let contents ← table.contents? ⟨0, file⟩
  let tables ← Tables.decode? header table.codeStart contents
  tables.finish? ⟨0, file⟩

def parse? (data : ByteArray) (options : ReadOptions := {}) : Checked Image := do
  let header ← Header.parse? data
  parseBody? data options header

theorem accept?_eq (data : ByteArray) (options : ReadOptions) (header : Header) :
    accept? data options header =
      inRange ((accept data options header).map fun _ => data.extract 0 header.fileLength.toNat) := by
  unfold accept? accept
  simp only
  split
  · rfl
  · split
    · rfl
    · next enough =>
      rw [slice?_of_le (by omega), Nat.zero_add, access_some, ok_inRange_bind, checkDigest?_eq]
      split
      · cases checkDigest (data.extract 0 header.fileLength.toNat) with
        | error e => rfl
        | ok _ => rfl
      · rfl

end Image

-- Every segment has a part.
theorem SegmentTable.contents?_eq {header : Header} {table : SegmentTable} (made : ofHeader header = .ok table)
    (region : Region) {next : (Segment → Option ByteArray) → Checked α}
    {after : (Segment → ByteArray) → Except ImageError α}
    (later : ∀ found segment, (∀ s, found s = some (segment s)) → next found = inRange (after segment)) :
    (table.contents? region >>= next) = inRange (table.contents region >>= after) := by
  have read : (table.placed.mapM fun p => do return (p.segment, ← region.slice? p.offset p.size) : Checked _) =
      inRange (table.placed.mapM fun p => do return (p.segment, ← region.slice p.offset p.size)) := by
    apply mapM_inRange
    intro p _
    rw [Region.slice?_eq]
    exact inRange_bind fun part _ => rfl
  rw [contents?, contents, read, bind_assoc, bind_assoc]
  refine inRange_bind fun parts sliced => ?_
  apply later
  intro segment
  have listed : segment ∈ parts.map Prod.fst := by
    have names : parts.map Prod.fst = table.placed.map (·.segment) := by
      rw [mapM_named, map_ok_iff] at sliced
      obtain ⟨bytes, each, rfl⟩ := sliced
      rw [List.map_fst_zip]
      rw [List.length_map, (mapM_ok_iff.mp each).length_eq]
    rw [names, map_segment_of_place (ofHeader_ok_iff.mp made)]
    exact segment.mem_all
  cases found : parts.lookup segment with
  | some part => rfl
  | none =>
    obtain ⟨pair, member, rfl⟩ := List.mem_map.mp listed
    simpa using List.lookup_eq_none_iff.mp found pair member

-- Reading never looks beyond the bytes that it is given.
theorem Image.parse?_eq (data : ByteArray) (options : ReadOptions) :
    Image.parse? data options = inRange (Image.parse data options) := by
  rw [Image.parse?, Image.parse, Header.parse?_eq]
  refine inRange_bind fun header _ => ?_
  rw [parseBody?, parseBody_eq, accept?_eq]
  cases accepted : accept data options header with
  | error e => rfl
  | ok _ =>
    rw [Except.map, ok_inRange_bind, ok_bind]
    refine inRange_bind fun table made => ?_
    refine SegmentTable.contents?_eq made _ fun found segment all => ?_
    rw [Tables.decode?_eq all]
    exact inRange_bind fun tables _ => Tables.finish?_eq tables _

def OperandKind.read? (kind : OperandKind) (code : ByteArray) (pos : Nat) : Option Operand :=
  if pos + kind.width ≤ code.size then some (kind.read code pos) else none

namespace Instruction

def readOperands? (code : ByteArray) : (pos : Nat) → List OperandKind → Option (List Operand)
  | _, [] => some []
  | pos, kind :: kinds => do
    let operand ← kind.read? code pos
    let operands ← readOperands? code (pos + kind.width) kinds
    return operand :: operands

def decodeAt? (code : ByteArray) (ip : Nat) : Checked Located :=
  if ip < code.size then do
    let byte ← access (byte? code ip)
    match Opcode.ofByte? byte with
    | none => throw (.invalidOpcode byte ip)
    | some opcode =>
      if opcode.width ≤ code.size - ip then do
        let operands ← access (readOperands? code (ip + 1) opcode.kinds)
        return ⟨ip, opcode.width, ⟨opcode, operands⟩⟩
      else throw (.truncatedInstruction opcode ip opcode.width (code.size - ip))
  else throw (.unexpectedEnd ip 1 code.size)

theorem readOperands?_of_le {code : ByteArray} {pos : Nat} {kinds : List OperandKind}
    (room : pos + total (kinds.map OperandKind.width) ≤ code.size) :
    readOperands? code pos kinds = some (readOperands code pos kinds) := by
  induction kinds generalizing pos with
  | nil => rfl
  | cons kind rest ih =>
    have split : total ((kind :: rest).map OperandKind.width) =
        kind.width + total (rest.map OperandKind.width) := rfl
    have first : kind.read? code pos = some (kind.read code pos) := if_pos (by omega)
    rw [readOperands?, first, ih (by omega), readOperands]
    rfl

theorem decodeAt?_eq (code : ByteArray) (ip : Nat) : decodeAt? code ip = inRange (decodeAt code ip) := by
  unfold decodeAt? decodeAt
  split
  · next inside =>
    have byte : byte? code ip = some (byteAt code ip) := if_pos inside
    rw [byte, access_some, ok_inRange_bind]
    cases Opcode.ofByte? (byteAt code ip) with
    | none => rfl
    | some opcode =>
      simp only
      split
      · next room =>
        unfold Opcode.width at room
        rw [readOperands?_of_le (by omega)]
        rfl
      · rfl
  · rfl

theorem decodeAt_of_run {code : ByteArray} {ip : Nat} {here : Located}
    (decoded : (decodeAt? code ip).run = some (.ok here)) : decodeAt code ip = .ok here := by
  rw [decodeAt?_eq] at decoded
  exact Option.some.inj decoded

def decodeFrom? (code : ByteArray) (ip : Nat) (before : List Located) : Option (List Located × Option ImageError) :=
  if ip < code.size then
    match decoded : (decodeAt? code ip).run with
    | none => none
    | some (.error e) => some (before.reverse, some e)
    | some (.ok here) =>
      have : 0 < here.width := decodeAt_width (decodeAt_of_run decoded)
      decodeFrom? code (ip + here.width) (here :: before)
  else some (before.reverse, none)
termination_by code.size - ip

def decodeAll? (code : ByteArray) : Option (List Located × Option ImageError) := decodeFrom? code 0 []

theorem decodeFrom?_eq (code : ByteArray) (ip : Nat) (before : List Located) :
    decodeFrom? code ip before = some (decodeFrom code ip before) := by
  fun_induction decodeFrom? code ip before with
  | case1 ip before inside missed =>
    rw [decodeAt?_eq] at missed
    cases missed
  | case2 ip before inside e decoded =>
    rw [decodeAt?_eq] at decoded
    rw [decodeFrom, if_pos inside]
    split
    · next e' failed =>
      rw [failed] at decoded
      cases decoded
      rfl
    · next here done =>
      rw [done] at decoded
      cases decoded
  | case3 ip before inside here decoded _ ih =>
    have done := decodeAt_of_run decoded
    rw [ih, decodeFrom.eq_def code ip before, if_pos inside]
    split
    · next e failed =>
      rw [failed] at done
      cases done
    · next here' done' =>
      rw [done'] at done
      cases done
      rfl
  | case4 ip before outside => rw [decodeFrom, if_neg outside]

end Instruction

-- Decoding never looks beyond the code.
theorem Instruction.decodeAll?_eq (code : ByteArray) : decodeAll? code = some (decodeAll code) := decodeFrom?_eq code 0 []

end CodeImage
