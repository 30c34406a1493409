import CodeImage.Proofs.Segment
import CodeImage.Proofs.Assemble

namespace CodeImage

-- Everything that stands in `out` from `start` on stands in the region at the same offset.
def Region.Covers (region : Region) (out : ByteArray) (start : Nat) : Prop :=
  ∀ offset part, start ≤ offset → Holds out offset part → region.Has offset part

theorem Region.window_covers {file out : ByteArray} {base start stop : Nat} (front : Holds file 0 out)
    (low : base ≤ start) (high : out.size ≤ stop) : (Region.window file base stop).Covers out start := by
  intro offset part above held
  have room := held.1
  exact Region.has_window (front.inside_front held) (by omega) (by omega)

-- The image that the tables and the rest of the file make up.
def Tables.imageWith (tables : Tables) (functions : Array Func) (bodies : Array Body) (debugInfo : Option ByteArray) :
    Image :=
  { version := tables.header.version, sourceHash := tables.header.sourceHash,
    globalCodeIndex := tables.header.globalCodeIndex, segmentId := tables.header.segmentId,
    options := tables.header.options, functions, bodies, strings := tables.strings,
    known := Array.replicate tables.strings.size none, identifierHashes := tables.identifierHashes, bigInts := tables.bigInts, regExps := tables.regExps,
    arrayBuffer := tables.arrayBuffer, objectKeyBuffer := tables.objectKeyBuffer,
    objectValueBuffer := tables.objectValueBuffer, cjsModules := tables.cjsModules,
    functionSources := tables.functionSources, debugInfo }

theorem Tables.finish_exact {tables : Tables} {region : Region} {image : Image} :
    tables.finish region = .ok image ↔ ∃ headers functions bodies debugInfo,
      tables.headers.toList.mapM (Reader.resolveHeader region) = .ok headers ∧
      Reader.assemble region headers = .ok (functions, bodies) ∧
      Reader.readDebugInfo region tables.header.debugInfoOffset.toNat tables.bodyStop = .ok debugInfo ∧
      image = tables.imageWith functions bodies debugInfo := by
  rw [Tables.finish, bind_ok_iff]
  constructor
  · rintro ⟨headers, resolved, more⟩
    obtain ⟨⟨functions, bodies⟩, assembled, more⟩ := bind_ok_iff.mp more
    obtain ⟨debugInfo, debug, done⟩ := bind_ok_iff.mp more
    cases done
    exact ⟨headers, functions, bodies, debugInfo, resolved, assembled, debug, rfl⟩
  · rintro ⟨headers, functions, bodies, debugInfo, resolved, assembled, debug, rfl⟩
    exact ⟨headers, resolved, bind_ok_iff.mpr ⟨(functions, bodies), assembled, bind_ok_iff.mpr ⟨debugInfo, debug, rfl⟩⟩⟩

namespace Writer

-- The number of elements of each segment.
def elements (image : Image) : Segment → Nat
  | .functionHeaders => image.functions.size
  | .stringKinds => image.strings.kindRuns.size
  | .identifierHashes => image.identifierHashes.size
  | .stringTable => image.strings.encode.1.size
  | .overflowStringTable => image.strings.encode.2.size
  | .stringStorage => image.strings.storage.size
  | .arrayBuffer => image.arrayBuffer.size
  | .objectKeyBuffer => image.objectKeyBuffer.size
  | .objectValueBuffer => image.objectValueBuffer.size
  | .bigIntTable => image.bigInts.size
  | .bigIntStorage => image.bigInts.storage.size
  | .regExpTable => image.regExps.size
  | .regExpStorage => image.regExps.storage.size
  | .cjsModuleTable => image.cjsModules.size
  | .functionSourceTable => image.functionSources.size

-- What a header says about an image, but for the two places that are known last.
structure Describes (header : Header) (image : Image) (version : Option UInt32) : Prop where
  version_eq : header.version = version.getD image.version
  sourceHash_eq : header.sourceHash = image.sourceHash
  globalCodeIndex_eq : header.globalCodeIndex = image.globalCodeIndex
  segmentId_eq : header.segmentId = image.segmentId
  options_eq : header.options = image.options
  counts : ∀ segment : Segment, (segment.count header).toNat = elements image segment

theorem describes_of_header {image : Image} {version : Option UInt32} {header : Header}
    (made : Writer.header image version = .ok header) : Describes header image version := by
  obtain ⟨functions, count1, made⟩ := bind_ok_iff.mp made
  obtain ⟨kinds, count2, made⟩ := bind_ok_iff.mp made
  obtain ⟨identifiers, count3, made⟩ := bind_ok_iff.mp made
  obtain ⟨strings, count4, made⟩ := bind_ok_iff.mp made
  obtain ⟨overflow, count5, made⟩ := bind_ok_iff.mp made
  obtain ⟨storage, count6, made⟩ := bind_ok_iff.mp made
  obtain ⟨bigInts, count7, made⟩ := bind_ok_iff.mp made
  obtain ⟨bigIntStorage, count8, made⟩ := bind_ok_iff.mp made
  obtain ⟨regExps, count9, made⟩ := bind_ok_iff.mp made
  obtain ⟨regExpStorage, count10, made⟩ := bind_ok_iff.mp made
  obtain ⟨arrays, count11, made⟩ := bind_ok_iff.mp made
  obtain ⟨objectKeys, count12, made⟩ := bind_ok_iff.mp made
  obtain ⟨objectValues, count13, made⟩ := bind_ok_iff.mp made
  obtain ⟨modules, count14, made⟩ := bind_ok_iff.mp made
  obtain ⟨sources, count15, made⟩ := bind_ok_iff.mp made
  cases made
  refine ⟨rfl, rfl, rfl, rfl, rfl, ?_⟩
  intro segment
  cases segment with
  | functionHeaders => exact toNat_of_toWord count1
  | stringKinds => exact toNat_of_toWord count2
  | identifierHashes => exact toNat_of_toWord count3
  | stringTable => exact toNat_of_toWord count4
  | overflowStringTable => exact toNat_of_toWord count5
  | stringStorage => exact toNat_of_toWord count6
  | bigIntTable => exact toNat_of_toWord count7
  | bigIntStorage => exact toNat_of_toWord count8
  | regExpTable => exact toNat_of_toWord count9
  | regExpStorage => exact toNat_of_toWord count10
  | arrayBuffer => exact toNat_of_toWord count11
  | objectKeyBuffer => exact toNat_of_toWord count12
  | objectValueBuffer => exact toNat_of_toWord count13
  | cjsModuleTable => exact toNat_of_toWord count14
  | functionSourceTable => exact toNat_of_toWord count15

theorem size_segment {image : Image} {header : Header} {placements : List Placement}
    (counts : ∀ segment : Segment, (segment.count header).toNat = elements image segment)
    (all : placements.length = image.functions.size) (segment : Segment) :
    (Writer.segment image placements segment).size = segment.size header := by
  rw [Segment.size, counts]
  cases segment <;>
    simp [Writer.segment, Schema.size_encodeMany, elements, Segment.stride, OffsetTable.size, all]

-- Where the debug information starts.
def debugOffset (image : Image) (stop : Nat) : Except ImageError UInt32 :=
  if image.debugInfo.isSome then toWord "debug info" stop else .ok 0

-- The digest follows everything else.
def signed (out : ByteArray) : ByteArray := out ++ (Digest.of out).bytes

end Writer

theorem Image.write_eq (image : Image) (version : Option UInt32) :
    image.write version = (do
      let header ← Writer.header image version
      let table ← SegmentTable.ofHeader header
      let planned ← Placement.plan image table.codeStart
      let debugInfoOffset ← Writer.debugOffset image planned.2
      let fileLength ← toWord "file" (planned.2 + (image.debugInfo.getD ByteArray.empty).size + digestSize)
      return Writer.signed (Writer.contents image { header with debugInfoOffset, fileLength } planned.1)) := by
  unfold Image.write Writer.debugOffset
  cases image.debugInfo with
  | none => rfl
  | some info => rfl

-- All places of a file.
structure FilePlan where
  header : Header
  table : SegmentTable
  -- The functions before their trailers are placed, and the bodies that they add.
  base : List Placement
  entries : List Entry
  bodyEnd : Nat
  placements : List Placement
  stop : Nat

namespace FilePlan

-- Everything before the digest.
def contents (plan : FilePlan) (image : Image) : ByteArray := Writer.contents image plan.header plan.placements

-- The plan that writing an image follows.
structure Serves (plan : FilePlan) (image : Image) (version : Option UInt32) : Prop where
  made : Writer.header image version = .ok { plan.header with debugInfoOffset := 0, fileLength := 0 }
  segments : SegmentTable.ofHeader plan.header = .ok plan.table
  placing : Placing image (fun _ => none) plan.table.codeStart image.functions.toList plan.base plan.entries plan.bodyEnd
  settled : Placement.settle (align4 plan.bodyEnd) (plan.base.map Placement.mark) = .ok (plan.placements, plan.stop)
  debug : Writer.debugOffset image plan.stop = .ok plan.header.debugInfoOffset
  length : toWord "file" (plan.stop + (image.debugInfo.getD ByteArray.empty).size + digestSize) =
    .ok plan.header.fileLength

end FilePlan

theorem placeBodies_start_exact {image : Image} {functions : List Func} {codeStart bodyEnd : Nat} {base : List Placement} :
    Placement.placeBodies image functions 0 codeStart (Array.replicate image.bodies.size none) = .ok (base, bodyEnd) ↔
      ∃ entries, Placing image (fun _ => none) codeStart functions base entries bodyEnd := by
  have nothing : knownIn (Array.replicate image.bodies.size none) = fun _ => none := by
    funext id
    rw [knownIn, Array.getElem?_replicate]
    split <;> rfl
  rw [← nothing]
  exact placeBodies_exact Array.size_replicate

theorem Placement.plan_exact {image : Image} {codeStart stop : Nat} {placements : List Placement} :
    plan image codeStart = .ok (placements, stop) ↔ ∃ base entries bodyEnd,
      Placing image (fun _ => none) codeStart image.functions.toList base entries bodyEnd ∧
        settle (align4 bodyEnd) (base.map mark) = .ok (placements, stop) := by
  rw [plan, bind_ok_iff]
  constructor
  · rintro ⟨⟨base, bodyEnd⟩, placed, settled⟩
    obtain ⟨entries, placing⟩ := placeBodies_start_exact.mp placed
    exact ⟨base, entries, bodyEnd, placing, settled⟩
  · rintro ⟨base, entries, bodyEnd, placing, settled⟩
    exact ⟨(base, bodyEnd), placeBodies_start_exact.mpr ⟨entries, placing⟩, settled⟩

theorem Writer.header_places {image : Image} {version : Option UInt32} {header : Header}
    (made : Writer.header image version = .ok header) :
    header = { header with debugInfoOffset := 0, fileLength := 0 } := by
  unfold Writer.header at made
  simp only [bind_ok_iff, pure_eq_ok, Except.ok.injEq] at made
  obtain ⟨_, -, _, -, _, -, _, -, _, -, _, -, _, -, _, -, _, -, _, -, _, -, _, -, _, -, _, -, _, -, rfl⟩ := made
  rfl

theorem Image.write_exact {image : Image} {version : Option UInt32} {file : ByteArray} :
    image.write version = .ok file ↔ ∃ plan : FilePlan, plan.Serves image version ∧ file = Writer.signed (plan.contents image) := by
  rw [Image.write_eq, bind_ok_iff]
  constructor
  · rintro ⟨header, made, more⟩
    obtain ⟨table, segments, more⟩ := bind_ok_iff.mp more
    obtain ⟨⟨placements, stop⟩, planned, more⟩ := bind_ok_iff.mp more
    obtain ⟨debugInfoOffset, debug, more⟩ := bind_ok_iff.mp more
    obtain ⟨fileLength, length, done⟩ := bind_ok_iff.mp more
    obtain ⟨base, entries, bodyEnd, placing, settled⟩ := Placement.plan_exact.mp planned
    cases done
    refine ⟨⟨{ header with debugInfoOffset, fileLength }, table, base, entries, bodyEnd, placements, stop⟩, ?_, rfl⟩
    refine ⟨?_, ?_, placing, settled, debug, length⟩
    · rw [made]
      exact congrArg Except.ok (Writer.header_places made)
    · rw [← segments]
      exact SegmentTable.ofHeader_congr (Segment.size_update header debugInfoOffset fileLength)
  · rintro ⟨plan, ⟨made, segments, placing, settled, debug, length⟩, rfl⟩
    refine ⟨_, made, bind_ok_iff.mpr ⟨plan.table, ?_, bind_ok_iff.mpr ⟨(plan.placements, plan.stop),
      Placement.plan_exact.mpr ⟨_, _, _, placing, settled⟩, bind_ok_iff.mpr ⟨_, debug, bind_ok_iff.mpr ⟨_, length, rfl⟩⟩⟩⟩⟩
    rw [← segments]
    exact SegmentTable.ofHeader_congr (Segment.size_update plan.header 0 0)

namespace FilePlan

-- What stands where in the bytes before the digest.
structure Filled (plan : FilePlan) (image : Image) (out : ByteArray) : Prop where
  size : out.size = plan.stop + (image.debugInfo.getD ByteArray.empty).size
  header : Holds out 0 plan.header.encode
  segments : ∀ p ∈ plan.table.placed, Holds out p.offset (Writer.segment image plan.placements p.segment)
  bodies : ∀ e ∈ plan.entries, Holds out e.start.toNat (Writer.bodyBytes e.start.toNat e.body)
  gap : Holds out plan.bodyEnd (zeros (align4 plan.bodyEnd - plan.bodyEnd))
  trailers : ∀ pair ∈ image.functions.toList.zip plan.placements,
    align4 plan.bodyEnd ≤ pair.2.header.infoOffset.toNat ∧
      Holds out pair.2.header.infoOffset.toNat (Writer.trailerBytes pair.1 pair.2.header)
  debugInfo : Holds out plan.stop (image.debugInfo.getD ByteArray.empty)

variable {plan : FilePlan} {image : Image} {version : Option UInt32}

namespace Serves

theorem describes (serves : plan.Serves image version) : Writer.Describes plan.header image version := by
  obtain ⟨a, b, c, d, e, counts⟩ := Writer.describes_of_header serves.made
  exact ⟨a, b, c, d, e, fun segment => by rw [← counts segment]; cases segment <;> rfl⟩

theorem map_base (serves : plan.Serves image version) :
    plan.placements.map Placement.base = plan.base.map Placement.base := Placement.map_base_of_settle serves.settled

theorem bodies_eq (serves : plan.Serves image version) :
    plan.placements.filterMap (·.body) = plan.entries.map Entry.body := by
  have same := congrArg (List.filterMap fun p : Placement => p.body) serves.map_base
  rw [List.filterMap_map, List.filterMap_map] at same
  exact same.trans serves.placing.bodies

-- What settling leaves of the header of each function.
theorem each (serves : plan.Serves image version) :
    List.Forall₂ (fun func (p : Placement) => ∃ e ∈ plan.entries, e.id = func.body ∧
      p.base.header = placedHeader func e.start e.body ∧ p.trailerSize = Placement.sizeOfTrailer func)
      image.functions.toList plan.placements := serves.placing.each_of_base serves.map_base

theorem matching (serves : plan.Serves image version) :
    Writer.Matching image.functions.toList plan.placements := by
  refine serves.each.imp ?_
  rintro func p ⟨e, -, -, -, size⟩
  exact size

theorem length_placements (serves : plan.Serves image version) : plan.placements.length = image.functions.size := by
  rw [← serves.each.length_eq, Array.length_toList]

theorem filled (serves : plan.Serves image version) : plan.Filled image (plan.contents image) := by
  have sizes := Writer.size_segment serves.describes.counts serves.length_placements
  obtain ⟨segmentsEnd, headerFirst, segmentsHeld⟩ := SegmentTable.holds_of_place
    (SegmentTable.ofHeader_ok_iff.mp serves.segments) (fun s _ => sizes s) (Header.size_encode plan.header)
  obtain ⟨bodiesEnd, segmentsFirst, bodiesHeld⟩ := Writer.holds_bodies serves.placing.laid segmentsEnd
  rw [← serves.bodies_eq] at bodiesEnd segmentsFirst bodiesHeld
  have paddedEnd := (size_padded _).trans (congrArg align4 bodiesEnd)
  obtain ⟨trailersEnd, bodiesFirst, trailersHeld⟩ := Writer.holds_trailers
    (Placement.settle_spec serves.settled).1 serves.matching paddedEnd
  -- Each part is a prefix of what follows it.
  have inner := (bodiesFirst.inside_front (Holds.prefix_append _ _)).append_left (image.debugInfo.getD ByteArray.empty)
  have zeroPart := (bodiesFirst.inside_front (Holds.suffix_append _ _)).append_left (image.debugInfo.getD ByteArray.empty)
  have segments := inner.inside_front segmentsFirst
  rw [bodiesEnd] at zeroPart
  refine ⟨?_, segments.inside_front headerFirst, fun p member => segments.inside_front (segmentsHeld p member),
    fun e member => inner.inside_front (bodiesHeld e member), zeroPart, ?_, ?_⟩
  · rw [contents, Writer.contents, ByteArray.size_append, trailersEnd]
  · intro pair member
    obtain ⟨low, held⟩ := trailersHeld pair member
    exact ⟨low, held.append_left _⟩
  · rw [contents, Writer.contents, ← trailersEnd]
    exact Holds.suffix_append ..

theorem codeStart_le (serves : plan.Serves image version) :
    headerSize ≤ plan.table.codeStart ∧ plan.table.codeStart ≤ plan.bodyEnd ∧ plan.bodyEnd ≤ align4 plan.bodyEnd ∧
      align4 plan.bodyEnd ≤ plan.stop :=
  ⟨(SegmentTable.codeStart_bounds serves.segments).1, serves.placing.laid.le_stop, le_align4 _,
    Placement.placeTrailers_le (Placement.settle_spec serves.settled).1⟩

theorem size_contents (serves : plan.Serves image version) :
    (plan.contents image).size + digestSize = plan.header.fileLength.toNat := by
  rw [toNat_of_toWord serves.length, serves.filled.size]

-- Where each function and its trailer are.
theorem located (serves : plan.Serves image version) :
    List.Forall₂ (fun func (p : Placement) => p.settled = true ∧
      (∃ e ∈ plan.entries, e.id = func.body ∧ p.base.header = placedHeader func e.start e.body) ∧
      align4 plan.bodyEnd ≤ p.header.infoOffset.toNat ∧
      Holds (plan.contents image) p.header.infoOffset.toNat (Writer.trailerBytes func p.header))
      image.functions.toList plan.placements := by
  have all := (Placement.settle_spec serves.settled).2.1
  obtain ⟨length, each⟩ := List.forall₂_iff_zip.mp serves.each
  refine List.forall₂_iff_zip.mpr ⟨length, ?_⟩
  intro func p member
  obtain ⟨e, inside, id, header, -⟩ := each member
  exact ⟨List.all_eq_true.mp all p (List.of_mem_zip member).2, ⟨e, inside, id, header⟩,
    serves.filled.trailers (func, p) member⟩

end Serves

-- The keys that the headers of a written file name, in order.
def keys (plan : FilePlan) : List BodyKey := (merged plan.entries).map Entry.key

-- The functions and bodies that are read from a written file.
def functionsBack (plan : FilePlan) (image : Image) : List Func :=
  List.zipWith (fun func p =>
    ⟨p.header.stored, (plan.keys.idxOf (Reader.bodyKey p.header)).toUInt32, func.handlers, func.debug⟩)
    image.functions.toList plan.placements

def bodiesBack (plan : FilePlan) : List Body := readBack (align4 plan.bodyEnd) (merged plan.entries)

-- The headers that are read from a written file.
def headersBack (plan : FilePlan) : List FunctionHeader := plan.placements.map fun p => p.header.stored

@[simp]
theorem bodyKey_stored (header : FunctionHeader) : Reader.bodyKey header.stored = Reader.bodyKey header := by
  unfold FunctionHeader.stored
  split <;> rfl

theorem Serves.bodyKeys_eq (serves : plan.Serves image version) : Reader.bodyKeys plan.headersBack = plan.keys := by
  have ofBase : plan.headersBack.map Reader.bodyKey = plan.base.map fun p => Reader.bodyKey p.header := by
    have same := congrArg (List.map fun p : Placement => Reader.bodyKey p.header) serves.map_base
    rw [List.map_map, List.map_map] at same
    rw [headersBack, List.map_map]
    refine Eq.trans ?_ same
    exact List.map_congr_left fun p _ => bodyKey_stored p.header
  rw [Reader.bodyKeys_eq, ofBase, serves.placing.keys (fun id start body known => by cases known),
    foldl_addKey_merged serves.placing.laid (fun e _ => List.not_mem_nil)]
  rfl

theorem Serves.bodyStops_eq (serves : plan.Serves image version) :
    Reader.bodyStops plan.headersBack = spaces (align4 plan.bodyEnd) (merged plan.entries) := by
  have keys := serves.bodyKeys_eq
  cases first : plan.placements with
  | nil =>
    have none : plan.keys = [] := by rw [← keys, headersBack, first]; rfl
    rw [headersBack, first, List.map_eq_nil_iff.mp none]
    rfl
  | cons p rest =>
    obtain ⟨bound, later, -, head⟩ := Placement.placeTrailers_cons_ok.mp
      (first ▸ (Placement.settle_spec serves.settled).1)
    have info : p.header.stored.infoOffset.toNat = align4 plan.bodyEnd := by
      have offset : p.header.infoOffset = (align4 plan.bodyEnd).toUInt32 := by
        rw [(List.cons.inj head).1]
      have stored : p.header.stored.infoOffset = p.header.infoOffset := by
        unfold FunctionHeader.stored
        split <;> rfl
      rw [stored, offset, toNat_toUInt32_of_lt bound]
    have members : Reader.bodyKey p.header.stored ∈ plan.keys := by
      rw [← keys, Reader.bodyKeys_eq, headersBack, first]
      exact mem_foldl_addKey (by simp)
    have unfolded : Reader.bodyStops plan.headersBack =
        (plan.keys.drop 1).map (fun key => key.1.toNat) ++ [align4 plan.bodyEnd] := by
      rw [← keys, headersBack, first, List.map_cons, Reader.bodyStops, info]
    rw [unfolded]
    cases entries : merged plan.entries with
    | nil => rw [FilePlan.keys, entries] at members; cases members
    | cons e others => rw [spaces_cons, FilePlan.keys, entries]; rfl

section Reading

variable {region : Region}

theorem Serves.resolve_of_covers (serves : plan.Serves image version)
    (covers : region.Covers (plan.contents image) plan.table.codeStart) :
    (plan.placements.map Writer.smallRecord).mapM (Reader.resolveHeader region) = .ok plan.headersBack := by
  have bounds := serves.codeStart_le
  rw [mapM_ok_iff, headersBack, List.forall₂_map_left_iff, List.forall₂_map_right_iff, List.forall₂_same]
  intro p member
  obtain ⟨func, -, -, -, low, held⟩ := exists_of_forall₂_right serves.located p member
  exact Reader.resolveHeader_smallRecord (covers _ _ (by omega) held)

theorem Serves.readTrailer_of_covers (serves : plan.Serves image version)
    (covers : region.Covers (plan.contents image) plan.table.codeStart) :
    List.Forall₂ (fun func (p : Placement) =>
      Reader.readTrailer region p.header.stored = .ok (func.handlers, func.debug))
      image.functions.toList plan.placements := by
  have bounds := serves.codeStart_le
  refine serves.located.imp ?_
  rintro func p ⟨-, ⟨e, -, -, header⟩, low, held⟩
  have handlerFlag : p.header.hasExceptionHandler = func.handlers.isSome :=
    congrArg FunctionHeader.hasExceptionHandler header
  have debugFlag : p.header.hasDebugInfo = func.debug.isSome := congrArg FunctionHeader.hasDebugInfo header
  rw [Reader.readTrailer_stored]
  apply Reader.readTrailer_of_has (covers _ _ (by omega) held) handlerFlag debugFlag
  -- A file has no room for more handlers than a word can count.
  intro handlers present
  have room := held.1
  have file := serves.size_contents
  have limit := plan.header.fileLength.toNat_lt
  rw [Writer.trailerBytes, present, Option.map_some, Option.getD_some, ByteArray.size_append, ByteArray.size_append,
    size_wordBytes, Writer.length_handlerWords] at room
  omega

theorem Serves.assemble_of_covers (serves : plan.Serves image version)
    (covers : region.Covers (plan.contents image) plan.table.codeStart) :
    Reader.assemble region plan.headersBack = .ok ((plan.functionsBack image).toArray, plan.bodiesBack.toArray) := by
  have bounds := serves.codeStart_le
  have laid := serves.placing.laid.merged
  rw [Reader.assemble_exact, serves.bodyKeys_eq, serves.bodyStops_eq]
  constructor
  · apply Reader.stored_readBack laid
    · intro e member
      exact covers _ _ (laid.bounds e member).1 (serves.filled.bodies e (mem_of_mem_merged member))
    · exact covers _ _ bounds.2.1 serves.filled.gap
  · apply forall₂_zipWith (serves.readTrailer_of_covers covers)
    intro func p read
    refine ⟨(func.handlers, func.debug), read, ?_⟩
    rw [bodyKey_stored]

theorem Serves.debugInfo_of_covers (serves : plan.Serves image version)
    (covers : region.Covers (plan.contents image) plan.table.codeStart) {tables : Tables}
    (header : tables.header = plan.header) (start : tables.codeStart = plan.table.codeStart) :
    Reader.readDebugInfo region tables.header.debugInfoOffset.toNat tables.bodyStop = .ok image.debugInfo := by
  obtain ⟨high, low, above, last⟩ := serves.codeStart_le
  have size := serves.filled.size
  have length := serves.size_contents
  have stop : tables.bodyStop = plan.stop + (image.debugInfo.getD ByteArray.empty).size := by
    rw [Tables.bodyStop, header, start, ← length]
    omega
  have offset := serves.debug
  rw [stop, header, Reader.readDebugInfo]
  cases found : image.debugInfo with
  | none =>
    rw [Writer.debugOffset, found, Option.isSome_none, if_neg Bool.false_ne_true] at offset
    rw [← Except.ok.inj offset]
    rfl
  | some info =>
    rw [Writer.debugOffset, found, Option.isSome_some, if_pos rfl] at offset
    have held := serves.filled.debugInfo
    rw [found, Option.getD_some] at held
    unfold headerSize at high
    rw [toNat_of_toWord offset, if_neg (by omega), if_neg (by omega), Option.getD_some, Nat.add_sub_cancel_left,
      (covers _ _ (by omega) held).slice]
    rfl

-- Whatever covers the bodies, the trailers and the debug information is enough to complete the tables.
theorem Serves.finish_of_covers (serves : plan.Serves image version)
    (covers : region.Covers (plan.contents image) plan.table.codeStart) {tables : Tables}
    (header : tables.header = plan.header) (start : tables.codeStart = plan.table.codeStart)
    (headers : tables.headers = (plan.placements.map Writer.smallRecord).toArray) :
    tables.finish region =
      .ok (tables.imageWith (plan.functionsBack image).toArray plan.bodiesBack.toArray image.debugInfo) := by
  refine Tables.finish_exact.mpr ⟨plan.headersBack, _, _, _, ?_, serves.assemble_of_covers covers,
    serves.debugInfo_of_covers covers header start, rfl⟩
  rw [headers]
  exact serves.resolve_of_covers covers

end Reading
end FilePlan
end CodeImage
