import CodeImage.Proofs.Parsed

namespace CodeImage

@[simp]
theorem Writer.size_signed (out : ByteArray) : (Writer.signed out).size = out.size + digestSize := by
  rw [Writer.signed, ByteArray.size_append, (Digest.of out).size_bytes]

theorem Writer.holds_signed (out : ByteArray) : Holds (Writer.signed out) 0 out := Holds.prefix_append ..

theorem checkDigest_signed (out : ByteArray) : checkDigest (Writer.signed out) = .ok () := by
  have front := (Writer.holds_signed out).extract
  have back := (Holds.suffix_append out (Digest.of out).bytes).extract
  rw [(Digest.of out).size_bytes, ← Writer.signed] at back
  rw [Nat.zero_add] at front
  rw [checkDigest, Writer.size_signed, if_neg (by omega), Nat.add_sub_cancel]
  simp only
  rw [front, back, if_pos rfl]

namespace FilePlan

variable {plan : FilePlan} {image : Image} {version : Option UInt32}

-- The tables that are read from a written file.
def tables (plan : FilePlan) (image : Image) : Tables :=
  { header := plan.header, codeStart := plan.table.codeStart
    headers := (plan.placements.map Writer.smallRecord).toArray
    strings := image.strings, identifierHashes := image.identifierHashes
    bigInts := image.bigInts, regExps := image.regExps
    arrayBuffer := image.arrayBuffer, objectKeyBuffer := image.objectKeyBuffer
    objectValueBuffer := image.objectValueBuffer
    cjsModules := image.cjsModules, functionSources := image.functionSources }

-- The image that is read from a written file.
def reread (plan : FilePlan) (image : Image) : Image :=
  (plan.tables image).imageWith (plan.functionsBack image).toArray plan.bodiesBack.toArray image.debugInfo

theorem Serves.headers_read (serves : plan.Serves image version) :
    Schema.smallHeader.parseMany (Writer.segment image plan.placements .functionHeaders) =
      .ok (plan.placements.map Writer.smallRecord).toArray := by
  apply Schema.parseMany_encodeMany_of_fits Schema.smallHeader_lawful (by simp)
  intro record member
  obtain ⟨p, inside, rfl⟩ := List.mem_map.mp (List.mem_toArray.mp member)
  have all := (Placement.settle_spec serves.settled).2.1
  exact Writer.smallRecord_fits (List.all_eq_true.mp all p inside)

-- The segments take at most 2^32 bytes, so a word counts the strings.
theorem Serves.size_strings (serves : plan.Serves image version) : image.strings.entries.size < 2 ^ 30 := by
  have size := SegmentTable.size_lt serves.segments .stringTable
  rw [Segment.size, serves.describes.counts, Writer.elements, StringTable.encode_eq] at size
  simp only [List.size_toArray, StringTable.length_slotsFrom, Array.length_toList, Segment.stride] at size
  omega

theorem Serves.strings_read (serves : plan.Serves image version) (good : image.Readable)
    (few : image.strings.overflowCount ≤ 0x800000) :
    ∃ slots overflow kinds,
      Schema.stringSlot.parseMany (Writer.segment image plan.placements .stringTable) = .ok slots ∧
      Schema.extent.parseMany (Writer.segment image plan.placements .overflowStringTable) = .ok overflow ∧
      Schema.kindRun.parseMany (Writer.segment image plan.placements .stringKinds) = .ok kinds ∧
      StringTable.ofRecords image.strings.storage slots overflow kinds = .ok image.strings := by
  have count : image.strings.size < 2 ^ 30 := serves.size_strings
  have full := good.kinds
  exact ⟨_, _, _, StringTable.slots_read few, Schema.extents_read _, StringTable.kindRuns_read (by omega),
    StringTable.ofRecords_encode good.strings full (by omega) (by omega)⟩

theorem Serves.decoded (serves : plan.Serves image version) (good : image.WellFormed)
    (few : image.strings.overflowCount ≤ 0x800000) :
    (plan.tables image).Decoded plan.header plan.table.codeStart (Writer.segment image plan.placements) := by
  refine ⟨rfl, rfl, serves.strings_read good.toReadable few, ⟨_, Schema.extents_read _, ?_⟩,
    ⟨_, Schema.extents_read _, ?_⟩, ?_, serves.headers_read, Schema.extents_read _, ?_, rfl, rfl, rfl⟩
  · exact OffsetTable.build_exact.mpr ⟨rfl, good.bigInts⟩
  · exact OffsetTable.build_exact.mpr ⟨rfl, good.regExps⟩
  · exact Schema.parseMany_encodeMany_of_fits Schema.identifierHash_lawful (by simp) fun record _ =>
      Schema.identifierHash_fits record
  · exact Schema.parseMany_encodeMany_of_fits Schema.functionSource_lawful (by simp) fun record _ =>
      Schema.functionSource_fits record

theorem Serves.header_read (serves : plan.Serves image version) :
    Header.parse (Writer.signed (plan.contents image)) = .ok plan.header :=
  Header.parse_of_holds ((Writer.holds_signed _).inside_front serves.filled.header)

theorem Serves.size_file (serves : plan.Serves image version) :
    (Writer.signed (plan.contents image)).size = plan.header.fileLength.toNat := by
  rw [Writer.size_signed, serves.size_contents]

theorem Serves.covers (serves : plan.Serves image version) (start : Nat) :
    (Region.window (Writer.signed (plan.contents image)) 0 plan.header.fileLength.toNat).Covers (plan.contents image)
      start := by
  have length := serves.size_contents
  exact Region.window_covers (Writer.holds_signed _) (Nat.zero_le _) (by omega)

theorem Serves.segments_read (serves : plan.Serves image version) :
    (plan.table.placed.mapM fun p => (Region.window (Writer.signed (plan.contents image)) 0
        plan.header.fileLength.toNat).slice p.offset p.size) =
      .ok (plan.table.placed.map fun p => Writer.segment image plan.placements p.segment) := by
  have made := SegmentTable.ofHeader_ok_iff.mp serves.segments
  have sizes := Writer.size_segment serves.describes.counts serves.length_placements
  apply mapM_ok_of_forall
  intro p member
  have has := serves.covers 0 _ _ (Nat.zero_le _) (serves.filled.segments p member)
  rw [SegmentTable.size_of_mem_place made p member, ← sizes]
  exact has.slice

theorem Serves.parse_signed (serves : plan.Serves image version) (good : image.WellFormed)
    (few : image.strings.overflowCount ≤ 0x800000) (options : ReadOptions) :
    Image.parse (Writer.signed (plan.contents image)) options = .ok (plan.reread image) := by
  have length := serves.size_contents
  have size := serves.size_file
  have bounds := serves.codeStart_le
  have contents := serves.filled.size
  refine Image.parse_exact.mpr ⟨plan.header, plan.table, plan.tables image, serves.header_read, ?_,
    Nat.le_of_eq size.symm, ?_, serves.segments, ⟨_, serves.segments_read, ?_⟩, ?_⟩
  · omega
  · intro _
    rw [← size, ByteArray.extract_zero_size, checkDigest_signed]
  · rw [SegmentTable.named_map serves.segments]
    exact Tables.decode_exact.mpr (serves.decoded good few)
  · exact serves.finish_of_covers (serves.covers _) rfl rfl rfl

-- However a written file is read, the tables come from the segments as they were written.
theorem Serves.tables_of_parse (serves : plan.Serves image version) {options : ReadOptions} {back : Image}
    (parsed : Image.parse (Writer.signed (plan.contents image)) options = .ok back) :
    ∃ tables : Tables, tables.Decoded plan.header plan.table.codeStart (Writer.segment image plan.placements) ∧
      tables.finish (Region.window (Writer.signed (plan.contents image)) 0 plan.header.fileLength.toNat) = .ok back := by
  obtain ⟨header, table, tables, steps⟩ := Image.parse_exact.mp parsed
  obtain rfl : plan.header = header := Except.ok.inj (serves.header_read.symm.trans steps.header_ok)
  obtain rfl : plan.table = table := Except.ok.inj (serves.segments.symm.trans steps.table_ok)
  obtain ⟨parts, read, decoded⟩ := steps.tables_ok
  rw [serves.segments_read, Except.ok.injEq] at read
  rw [← read, SegmentTable.named_map serves.segments] at decoded
  exact ⟨tables, Tables.decode_exact.mp decoded, steps.finished⟩

-- So do the functions and the bodies.
theorem Serves.assembled_reread (serves : plan.Serves image version) {options : ReadOptions} {back : Image}
    (parsed : Image.parse (Writer.signed (plan.contents image)) options = .ok back) :
    back.functions = (plan.functionsBack image).toArray ∧ back.bodies = plan.bodiesBack.toArray := by
  obtain ⟨tables, decoded, finished⟩ := serves.tables_of_parse parsed
  have headers := Except.ok.inj (decoded.headers.symm.trans serves.headers_read)
  rw [serves.finish_of_covers (serves.covers _) decoded.header_eq decoded.codeStart_eq headers, Except.ok.injEq] at finished
  rw [← finished]
  exact ⟨rfl, rfl⟩

theorem Serves.length_keys (serves : plan.Serves image version) : plan.keys.length < 0x100000000 := by
  have keys := length_foldl_addKey_le (plan.headersBack.map Reader.bodyKey) []
  have count := serves.describes.counts .functionHeaders
  have limit := (Segment.count plan.header .functionHeaders).toNat_lt
  rw [← Reader.bodyKeys_eq, serves.bodyKeys_eq, List.length_map, headersBack, List.length_map,
    serves.length_placements] at keys
  rw [Writer.elements] at count
  simp only [List.length_nil, Nat.zero_add] at keys
  omega

theorem Serves.key_mem (serves : plan.Serves image version) {e : Entry} (member : e ∈ plan.entries) :
    e.key ∈ plan.keys := by
  have all := @foldl_addKey_merged _ _ _ serves.placing.laid [] fun e _ => List.not_mem_nil
  rw [List.nil_append] at all
  rw [keys, ← all]
  exact mem_foldl_addKey (List.mem_map_of_mem member)

theorem Serves.toNat_idxOf (serves : plan.Serves image version) {e : Entry} (member : e ∈ plan.entries) :
    (plan.keys.idxOf e.key).toUInt32.toNat = plan.keys.idxOf e.key := by
  have few := serves.length_keys
  have small := List.idxOf_lt_length_of_mem (serves.key_mem member)
  exact toNat_toUInt32_of_lt (by omega)

end FilePlan

-- Only behind the last entry is there room.
theorem getElem?_readBack {offset stop : Nat} {entries : List Entry} (laid : Laid offset entries stop) {i : Nat} {m : Entry}
    (found : entries[i]? = some m) : (readBack (align4 stop) entries)[i]? =
      some (m.body.filled (if i + 1 = entries.length then align4 m.stop - m.stop else 0)) := by
  induction entries generalizing offset i with
  | nil => cases found
  | cons e rest ih =>
    cases i with
    | zero =>
      cases found
      obtain ⟨-, -, later⟩ := laid
      cases rest with
      | nil =>
        obtain rfl : m.stop = stop := later
        rfl
      | cons next rest =>
        have tight : nextStart (align4 stop) (next :: rest) - m.stop = 0 := by rw [nextStart, later.1, Nat.sub_self]
        rw [readBack, tight, if_neg (by simp), List.getElem?_cons_zero]
    | succ i =>
      rw [readBack, List.getElem?_cons_succ, ih laid.2.2 found, List.length_cons]
      simp only [Nat.add_right_cancel_iff]

-- A body whose jump tables take whole words.
def Body.Aligned (body : Body) : Prop := ∀ tables, body.jumpTables = some tables → 0 < tables.size ∧ tables.size % 4 = 0

theorem Entry.filled_of_aligned {e : Entry} {gap : Nat} (aligned : e.body.Aligned) (room : e.stop + gap ≤ align4 e.stop) :
    e.body.filled gap = e.body := by
  have plain : e.body.Plain := fun tables present => (aligned tables present).1
  cases present : e.body.jumpTables with
  | none =>
    rw [Body.filled_of_plain plain, present, Option.map_none, ← present]
  | some tables =>
    have stop : e.stop = align4 (e.start.toNat + e.body.code.size) + tables.size := by
      rw [Entry.stop, Placement.bodyStop, present]
    have whole := align4_mod (e.start.toNat + e.body.code.size)
    have tight : align4 e.stop = e.stop := align4_of_mod (by have := (aligned tables present).2; omega)
    obtain rfl : gap = 0 := by omega
    exact Body.filled_zero plain

namespace FilePlan

variable {plan : FilePlan} {image : Image} {version : Option UInt32}

-- The entry that is kept for a key.
theorem Serves.merged_at (serves : plan.Serves image version) {e : Entry} (member : e ∈ plan.entries) :
    ∃ m ∈ plan.entries, (merged plan.entries)[plan.keys.idxOf e.key]? = some m ∧ m.key = e.key := by
  have named := List.getElem?_idxOf (serves.key_mem member)
  rw [keys, List.getElem?_map] at named
  obtain ⟨m, found, same⟩ := Option.map_eq_some_iff.mp named
  exact ⟨m, mem_of_mem_merged (List.mem_of_getElem? found), found, same⟩

-- The body that is read back for an entry.
theorem Serves.body_back (serves : plan.Serves image version) {e : Entry} (member : e ∈ plan.entries) :
    ∃ body, plan.bodiesBack[plan.keys.idxOf e.key]? = some body ∧ body.code = e.body.code ∧
      (0 < e.body.code.size → e.body.Aligned → body = e.body) := by
  have laid := serves.placing.laid
  obtain ⟨m, old, found, key⟩ := serves.merged_at member
  refine ⟨_, getElem?_readBack laid.merged found, ?_, ?_⟩
  · rw [Body.code_filled]
    rcases laid.eq_of_key old member key with rfl | empty
    · rfl
    · obtain ⟨-, size⟩ := size_eq_of_key (laid.bounds m old).2.2 (laid.bounds e member).2.2 key
      have none : e.body.code.size = 0 := by omega
      rw [ByteArray.size_eq_zero_iff.mp empty, ByteArray.size_eq_zero_iff.mp none]
  · intro some aligned
    rcases laid.eq_of_key old member key with rfl | empty
    · have above := le_align4 m.stop
      apply Entry.filled_of_aligned aligned
      split <;> omega
    · obtain ⟨-, size⟩ := size_eq_of_key (laid.bounds m old).2.2 (laid.bounds e member).2.2 key
      omega

-- A header with small caches comes back as it was placed.
theorem stored_of_base {func : Func} {p : Placement} {start : UInt32} {body : Body}
    (header : p.base.header = placedHeader func start body)
    (caches : func.header.readCacheIndex.toNat ≤ 255 ∧ func.header.writeCacheIndex.toNat ≤ 255) :
    p.header.stored = p.header := by
  have read := congrArg FunctionHeader.readCacheIndex header
  have write := congrArg FunctionHeader.writeCacheIndex header
  change p.header.readCacheIndex = func.header.readCacheIndex at read
  change p.header.writeCacheIndex = func.header.writeCacheIndex at write
  exact FunctionHeader.stored_of_small_caches (by rw [read]; exact caches.1) (by rw [write]; exact caches.2)

-- Each function of a written file beside what is read for it, and the entry that both refer to.
theorem Serves.functions_back (serves : plan.Serves image version) (caches : image.SmallCaches) :
    List.Forall₂ (fun func back => ∃ e ∈ plan.entries, ∃ infoOffset overflowed, e.id = func.body ∧
      back = (⟨{ placedHeader func e.start e.body with infoOffset, overflowed },
        (plan.keys.idxOf e.key).toUInt32, func.handlers, func.debug⟩ : Func))
      image.functions.toList (plan.functionsBack image) := by
  apply forall₂_zipWith_right serves.located
  rintro func listed p ⟨-, ⟨e, member, id, header⟩, -, -⟩
  have whole : p.header = { placedHeader func e.start e.body with
      infoOffset := p.header.infoOffset, overflowed := p.header.overflowed } := by
    rw [← header]
    rfl
  have stored := stored_of_base header (caches func (Array.mem_toList_iff.mp listed))
  refine ⟨e, member, p.header.infoOffset, p.header.overflowed, id, ?_⟩
  have key : Reader.bodyKey p.header = e.key := congrArg Reader.bodyKey header
  rw [stored, ← whole, key]

end FilePlan

-- What a file keeps of a function: everything but the places that writing computes anew.
structure Func.Restored (image back : Image) (func func' : Func) : Prop where
  paramCount : func'.header.paramCount = func.header.paramCount
  functionName : func'.header.functionName = func.header.functionName
  frameSize : func'.header.frameSize = func.header.frameSize
  environmentSize : func'.header.environmentSize = func.header.environmentSize
  readCacheIndex : func'.header.readCacheIndex = func.header.readCacheIndex
  writeCacheIndex : func'.header.writeCacheIndex = func.header.writeCacheIndex
  prohibitInvoke : func'.header.prohibitInvoke = func.header.prohibitInvoke
  strictMode : func'.header.strictMode = func.header.strictMode
  handlers : func'.handlers = func.handlers
  debug : func'.debug = func.debug
  body : ∃ body body', image.bodies[func.body.toNat]? = some body ∧ back.bodies[func'.body.toNat]? = some body' ∧
    body'.code = body.code ∧ (0 < body.code.size → body.Aligned → body' = body)

-- What a file keeps of an image.
structure Image.Restored (image back : Image) : Prop where
  version : back.version = image.version
  sourceHash : back.sourceHash = image.sourceHash
  globalCodeIndex : back.globalCodeIndex = image.globalCodeIndex
  segmentId : back.segmentId = image.segmentId
  options : back.options = image.options
  strings : back.strings = image.strings
  identifierHashes : back.identifierHashes = image.identifierHashes
  bigInts : back.bigInts = image.bigInts
  regExps : back.regExps = image.regExps
  arrayBuffer : back.arrayBuffer = image.arrayBuffer
  objectKeyBuffer : back.objectKeyBuffer = image.objectKeyBuffer
  objectValueBuffer : back.objectValueBuffer = image.objectValueBuffer
  cjsModules : back.cjsModules = image.cjsModules
  functionSources : back.functionSources = image.functionSources
  debugInfo : back.debugInfo = image.debugInfo
  functions : List.Forall₂ (Func.Restored image back) image.functions.toList back.functions.toList
  -- Functions `i` and `j` share a body again, and functions that have code share one only if they did.
  shared : ∀ (i j : Nat) (a b a' b' : Func), image.functions[i]? = some a → image.functions[j]? = some b →
    back.functions[i]? = some a' → back.functions[j]? = some b' → a.body = b.body → a'.body = b'.body
  apart : ∀ (i j : Nat) (a b a' b' : Func) (body : Body), image.functions[i]? = some a → image.functions[j]? = some b →
    back.functions[i]? = some a' → back.functions[j]? = some b' →
    image.bodies[a.body.toNat]? = some body → 0 < body.code.size → a'.body = b'.body → a.body = b.body

namespace FilePlan

variable {plan : FilePlan} {image : Image}

theorem Serves.restored (serves : plan.Serves image none) (caches : image.SmallCaches) :
    image.Restored (plan.reread image) := by
  have described := serves.describes
  have each := serves.functions_back caches
  -- An entry is known by its number, and by its key unless its code is empty.
  have byId : ∀ e ∈ plan.entries, ∀ e' ∈ plan.entries, e.id = e'.id → e = e' :=
    fun e member e' member' same => List.inj_on_of_nodup_map serves.placing.distinct.1 member member' same
  have entryAt : ∀ (i : Nat) (a a' : Func), image.functions[i]? = some a → (plan.reread image).functions[i]? = some a' →
      ∃ e ∈ plan.entries, e.id = a.body ∧ a'.body = (plan.keys.idxOf e.key).toUInt32 := by
    intro i a a' left right
    rw [← Array.getElem?_toList] at left right
    obtain ⟨e, member, _, _, id, rfl⟩ := getElem?_of_forall₂ each left right
    exact ⟨e, member, id, rfl⟩
  refine ⟨described.version_eq, described.sourceHash_eq, described.globalCodeIndex_eq, described.segmentId_eq,
    described.options_eq, rfl, rfl, rfl, rfl, rfl, rfl, rfl, rfl, rfl, rfl, ?_, ?_, ?_⟩
  · refine each.imp ?_
    rintro func _ ⟨e, member, infoOffset, overflowed, id, rfl⟩
    obtain ⟨body, found, code, same⟩ := serves.body_back member
    refine ⟨rfl, rfl, rfl, rfl, rfl, rfl, rfl, rfl, rfl, rfl, e.body, body, ?_, ?_, code, same⟩
    · rw [← id]
      exact serves.placing.found e member
    · simp only [serves.toNat_idxOf member]
      simpa [reread, Tables.imageWith] using found
  · intro i j a b a' b' left right left' right' same
    obtain ⟨e, member, id, here⟩ := entryAt i a a' left left'
    obtain ⟨e', member', id', here'⟩ := entryAt j b b' right right'
    rw [here, here', byId e member e' member' (by rw [id, id', same])]
  · intro i j a b a' b' body left right left' right' found some same
    obtain ⟨e, member, id, here⟩ := entryAt i a a' left left'
    obtain ⟨e', member', id', here'⟩ := entryAt j b b' right right'
    rw [here, here'] at same
    have indices := congrArg UInt32.toNat same
    rw [serves.toNat_idxOf member, serves.toNat_idxOf member'] at indices
    have key : e.key = e'.key := (List.idxOf_inj (serves.key_mem member)).mp indices
    rw [← id, serves.placing.found e member] at found
    cases found
    rcases serves.placing.laid.eq_of_key member member' key with equal | empty
    · rw [← id, ← id', equal]
    · omega

end FilePlan

-- Two functions that share a body. The second one has too many parameters for the function table, and the string
-- is too long for a slot.
def Image.sample : Image :=
  { functions := #[⟨{ paramCount := 1, strictMode := true }, 0, some [⟨0, 2, 1⟩], none⟩,
      ⟨{ paramCount := 300, readCacheIndex := 255 }, 0, none, some ⟨1, 2, 3⟩⟩]
    bodies := #[⟨⟨#[0, 1, 2]⟩, some ⟨#[4, 0, 0, 0]⟩⟩]
    strings := ⟨zeros 300, #[⟨false, 0, 300⟩], #[.identifier]⟩
    known := #[none]
    identifierHashes := #[17]
    bigInts := ⟨⟨#[1, 0]⟩, #[⟨0, 2⟩]⟩
    debugInfo := some ByteArray.empty }

theorem Image.sample_written : ∃ file, Image.sample.write = .ok file := by
  have done : Image.sample.write.toBool = true := by decide +kernel
  exact exists_of_toBool done

theorem Image.sample_wellFormed : Image.sample.WellFormed :=
  ⟨⟨by unfold StringTable.InStorage; decide +kernel, rfl, rfl⟩, by decide, by unfold OffsetTable.InStorage; decide,
    by unfold OffsetTable.InStorage; decide⟩

theorem Image.sample_few : Image.sample.strings.overflowCount ≤ 2 ^ 23 := by decide

theorem Image.sample_smallCaches : Image.sample.SmallCaches := by unfold SmallCaches; decide

end CodeImage
