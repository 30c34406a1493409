import CodeImage.Proofs.StringTable
import CodeImage.Proofs.Written

namespace CodeImage

-- The contents of each segment, as far as `parts` has them.
def SegmentTable.named (table : SegmentTable) (parts : List ByteArray) (segment : Segment) : ByteArray :=
  (((table.placed.map (·.segment)).zip parts).lookup segment).getD ByteArray.empty

theorem SegmentTable.contents_eq (table : SegmentTable) (region : Region) :
    table.contents region = (table.placed.mapM fun p => region.slice p.offset p.size).map table.named := by
  rw [SegmentTable.contents, mapM_named]
  cases table.placed.mapM fun p => region.slice p.offset p.size with
  | error e => rfl
  | ok parts => rfl

theorem lookup_zip_map {α β : Type} [DecidableEq α] {keys : List α} (f : α → β) {key : α} (member : key ∈ keys) :
    (keys.zip (keys.map f)).lookup key = some (f key) := by
  induction keys with
  | nil => cases member
  | cons first rest ih =>
    rw [List.map_cons, List.zip_cons_cons, List.lookup_cons]
    by_cases same : key = first
    · subst same
      simp
    · rw [beq_false_of_ne same]
      exact ih ((List.mem_cons.mp member).resolve_left same)

-- A table has a place for every segment, so naming gives each segment its own part.
theorem SegmentTable.named_map {header : Header} {table : SegmentTable} (made : ofHeader header = .ok table)
    (part : Segment → ByteArray) : table.named (table.placed.map fun p => part p.segment) = part := by
  funext segment
  have all := map_segment_of_place (ofHeader_ok_iff.mp made)
  have parts : table.placed.map (fun p => part p.segment) = Segment.all.map part := by rw [← all, List.map_map]; rfl
  rw [named, parts, all, lookup_zip_map part segment.mem_all, Option.getD_some]

-- What decoding the segments comes down to.
structure Tables.Decoded (tables : Tables) (header : Header) (codeStart : Nat) (segment : Segment → ByteArray) :
    Prop where
  header_eq : tables.header = header
  codeStart_eq : tables.codeStart = codeStart
  strings : ∃ slots overflow kinds, Schema.stringSlot.parseMany (segment .stringTable) = .ok slots ∧
    Schema.extent.parseMany (segment .overflowStringTable) = .ok overflow ∧
    Schema.kindRun.parseMany (segment .stringKinds) = .ok kinds ∧
    StringTable.ofRecords (segment .stringStorage) slots overflow kinds = .ok tables.strings
  bigInts : ∃ entries, Schema.extent.parseMany (segment .bigIntTable) = .ok entries ∧
    OffsetTable.build "bigint" (segment .bigIntStorage) entries = .ok tables.bigInts
  regExps : ∃ entries, Schema.extent.parseMany (segment .regExpTable) = .ok entries ∧
    OffsetTable.build "regexp" (segment .regExpStorage) entries = .ok tables.regExps
  identifierHashes : Schema.identifierHash.parseMany (segment .identifierHashes) = .ok tables.identifierHashes
  headers : Schema.smallHeader.parseMany (segment .functionHeaders) = .ok tables.headers
  cjsModules : Schema.extent.parseMany (segment .cjsModuleTable) = .ok tables.cjsModules
  functionSources : Schema.functionSource.parseMany (segment .functionSourceTable) = .ok tables.functionSources
  arrayBuffer : tables.arrayBuffer = segment .arrayBuffer
  objectKeyBuffer : tables.objectKeyBuffer = segment .objectKeyBuffer
  objectValueBuffer : tables.objectValueBuffer = segment .objectValueBuffer

theorem Tables.decode_exact {tables : Tables} {header : Header} {codeStart : Nat} {segment : Segment → ByteArray} :
    Tables.decode header codeStart segment = .ok tables ↔ tables.Decoded header codeStart segment := by
  rw [Tables.decode]
  constructor
  · intro done
    obtain ⟨slots, slotsRead, done⟩ := bind_ok_iff.mp done
    obtain ⟨overflow, overflowRead, done⟩ := bind_ok_iff.mp done
    obtain ⟨kinds, kindsRead, done⟩ := bind_ok_iff.mp done
    obtain ⟨strings, stringsMade, done⟩ := bind_ok_iff.mp done
    obtain ⟨bigIntEntries, bigIntsRead, done⟩ := bind_ok_iff.mp done
    obtain ⟨bigInts, bigIntsMade, done⟩ := bind_ok_iff.mp done
    obtain ⟨regExpEntries, regExpsRead, done⟩ := bind_ok_iff.mp done
    obtain ⟨regExps, regExpsMade, done⟩ := bind_ok_iff.mp done
    obtain ⟨identifierHashes, hashesRead, done⟩ := bind_ok_iff.mp done
    obtain ⟨headers, headersRead, done⟩ := bind_ok_iff.mp done
    obtain ⟨cjsModules, modulesRead, done⟩ := bind_ok_iff.mp done
    obtain ⟨functionSources, sourcesRead, done⟩ := bind_ok_iff.mp done
    cases done
    exact ⟨rfl, rfl, ⟨slots, overflow, kinds, slotsRead, overflowRead, kindsRead, stringsMade⟩,
      ⟨bigIntEntries, bigIntsRead, bigIntsMade⟩, ⟨regExpEntries, regExpsRead, regExpsMade⟩, hashesRead, headersRead,
      modulesRead, sourcesRead, rfl, rfl, rfl⟩
  · rintro ⟨rfl, rfl, ⟨slots, overflow, kinds, slotsRead, overflowRead, kindsRead, stringsMade⟩,
      ⟨bigIntEntries, bigIntsRead, bigIntsMade⟩, ⟨regExpEntries, regExpsRead, regExpsMade⟩, hashesRead, headersRead,
      modulesRead, sourcesRead, arrays, keys, values⟩
    rw [slotsRead, ok_bind, overflowRead, ok_bind, kindsRead, ok_bind, stringsMade, ok_bind, bigIntsRead, ok_bind,
      bigIntsMade, ok_bind, regExpsRead, ok_bind, regExpsMade, ok_bind, hashesRead, ok_bind, headersRead, ok_bind,
      modulesRead, ok_bind, sourcesRead, ok_bind, ← arrays, ← keys, ← values]
    rfl

-- What reading a file comes down to.
structure Image.Parsed (data : ByteArray) (options : ReadOptions) (image : Image) (header : Header)
    (table : SegmentTable) (tables : Tables) : Prop where
  header_ok : Header.parse data = .ok header
  long : headerSize + digestSize ≤ header.fileLength.toNat
  present : header.fileLength.toNat ≤ data.size
  digest : options.verifyDigest = true → checkDigest (data.extract 0 header.fileLength.toNat) = .ok ()
  table_ok : SegmentTable.ofHeader header = .ok table
  tables_ok : ∃ parts, (table.placed.mapM fun p =>
      (Region.window data 0 header.fileLength.toNat).slice p.offset p.size) = .ok parts ∧
    Tables.decode header table.codeStart (table.named parts) = .ok tables
  finished : tables.finish (Region.window data 0 header.fileLength.toNat) = .ok image

-- The checks before the segments are looked at.
def Image.accept (data : ByteArray) (options : ReadOptions) (header : Header) : Except ImageError Unit :=
  let length := header.fileLength.toNat
  if length < headerSize + digestSize then .error (.invalidLayout (.fileLength length))
  else if data.size < length then .error (.unexpectedEnd 0 length data.size)
  else if options.verifyDigest then checkDigest (data.extract 0 length)
  else .ok ()

theorem Image.accept_ok_iff {data : ByteArray} {options : ReadOptions} {header : Header} :
    Image.accept data options header = .ok () ↔ headerSize + digestSize ≤ header.fileLength.toNat ∧
      header.fileLength.toNat ≤ data.size ∧
      (options.verifyDigest = true → checkDigest (data.extract 0 header.fileLength.toNat) = .ok ()) := by
  unfold Image.accept
  simp only
  split
  · next short => simp; omega
  · next long =>
    split
    · next short => simp; omega
    · next enough =>
      rw [Nat.not_lt] at long enough
      by_cases asked : options.verifyDigest = true
      · simp [asked, long, enough]
      · simp [asked, long, enough]

theorem Image.parseBody_eq (data : ByteArray) (options : ReadOptions) (header : Header) :
    Image.parseBody data options header = (do
      Image.accept data options header
      let table ← SegmentTable.ofHeader header
      let contents ← table.contents (Region.window data 0 header.fileLength.toNat)
      let tables ← Tables.decode header table.codeStart contents
      tables.finish (Region.window data 0 header.fileLength.toNat)) := by
  unfold Image.parseBody Image.accept
  simp only
  split
  · rfl
  · split
    · rfl
    · by_cases asked : options.verifyDigest = true
      · simp only [asked]
        rfl
      · simp only [asked]
        rfl

theorem Image.parse_exact {data : ByteArray} {options : ReadOptions} {image : Image} :
    Image.parse data options = .ok image ↔ ∃ header table tables, Image.Parsed data options image header table tables := by
  rw [Image.parse, bind_ok_iff]
  simp only [Image.parseBody_eq, SegmentTable.contents_eq]
  constructor
  · rintro ⟨header, parsed, more⟩
    obtain ⟨_, accepted, more⟩ := bind_ok_iff.mp more
    obtain ⟨table, made, more⟩ := bind_ok_iff.mp more
    obtain ⟨contents, sliced, more⟩ := bind_ok_iff.mp more
    obtain ⟨tables, decoded, finished⟩ := bind_ok_iff.mp more
    obtain ⟨long, present, digest⟩ := Image.accept_ok_iff.mp accepted
    obtain ⟨parts, read, rfl⟩ := map_ok_iff.mp sliced
    exact ⟨header, table, tables, parsed, long, present, digest, made, ⟨parts, read, decoded⟩, finished⟩
  · rintro ⟨header, table, tables, parsed, long, present, digest, made, ⟨parts, read, decoded⟩, finished⟩
    refine ⟨header, parsed, bind_ok_iff.mpr ⟨(), Image.accept_ok_iff.mpr ⟨long, present, digest⟩,
      bind_ok_iff.mpr ⟨table, made, bind_ok_iff.mpr ⟨table.named parts, ?_, bind_ok_iff.mpr ⟨tables, decoded, finished⟩⟩⟩⟩⟩
    exact map_ok_iff.mpr ⟨parts, read, rfl⟩

namespace Image

-- Every string lies in its storage, has a kind, and has a place for its text.
structure Readable (image : Image) : Prop where
  strings : image.strings.InStorage
  kinds : image.strings.kinds.size = image.strings.size
  known : image.known.size = image.strings.size

-- References stay inside: those of functions to bodies, and those of entries into their storage.
structure WellFormed (image : Image) : Prop extends image.Readable where
  bodies : ∀ func ∈ image.functions, func.body.toNat < image.bodies.size
  bigInts : image.bigInts.InStorage
  regExps : image.regExps.InStorage

-- The cache indices of every function fit a byte each.
def SmallCaches (image : Image) : Prop :=
  ∀ func ∈ image.functions, func.header.readCacheIndex.toNat ≤ 255 ∧ func.header.writeCacheIndex.toNat ≤ 255

-- No body that a function uses has jump tables that are present but empty.
def PlainTables (image : Image) : Prop :=
  ∀ func ∈ image.functions, ∀ body, image.bodies[func.body.toNat]? = some body → body.Plain

theorem bodyOf_ok_iff {image : Image} {id : UInt32} {body : Body} :
    image.bodyOf id = .ok body ↔
      ∃ func, image.functions[id.toNat]? = some func ∧ image.bodies[func.body.toNat]? = some body := by
  rw [bodyOf, function]
  cases known : image.functions[id.toNat]? with
  | none => simp
  | some func => cases held : image.bodies[func.body.toNat]? <;> simp [held]

end Image

-- The code of a body that was read, and what its space leaves for jump tables.
theorem Reader.readBody_parts {region : Region} {key : BodyKey} {stop : Nat} {body : Body}
    (read : readBody region key stop = .ok body) :
    region.slice key.1.toNat key.2.toNat = .ok body.code ∧
      ((body.jumpTables = none ∧ stop ≤ align4 (key.1.toNat + key.2.toNat)) ∨
        ∃ tables, body.jumpTables = some tables ∧ align4 (key.1.toNat + key.2.toNat) < stop ∧
          region.slice (align4 (key.1.toNat + key.2.toNat)) (stop - align4 (key.1.toNat + key.2.toNat)) = .ok tables) := by
  obtain ⟨code, sliced, more⟩ := bind_ok_iff.mp read
  split at more
  · next room =>
    obtain ⟨tables, rest, done⟩ := bind_ok_iff.mp more
    cases done
    exact ⟨sliced, .inr ⟨tables, rfl, room, rest⟩⟩
  · next tight =>
    cases more
    exact ⟨sliced, .inl ⟨rfl, Nat.le_of_not_lt tight⟩⟩

theorem Reader.plain_of_readBody {region : Region} {key : BodyKey} {stop : Nat} {body : Body}
    (read : readBody region key stop = .ok body) : body.Plain := by
  intro tables present
  rcases (readBody_parts read).2 with ⟨absent, -⟩ | ⟨part, found, room, sliced⟩
  · rw [absent] at present
    cases present
  · cases found.symm.trans present
    rw [(Region.slice_ok_iff.mp sliced).2]
    omega

theorem Reader.caches_of_resolveHeader {region : Region} {record : HeaderRecord} {header : FunctionHeader}
    (small : record.SmallCaches) (resolved : resolveHeader region record = .ok header) :
    header.readCacheIndex.toNat ≤ 255 ∧ header.writeCacheIndex.toNat ≤ 255 := by
  unfold resolveHeader at resolved
  split at resolved
  · obtain ⟨read, write⟩ := FunctionHeader.caches_of_ofRecord resolved
    rw [read, write]
    exact small
  · split at resolved
    · cases resolved
    · next data _ =>
      obtain ⟨inner, made, rfl⟩ := map_ok_iff.mp resolved
      obtain ⟨read, write⟩ := FunctionHeader.caches_of_ofRecord made
      simp only [read, write]
      exact Schema.largeHeader_caches data 0

theorem length_foldl_addKey_le (keys seen : List BodyKey) :
    (keys.foldl addKey seen).length ≤ seen.length + keys.length := by
  induction keys generalizing seen with
  | nil => exact Nat.le_refl _
  | cons key rest ih =>
    have later := ih (addKey seen key)
    have one : (addKey seen key).length ≤ seen.length + 1 := by
      unfold addKey
      split <;> simp
    rw [List.foldl_cons, List.length_cons]
    omega

theorem Schema.size_parseMany {α : Type} {schema : Schema α} {data : ByteArray} {records : Array α}
    (parsed : schema.parseMany data = .ok records) : records.size = data.size / schema.size := by
  unfold parseMany at parsed
  split at parsed
  · cases parsed
    exact Array.size_ofFn
  · cases parsed

theorem Schema.mem_parseMany {α : Type} {schema : Schema α} {data : ByteArray} {records : Array α}
    (parsed : schema.parseMany data = .ok records) {record : α} (member : record ∈ records) :
    ∃ pos, record = schema.decode data pos := by
  unfold parseMany at parsed
  split at parsed
  · cases parsed
    obtain ⟨i, bound, rfl⟩ := Array.mem_iff_getElem.mp member
    exact ⟨_, Array.getElem_ofFn ..⟩
  · cases parsed

-- Parts that a word can measure are segments that a word can measure.
theorem SegmentTable.size_named {table : SegmentTable} {parts : List ByteArray}
    (small : ∀ part ∈ parts, part.size < 0x100000000) (segment : Segment) :
    (table.named parts segment).size < 0x100000000 := by
  unfold named
  cases found : ((table.placed.map (·.segment)).zip parts).lookup segment with
  | none => simp
  | some part =>
    obtain ⟨before, after, split, -⟩ := List.lookup_eq_some_iff.mp found
    have member : (segment, part) ∈ (table.placed.map (·.segment)).zip parts := by rw [split]; simp
    exact small part (List.of_mem_zip member).2

namespace Tables.Decoded

variable {tables : Tables} {header : Header} {codeStart : Nat} {segment : Segment → ByteArray} {region : Region}
  {image : Image}

-- Functions and bodies are far fewer than a word can count.
theorem numbered (decoded : tables.Decoded header codeStart segment) (sizes : ∀ s, (segment s).size < 0x100000000)
    (finished : tables.finish region = .ok image) :
    image.bodies.size ≤ image.functions.size ∧ image.functions.size < 0x10000000 := by
  obtain ⟨headers, functions, bodies, debugInfo, resolved, assembled, -, rfl⟩ := Tables.finish_exact.mp finished
  obtain ⟨stored, each⟩ := (@Reader.assemble_exact _ _ functions.toList bodies.toList).mp assembled
  have keys := length_foldl_addKey_le (headers.map Reader.bodyKey) []
  have bodyCount := stored.length_eq
  have functionCount := each.length_eq
  have count := (mapM_ok_iff.mp resolved).length_eq
  have records := Schema.size_parseMany decoded.headers
  have size := sizes .functionHeaders
  rw [← Reader.bodyKeys_eq, List.length_map, List.length_nil] at keys
  rw [List.length_zip, Reader.length_bodyStops, Nat.min_self] at bodyCount
  rw [Schema.size_smallHeader] at records
  simp only [Array.length_toList] at bodyCount functionCount count
  simp only [Tables.imageWith]
  omega

theorem wellFormed (decoded : tables.Decoded header codeStart segment) (sizes : ∀ s, (segment s).size < 0x100000000)
    (finished : tables.finish region = .ok image) : image.WellFormed ∧ image.SmallCaches ∧ image.PlainTables := by
  have few := decoded.numbered sizes finished
  obtain ⟨headers, functions, bodies, debugInfo, resolved, assembled, -, rfl⟩ := Tables.finish_exact.mp finished
  obtain ⟨stored, each⟩ := (@Reader.assemble_exact _ _ functions.toList bodies.toList).mp assembled
  rw [mapM_ok_iff] at resolved
  have bodyCount : bodies.size = (Reader.bodyKeys headers).length := by
    have count := stored.length_eq
    rw [List.length_zip, Reader.length_bodyStops, Nat.min_self, Array.length_toList] at count
    exact count.symm
  simp only [Tables.imageWith] at few
  -- Each body has a key, and each function names one of the keys.
  have functionFacts : ∀ func ∈ functions, ∃ header ∈ headers, func.header = header ∧ func.body.toNat < bodies.size := by
    intro func member
    obtain ⟨header, inside, trailer, -, rfl⟩ := exists_of_forall₂_right each func (Array.mem_toList_iff.mpr member)
    have named : Reader.bodyKey header ∈ Reader.bodyKeys headers := by
      rw [Reader.bodyKeys_eq]
      exact mem_foldl_addKey (List.mem_map_of_mem inside)
    have index := List.idxOf_lt_length_of_mem named
    refine ⟨header, inside, rfl, ?_⟩
    rw [toNat_toUInt32_of_lt (by omega), bodyCount]
    exact index
  obtain ⟨_, _, _, -, -, -, madeStrings⟩ := decoded.strings
  have readable : (tables.imageWith functions bodies debugInfo).Readable :=
    ⟨StringTable.inStorage_of_ofRecords madeStrings, (StringTable.size_of_ofRecords madeStrings).2.2, Array.size_replicate⟩
  refine ⟨⟨readable, ?_, ?_, ?_⟩, ?_, ?_⟩
  · intro func member
    obtain ⟨header, -, -, inside⟩ := functionFacts func member
    exact inside
  · obtain ⟨_, -, made⟩ := decoded.bigInts
    exact (OffsetTable.build_exact.mp made).2
  · obtain ⟨_, -, made⟩ := decoded.regExps
    exact (OffsetTable.build_exact.mp made).2
  · intro func member
    obtain ⟨header, inside, rfl, -⟩ := functionFacts func member
    obtain ⟨record, listed, found⟩ := exists_of_forall₂_right resolved _ inside
    obtain ⟨pos, rfl⟩ := Schema.mem_parseMany decoded.headers (Array.mem_toList_iff.mp listed)
    exact Reader.caches_of_resolveHeader (Schema.smallHeader_caches _ pos) found
  · intro func _ body found
    have listed : body ∈ bodies.toList := Array.mem_toList_iff.mpr (Array.mem_of_getElem? found)
    obtain ⟨slot, -, read⟩ := exists_of_forall₂_right stored body listed
    exact Reader.plain_of_readBody read

end Tables.Decoded

namespace Image.Parsed

variable {data : ByteArray} {options : ReadOptions} {image : Image} {header : Header} {table : SegmentTable}
  {tables : Tables}

theorem decoded (parsed : Parsed data options image header table tables) :
    ∃ segment : Segment → ByteArray, (∀ s, (segment s).size < 0x100000000) ∧
      tables.Decoded header table.codeStart segment := by
  obtain ⟨parts, read, decoded⟩ := parsed.tables_ok
  refine ⟨table.named parts, SegmentTable.size_named ?_, Tables.decode_exact.mp decoded⟩
  intro part member
  obtain ⟨p, -, sliced⟩ := exists_of_forall₂_right (mapM_ok_iff.mp read) part member
  have limit := header.fileLength.toNat_lt
  have room := (Region.slice_ok_iff.mp sliced).1.2.1
  rw [Region.window, ByteArray.size_extract] at room
  omega

theorem wellFormed (parsed : Parsed data options image header table tables) :
    image.WellFormed ∧ image.SmallCaches ∧ image.PlainTables := by
  obtain ⟨segment, sizes, decoded⟩ := parsed.decoded
  exact decoded.wellFormed sizes parsed.finished

theorem numbered (parsed : Parsed data options image header table tables) :
    image.bodies.size ≤ image.functions.size ∧ image.functions.size < 0x10000000 := by
  obtain ⟨segment, sizes, decoded⟩ := parsed.decoded
  exact decoded.numbered sizes parsed.finished

end Image.Parsed
end CodeImage
