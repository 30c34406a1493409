import CodeImage.Image.Reader
import CodeImage.Proofs.RoundTrip
import CodeImage.Proofs.Interleaving

namespace CodeImage

-- A file as a whole and the stream that brings it answer alike, as long as the range is in both.
theorem window_slice_iff {data part : ByteArray} {stop offset len : Nat} (present : stop ≤ data.size) :
    (Region.window data 0 stop).slice offset len = .ok part ↔
      Fetch.range data (offset, len) = .ok part ∧ offset + len ≤ stop := by
  rw [Region.slice_ok_iff, Fetch.range_ok_iff, slice?_eq_some_iff]
  constructor
  · rintro ⟨has, rfl⟩
    have room := has.2.1
    simp only [Region.window, ByteArray.size_extract] at room
    exact ⟨⟨(Holds.front present).inside_front has.2, rfl⟩, by omega⟩
  · rintro ⟨⟨holds, rfl⟩, room⟩
    exact ⟨Region.has_window holds (Nat.zero_le _) room, rfl⟩

-- The header depends on its own bytes only.
theorem Header.parse_extract {data : ByteArray} (room : headerSize ≤ data.size) :
    parse (data.extract 0 headerSize) = parse data := by
  have front := Holds.front room
  have size : (data.extract 0 headerSize).size = headerSize := by rw [ByteArray.size_extract]; omega
  have word (k : Nat) (inside : k + 4 ≤ headerSize) : wordAt data k = wordAt (data.extract 0 headerSize) k := by
    have same := front.wordAt (size.symm ▸ inside)
    rwa [Nat.zero_add] at same
  have magic : natAt data (0 + 0) 8 = natAt (data.extract 0 headerSize) 0 8 := front.natAt (by rw [size]; decide)
  have hash : data.extract 12 32 = (data.extract 0 headerSize).extract 12 32 := by
    have inner : Holds (data.extract 0 headerSize) 12 ((data.extract 0 headerSize).extract 12 (12 + 20)) :=
      Holds.of_extract (by rw [size]; decide)
    have same := (front.inside_front inner).extract
    rwa [ByteArray.size_extract, size] at same
  have words : (List.range 20).map (fun i => wordAt data (wordsPos + 4 * i)) =
      (List.range 20).map (fun i => wordAt (data.extract 0 headerSize) (wordsPos + 4 * i)) := by
    apply List.map_congr_left
    intro i member
    have inside := List.mem_range.mp member
    exact word _ (by rw [wordsPos, headerSize]; omega)
  rw [parse, parse, size, if_neg (Nat.lt_irrefl _), if_neg (Nat.not_lt.mpr room), magic, word 8 (by decide), hash, words]

namespace Fetch

variable {α : Type} {data : ByteArray} {value : α}

theorem eval_ask_ok_iff {ranges : List (Nat × Nat)} {next : List ByteArray → Fetch α} :
    eval data (.ask ranges next) = .ok value ↔
      ∃ parts, ranges.mapM (range data) = .ok parts ∧ eval data (next parts) = .ok value := by
  rw [eval]
  cases ranges.mapM (range data) with
  | error e => simp
  | ok parts => simp

-- A single range that is there.
theorem eval_ask_one_ok_iff {start len : Nat} {next : List ByteArray → Fetch α} :
    eval data (.ask [(start, len)] next) = .ok value ↔
      start + len ≤ data.size ∧ eval data (next [data.extract start (start + len)]) = .ok value := by
  rw [eval_ask_ok_iff]
  constructor
  · rintro ⟨parts, read, done⟩
    rw [mapM_ok_iff, List.forall₂_cons_left_iff] at read
    obtain ⟨part, rest, first, last, rfl⟩ := read
    rw [List.forall₂_nil_left_iff] at last
    rw [range_ok_iff, slice?_eq_some_iff] at first
    obtain ⟨holds, rfl⟩ := first
    rw [holds.extract, ← last]
    exact ⟨holds.1, done⟩
  · rintro ⟨room, done⟩
    refine ⟨_, mapM_ok_iff.mpr (.cons (range_ok_iff.mpr ?_) .nil), done⟩
    rw [slice?, if_pos room]

end Fetch

namespace Image

-- What reading an image from a stream comes down to.
structure Streamed (data : ByteArray) (options : ReadOptions) (image : Image) (header : Header) (table : SegmentTable)
    (tables : Tables) : Prop where
  header_ok : Header.parse data = .ok header
  long : headerSize + digestSize ≤ header.fileLength.toNat
  table_ok : SegmentTable.ofHeader header = .ok table
  tables_ok : ∃ parts, (table.placed.mapM fun p => Fetch.range data (p.offset, p.size)) = .ok parts ∧
    Tables.decode header table.codeStart (table.named parts) = .ok tables
  present : tables.bodyStop ≤ data.size
  digest : options.verifyDigest = true →
    header.fileLength.toNat ≤ data.size ∧ checkDigest (data.extract 0 header.fileLength.toNat) = .ok ()
  finished : tables.finish (Region.window data tables.codeStart tables.bodyStop) = .ok image

theorem fetchBody_exact {data : ByteArray} {options : ReadOptions} {tables : Tables} {image : Image} :
    (fetchBody options tables).eval data = .ok image ↔
      tables.bodyStop ≤ data.size ∧
      (options.verifyDigest = true → tables.header.fileLength.toNat ≤ data.size ∧
        checkDigest (data.extract 0 tables.header.fileLength.toNat) = .ok ()) ∧
      tables.finish (Region.window data tables.codeStart tables.bodyStop) = .ok image := by
  have ordered : tables.codeStart + (tables.bodyStop - tables.codeStart) = tables.bodyStop :=
    Nat.add_sub_cancel' (Nat.le_max_right _ _)
  rw [fetchBody, Fetch.eval_ask_one_ok_iff, ordered]
  simp only [List.headD_cons]
  by_cases asked : options.verifyDigest = true
  · simp only [asked, if_true, forall_const, Fetch.eval_ask_one_ok_iff, Nat.zero_add, List.headD_cons]
    cases checkDigest (data.extract 0 tables.header.fileLength.toNat) with
    | error e => simp [Fetch.eval]
    | ok _ => simp [Fetch.eval, Region.window]
  · simp [asked, Fetch.eval, Region.window]

theorem fetchSegments_exact {data : ByteArray} {options : ReadOptions} {header : Header} {image : Image} :
    (fetchSegments options header).eval data = .ok image ↔
      headerSize + digestSize ≤ header.fileLength.toNat ∧ ∃ table, SegmentTable.ofHeader header = .ok table ∧
        ∃ parts, (table.placed.mapM fun p => Fetch.range data (p.offset, p.size)) = .ok parts ∧
        ∃ tables, Tables.decode header table.codeStart (table.named parts) = .ok tables ∧
          (fetchBody options tables).eval data = .ok image := by
  rw [fetchSegments]
  simp only
  split
  · next short => simp [Fetch.eval]; omega
  · next long =>
    rw [Nat.not_lt] at long
    cases made : SegmentTable.ofHeader header with
    | error e => simp [Fetch.eval]
    | ok table =>
      simp only [long, true_and, Fetch.eval_ask_ok_iff, List.mapM_map, Except.ok.injEq, exists_eq_left']
      refine exists_congr fun parts => and_congr_right fun _ => ?_
      have named : (fun s => (((table.placed.map (·.segment)).zip parts).lookup s).getD ByteArray.empty) =
          table.named parts := rfl
      rw [named]
      cases Tables.decode header table.codeStart (table.named parts) with
      | error e => simp [Fetch.eval]
      | ok tables => simp

theorem fetch_exact {data : ByteArray} {options : ReadOptions} {image : Image} :
    (fetch options).eval data = .ok image ↔ ∃ header table tables, Streamed data options image header table tables := by
  rw [fetch, Fetch.eval_ask_one_ok_iff, Nat.zero_add, List.headD_cons]
  constructor
  · rintro ⟨room, done⟩
    rw [Header.parse_extract room] at done
    cases parsed : Header.parse data with
    | error e => rw [parsed] at done; cases done
    | ok header =>
      rw [parsed] at done
      obtain ⟨long, table, made, parts, read, tables, decoded, more⟩ := fetchSegments_exact.mp done
      obtain ⟨present, digest, finished⟩ := fetchBody_exact.mp more
      have same := (Tables.decode_exact.mp decoded).header_eq
      rw [same] at digest
      exact ⟨header, table, tables, parsed, long, made, ⟨parts, read, decoded⟩, present, digest, finished⟩
  · rintro ⟨header, table, tables, parsed, long, made, ⟨parts, read, decoded⟩, present, digest, finished⟩
    have room : headerSize ≤ data.size := by
      unfold Header.parse at parsed
      split at parsed
      · cases parsed
      · omega
    have same := (Tables.decode_exact.mp decoded).header_eq
    rw [← same] at digest
    rw [Header.parse_extract room, parsed]
    exact ⟨room, fetchSegments_exact.mpr ⟨long, table, made, parts, read, tables, decoded,
      fetchBody_exact.mpr ⟨present, digest, finished⟩⟩⟩

theorem Streamed.parsed {data : ByteArray} {options : ReadOptions} {image : Image} {header : Header}
    {table : SegmentTable} {tables : Tables} (streamed : Streamed data options image header table tables)
    (present : header.fileLength.toNat ≤ data.size) (room : table.codeStart + digestSize ≤ header.fileLength.toNat) :
    Parsed data options image header table tables := by
  obtain ⟨parts, read, decoded⟩ := streamed.tables_ok
  obtain ⟨headerSame, startSame⟩ : tables.header = header ∧ tables.codeStart = table.codeStart :=
    ⟨(Tables.decode_exact.mp decoded).header_eq, (Tables.decode_exact.mp decoded).codeStart_eq⟩
  have stop : tables.bodyStop = header.fileLength.toNat - digestSize := by
    rw [Tables.bodyStop, headerSame, startSame]
    omega
  refine ⟨streamed.header_ok, streamed.long, present, fun asked => (streamed.digest asked).2, streamed.table_ok,
    ⟨parts, ?_, decoded⟩, ?_⟩
  · obtain ⟨length, each⟩ := List.forall₂_iff_zip.mp (mapM_ok_iff.mp read)
    refine mapM_ok_iff.mpr (List.forall₂_iff_zip.mpr ⟨length, ?_⟩)
    intro p part member
    obtain ⟨-, inside, -⟩ := (SegmentTable.bounds_of_place (SegmentTable.ofHeader_ok_iff.mp streamed.table_ok)).2.2 p
      (List.of_mem_zip member).1
    exact (window_slice_iff present).mpr ⟨each member, by omega⟩
  -- The region behind the segments is a part of the file.
  · refine Tables.finish_within (Region.window_within (Nat.zero_le _) ?_ ?_ streamed.present) streamed.finished
    · omega
    · exact Nat.le_max_right _ _

end Image

namespace FilePlan

variable {plan : FilePlan} {image : Image} {version : Option UInt32}

theorem Serves.room (serves : plan.Serves image version) :
    plan.table.codeStart + digestSize ≤ plan.header.fileLength.toNat := by
  have bounds := serves.codeStart_le
  have size := serves.filled.size
  have length := serves.size_contents
  omega

-- A written file that is read as a whole is read from a stream too.
theorem Serves.streamed_of_parsed (serves : plan.Serves image version) {options : ReadOptions} {back : Image}
    {header : Header} {table : SegmentTable} {tables : Tables}
    (parsed : Image.Parsed (Writer.signed (plan.contents image)) options back header table tables) :
    Image.Streamed (Writer.signed (plan.contents image)) options back header table tables := by
  have length := serves.size_contents
  have room := serves.room
  obtain rfl : header = plan.header := Except.ok.inj (parsed.header_ok.symm.trans serves.header_read)
  obtain rfl : table = plan.table := Except.ok.inj (parsed.table_ok.symm.trans serves.segments)
  obtain ⟨parts, read, decoded⟩ := parsed.tables_ok
  obtain ⟨headerSame, startSame, headersRead⟩ : tables.header = plan.header ∧
      tables.codeStart = plan.table.codeStart ∧
      Schema.smallHeader.parseMany (plan.table.named parts .functionHeaders) = .ok tables.headers := by
    have facts := Tables.decode_exact.mp decoded
    exact ⟨facts.header_eq, facts.codeStart_eq, facts.headers⟩
  have headersSame : tables.headers = (plan.placements.map Writer.smallRecord).toArray := by
    obtain rfl := Except.ok.inj (read.symm.trans serves.segments_read)
    rw [SegmentTable.named_map serves.segments] at headersRead
    exact Except.ok.inj (headersRead.symm.trans serves.headers_read)
  have stop : tables.bodyStop = (plan.contents image).size := by
    rw [Tables.bodyStop, headerSame, startSame]
    omega
  refine ⟨parsed.header_ok, parsed.long, parsed.table_ok, ⟨parts, ?_, decoded⟩, ?_, ?_, ?_⟩
  · rw [mapM_ok_iff] at read ⊢
    exact read.imp fun _ _ sliced => ((window_slice_iff parsed.present).mp sliced).1
  · rw [stop, Writer.size_signed]
    omega
  · intro asked
    exact ⟨parsed.present, parsed.digest asked⟩
  -- Both regions cover what was written behind the segments.
  · have covers : (Region.window (Writer.signed (plan.contents image)) tables.codeStart tables.bodyStop).Covers
        (plan.contents image) plan.table.codeStart :=
      Region.window_covers (Writer.holds_signed _) (Nat.le_of_eq startSame) (Nat.le_of_eq stop.symm)
    rw [serves.finish_of_covers covers headerSame startSame headersSame,
      ← serves.finish_of_covers (serves.covers _) headerSame startSame headersSame]
    exact parsed.finished

end FilePlan

namespace Image

theorem parseChunks_exact {chunks : List ByteArray} {options : ReadOptions} {image : Image} :
    parseChunks chunks options = .ok image ↔ (fetch options).eval (joined chunks) = .ok image := by
  obtain ⟨result, ended, agrees⟩ := Transfer.feedAll_exact (fetch options) chunks
  rw [parseChunks, ended, Option.getD_some]
  exact agrees image

theorem parse_of_fetch {data : ByteArray} {options : ReadOptions} {image : Image} {header : Header}
    {table : SegmentTable} (parsed : Header.parse data = .ok header) (made : SegmentTable.ofHeader header = .ok table)
    (present : header.fileLength.toNat ≤ data.size) (room : table.codeStart + digestSize ≤ header.fileLength.toNat)
    (fetched : (fetch options).eval data = .ok image) : parse data options = .ok image := by
  obtain ⟨header', table', tables, streamed⟩ := fetch_exact.mp fetched
  obtain rfl : header' = header := Except.ok.inj (streamed.header_ok.symm.trans parsed)
  obtain rfl : table' = table := Except.ok.inj (streamed.table_ok.symm.trans made)
  exact parse_exact.mpr ⟨_, _, tables, streamed.parsed present room⟩

theorem fetch_of_parse {image back : Image} {version : Option UInt32} {file : ByteArray} {options : ReadOptions}
    (written : image.write version = .ok file) (parsed : parse file options = .ok back) :
    (fetch options).eval file = .ok back := by
  obtain ⟨plan, serves, rfl⟩ := write_exact.mp written
  obtain ⟨header, table, tables, parts⟩ := parse_exact.mp parsed
  exact fetch_exact.mpr ⟨header, table, tables, serves.streamed_of_parsed parts⟩

-- Reading from a stream agrees with reading the whole file, however it is cut and whoever takes the next step.
theorem streamed_agrees (chunks : List ByteArray) (options : ReadOptions) :
    -- An image from the stream is the image of the file, if the file is complete and its segments end before the digest.
    (∀ header table, Header.parse (joined chunks) = .ok header → SegmentTable.ofHeader header = .ok table →
      header.fileLength.toNat ≤ (joined chunks).size → table.codeStart + digestSize ≤ header.fileLength.toNat →
      (∀ moves image, ((Transfer.start (fetch options) chunks).run moves).result? = some (.ok image) →
        parse (joined chunks) options = .ok image) ∧
      ∀ image, parseChunks chunks options = .ok image → parse (joined chunks) options = .ok image) ∧
    -- A written file never gives another result than that of the file, and it gives this one in bounded time.
    (∀ (image : Image) version back, image.write version = .ok (joined chunks) → parse (joined chunks) options = .ok back →
      (∀ moves result, ((Transfer.start (fetch options) chunks).run moves).result? = some result → result = .ok back) ∧
      (∀ first second : List Move, chunks.length < first.count .deliver →
        (fetch options).cost (joined chunks) ≤ second.count .work →
        ((Transfer.start (fetch options) chunks).run (first ++ second)).result? = some (.ok back)) ∧
      parseChunks chunks options = .ok back) := by
  constructor
  · intro header table parsed made present room
    constructor
    · intro moves image ended
      exact parse_of_fetch parsed made present room ((Transfer.result_exact ended image).mp rfl)
    · intro image done
      exact parse_of_fetch parsed made present room (parseChunks_exact.mp done)
  · intro image version back written parsed
    have fetched := fetch_of_parse written parsed
    refine ⟨?_, ?_, parseChunks_exact.mpr fetched⟩
    · intro moves result ended
      exact (Transfer.result_exact ended back).mpr fetched
    · intro first second delivered enough
      obtain ⟨result, ended⟩ := Transfer.run_finishes delivered enough
      rw [ended, (Transfer.result_exact ended back).mpr fetched]

-- The sample in two chunks: one order in which it arrives, and what holds of all orders.
theorem sample_streamed :
    ∃ file back, sample.write = .ok file ∧
      ((Transfer.start (fetch {}) [file.extract 0 100, file.extract 100 file.size]).run
        ([.work, .deliver, .work, .deliver, .deliver] ++ List.replicate ((fetch {}).cost file) .work)).result? =
          some (.ok back) ∧
      parseChunks [file.extract 0 100, file.extract 100 file.size] = .ok back ∧
      ∀ moves image, ((Transfer.start (fetch {}) [file.extract 0 100, file.extract 100 file.size]).run moves).result? =
        some (.ok image) → parse file = .ok image := by
  obtain ⟨file, written⟩ := sample_written
  obtain ⟨plan, serves, made⟩ := write_exact.mp written
  have parsed := serves.parse_signed sample_wellFormed sample_few {}
  have header := serves.header_read
  have size := serves.size_file
  rw [← made] at parsed header size
  have long : 128 ≤ file.size := by
    have bounds := serves.codeStart_le.1
    have room := serves.room
    unfold headerSize at bounds
    omega
  have whole : joined [file.extract 0 100, file.extract 100 file.size] = file := by
    rw [joined, joined, joined, ByteArray.append_empty, ByteArray.extract_append_extract, Nat.zero_min,
      Nat.max_eq_right (by omega), ByteArray.extract_zero_size]
  obtain ⟨sound, complete⟩ := streamed_agrees [file.extract 0 100, file.extract 100 file.size] {}
  rw [whole] at sound complete
  obtain ⟨-, finishes, chunked⟩ := complete sample none _ written parsed
  refine ⟨file, _, written, finishes _ _ (Nat.lt_succ_self 2) ?_, chunked, ?_⟩
  · rw [List.count_replicate_self]
  · exact (sound _ _ header serves.segments (Nat.le_of_eq size.symm) serves.room).1

end Image
end CodeImage
