import CodeImage.Proofs.Streamed

-- A computation that succeeds on what has arrived succeeds on more as well, so a stream that is cut off never gives
-- another image than the file.

namespace CodeImage

-- More bytes behind change nothing in front of them.
theorem extract_append_of_le {a : ByteArray} {start stop : Nat} (b : ByteArray) (room : stop ≤ a.size) :
    (a ++ b).extract start stop = a.extract start stop := by
  have none : b.extract (start - a.size) (stop - a.size) = ByteArray.empty := by
    rw [ByteArray.extract_eq_empty_iff]
    omega
  rw [ByteArray.extract_append, none, ByteArray.append_empty]

theorem joined_singleton (chunk : ByteArray) : joined [chunk] = chunk := by
  rw [joined, joined, ByteArray.append_empty]

namespace Fetch

variable {α : Type} {data : ByteArray}

theorem range_append {r : Nat × Nat} (rest : ByteArray) (room : r.1 + r.2 ≤ data.size) :
    range (data ++ rest) r = range data r := by
  have more : r.1 + r.2 ≤ (data ++ rest).size := by rw [ByteArray.size_append]; omega
  rw [range, range, slice?, slice?, if_pos room, if_pos more, extract_append_of_le rest room]

theorem mapM_range_append {ranges : List (Nat × Nat)} (rest : ByteArray) (room : ∀ r ∈ ranges, r.1 + r.2 ≤ data.size) :
    ranges.mapM (range (data ++ rest)) = ranges.mapM (range data) := by
  induction ranges with
  | nil => rfl
  | cons first later ih =>
    rw [List.forall_mem_cons] at room
    rw [List.mapM_cons, List.mapM_cons, range_append rest room.1, ih room.2]

-- By induction on the computation: every group of requests is answered alike.
theorem eval_append {fetch : Fetch α} {value : α} (rest : ByteArray) (done : fetch.eval data = .ok value) :
    fetch.eval (data ++ rest) = .ok value := by
  induction fetch with
  | done result => exact done
  | ask ranges next ih =>
    have room := inside_of_eval done
    rw [eval_ask_ok_iff] at done ⊢
    obtain ⟨parts, read, more⟩ := done
    rw [mapM_range_append rest room]
    exact ⟨parts, read, ih parts more⟩

end Fetch

namespace Header

theorem room_of_parse {data : ByteArray} {header : Header} (parsed : parse data = .ok header) :
    headerSize ≤ data.size := by
  unfold parse at parsed
  split at parsed
  · cases parsed
  · omega

theorem parse_append {data : ByteArray} (rest : ByteArray) (room : headerSize ≤ data.size) :
    parse (data ++ rest) = parse data := by
  have more : headerSize ≤ (data ++ rest).size := by rw [ByteArray.size_append]; omega
  rw [← parse_extract more, ← parse_extract room, extract_append_of_le rest room]

end Header

namespace Image

-- Of a file with this header, so many bytes have everything that is asked for.
structure OnlyDigestMissing (options : ReadOptions) (header : Header) (size : Nat) : Prop where
  unverified : options.verifyDigest = false
  body : header.fileLength.toNat ≤ size + digestSize
  segments : ∃ table, SegmentTable.ofHeader header = .ok table ∧ table.codeStart ≤ size

namespace Streamed

variable {data rest : ByteArray} {options : ReadOptions} {image : Image} {header : Header} {table : SegmentTable}
  {tables : Tables}

theorem bodyStop_eq (streamed : Streamed data options image header table tables) :
    tables.bodyStop = max (header.fileLength.toNat - digestSize) table.codeStart ∧ tables.codeStart = table.codeStart := by
  obtain ⟨parts, -, decoded⟩ := streamed.tables_ok
  have facts := Tables.decode_exact.mp decoded
  rw [Tables.bodyStop, facts.header_eq, facts.codeStart_eq]
  exact ⟨rfl, rfl⟩

-- An image from fewer bytes than the header declares was made without the digest.
theorem onlyDigestMissing (streamed : Streamed data options image header table tables)
    (short : data.size < header.fileLength.toNat) : OnlyDigestMissing options header data.size := by
  have present := streamed.present
  rw [streamed.bodyStop_eq.1] at present
  refine ⟨?_, by omega, table, streamed.table_ok, by omega⟩
  cases asked : options.verifyDigest with
  | false => rfl
  | true =>
    have whole := (streamed.digest asked).1
    omega

-- Without the rest there is still everything that is asked for.
theorem cut (streamed : Streamed (data ++ rest) options image header table tables)
    (missing : OnlyDigestMissing options header data.size) : Streamed data options image header table tables := by
  obtain ⟨table', made, room⟩ := missing.segments
  obtain rfl : table' = table := Except.ok.inj (made.symm.trans streamed.table_ok)
  have body := missing.body
  obtain ⟨stop, start⟩ := streamed.bodyStop_eq
  have present : tables.bodyStop ≤ data.size := by omega
  have front := (SegmentTable.codeStart_bounds made).1
  refine ⟨?_, streamed.long, made, ?_, present, ?_, ?_⟩
  · rw [← Header.parse_append rest (by omega)]
    exact streamed.header_ok
  · obtain ⟨parts, read, decoded⟩ := streamed.tables_ok
    have inside : ∀ r ∈ table'.placed.map (fun p => (p.offset, p.size)), r.1 + r.2 ≤ data.size := by
      rw [List.forall_mem_map]
      intro p member
      have bounds := (SegmentTable.bounds_of_place (SegmentTable.ofHeader_ok_iff.mp made)).2.2 p member
      simp only
      omega
    have same := Fetch.mapM_range_append rest inside
    rw [List.mapM_map, List.mapM_map] at same
    exact ⟨parts, same.symm.trans read, decoded⟩
  · intro asked
    rw [missing.unverified] at asked
    cases asked
  · have finished := streamed.finished
    rwa [Region.window, extract_append_of_le rest present] at finished

end Streamed

section Cut

variable {data rest : ByteArray} {options : ReadOptions} {header : Header}

-- What was parsed in front is the header of the file.
theorem header_of_front {found : Header} (parsed : Header.parse (data ++ rest) = .ok header)
    (front : Header.parse data = .ok found) : found = header := by
  rw [Header.parse_append rest (Header.room_of_parse front), front] at parsed
  exact Except.ok.inj parsed

theorem parse_cut (parsed : Header.parse (data ++ rest) = .ok header) (short : data.size < header.fileLength.toNat) :
    ∃ e, parse data options = .error e := by
  cases done : parse data options with
  | error e => exact ⟨e, rfl⟩
  | ok image =>
    obtain ⟨found, table, tables, parts⟩ := parse_exact.mp done
    have present := parts.present
    rw [header_of_front parsed parts.header_ok] at present
    omega

theorem missing_of_fetch {image : Image} (parsed : Header.parse (data ++ rest) = .ok header)
    (short : data.size < header.fileLength.toNat) (fetched : (fetch options).eval data = .ok image) :
    OnlyDigestMissing options header data.size := by
  obtain ⟨found, table, tables, streamed⟩ := fetch_exact.mp fetched
  obtain rfl := header_of_front parsed streamed.header_ok
  exact streamed.onlyDigestMissing short

theorem fetch_cut_iff (parsed : Header.parse (data ++ rest) = .ok header)
    (missing : OnlyDigestMissing options header data.size) (image : Image) :
    (fetch options).eval data = .ok image ↔ (fetch options).eval (data ++ rest) = .ok image := by
  constructor
  · exact Fetch.eval_append rest
  · intro whole
    obtain ⟨found, table, tables, streamed⟩ := fetch_exact.mp whole
    obtain rfl : found = header := Except.ok.inj (streamed.header_ok.symm.trans parsed)
    exact fetch_exact.mpr ⟨found, table, tables, streamed.cut missing⟩

end Cut

-- A stream with fewer bytes than the header declares is refused, as the bytes are, if more is missing than bytes of a
-- digest that is not to be verified. Otherwise it is read as if the rest had arrived.
theorem truncated_stream {header : Header} {chunks : List ByteArray} {rest : ByteArray} (options : ReadOptions)
    (parsed : Header.parse (joined chunks ++ rest) = .ok header)
    (short : (joined chunks).size < header.fileLength.toNat) :
    (∃ e, parse (joined chunks) options = .error e) ∧
    (¬ OnlyDigestMissing options header (joined chunks).size →
      (∀ moves image, ((Transfer.start (fetch options) chunks).run moves).result? ≠ some (.ok image)) ∧
      (∀ first second : List Move, chunks.length < first.count .deliver →
        (fetch options).cost (joined chunks) ≤ second.count .work →
        ∃ e, ((Transfer.start (fetch options) chunks).run (first ++ second)).result? = some (.error e)) ∧
      (∃ e, parseChunks chunks options = .error e) ∧
      ∀ failure, ∃ e, parseSource chunks failure options = .error e) ∧
    (OnlyDigestMissing options header (joined chunks).size →
      ∀ image, parseChunks chunks options = .ok image ↔ parseChunks [joined chunks ++ rest] options = .ok image) := by
  refine ⟨parse_cut parsed short, ?_, ?_⟩
  · intro more
    have refused : ∀ image, (fetch options).eval (joined chunks) ≠ .ok image := by
      intro image fetched
      exact more (missing_of_fetch parsed short fetched)
    have chunked : ∃ e, parseChunks chunks options = .error e := by
      cases done : parseChunks chunks options with
      | error e => exact ⟨e, rfl⟩
      | ok image => exact absurd (parseChunks_exact.mp done) (refused image)
    refine ⟨?_, ?_, chunked, ?_⟩
    · intro moves image ended
      exact refused image ((Transfer.result_exact ended image).mp rfl)
    · intro first second delivered enough
      obtain ⟨result, ended⟩ := Transfer.run_finishes delivered enough
      cases result with
      | error e => exact ⟨e, ended⟩
      | ok image => exact absurd ((Transfer.result_exact ended image).mp rfl) (refused image)
    · intro failure
      cases failure with
      | none => exact chunked
      | some reason => exact ⟨_, rfl⟩
  · intro missing image
    rw [parseChunks_exact, parseChunks_exact, joined_singleton]
    exact fetch_cut_iff parsed missing image

-- A header that declares a digest behind itself and nothing else.
def bareHeader : Header := { fileLength := 148 }

theorem parse_bareHeader (rest : ByteArray) :
    Header.parse (joined [bareHeader.encode] ++ rest) = .ok bareHeader := by
  rw [joined_singleton]
  exact Header.parse_of_holds (Holds.prefix_append _ rest)

theorem bareHeader_short : (joined [bareHeader.encode]).size < bareHeader.fileLength.toNat := by
  rw [joined_singleton, Header.size_encode]
  decide

theorem bareHeader_read : ∃ image, parseChunks [bareHeader.encode] = .ok image := by
  have done : (parseChunks [bareHeader.encode]).toBool = true := by decide +kernel
  exact exists_of_toBool done

-- The header alone is refused if the digest is asked for, and read as with twenty zeros behind it if not.
theorem sample_truncated_stream :
    (∃ e, parse (joined [bareHeader.encode]) = .error e) ∧
    (∃ e, parseChunks [bareHeader.encode] { verifyDigest := true } = .error e) ∧
    ∃ image, parseChunks [bareHeader.encode] = .ok image ∧
      parseChunks [joined [bareHeader.encode] ++ zeros 20] = .ok image := by
  have parsed := parse_bareHeader (zeros 20)
  obtain ⟨-, verified, -⟩ := truncated_stream { verifyDigest := true } parsed bareHeader_short
  obtain ⟨whole, -, unverified⟩ := truncated_stream {} parsed bareHeader_short
  refine ⟨whole, (verified fun missing => nomatch missing.unverified).2.2.1, ?_⟩
  obtain ⟨image, given⟩ := bareHeader_read
  have fetched := parseChunks_exact.mp given
  exact ⟨image, given, (unverified (missing_of_fetch parsed bareHeader_short fetched) image).mp given⟩

-- The digest that the header declares never arrives, and yet there is an image.
theorem truncated_stream_accepted :
    ¬ ∀ (header : Header) (chunks : List ByteArray) (rest : ByteArray) (options : ReadOptions),
      Header.parse (joined chunks ++ rest) = .ok header → (joined chunks).size < header.fileLength.toNat →
      ∃ e, parseChunks chunks options = .error e := by
  intro refused
  obtain ⟨e, failed⟩ := refused _ _ _ {} (parse_bareHeader ByteArray.empty) bareHeader_short
  obtain ⟨image, given⟩ := bareHeader_read
  rw [given] at failed
  cases failed

end Image
end CodeImage
