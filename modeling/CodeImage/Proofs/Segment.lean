import CodeImage.Segment
import CodeImage.Proofs.Outcome
import CodeImage.Proofs.Records

namespace CodeImage

theorem Digest.ext {a b : Digest} (same : a.bytes = b.bytes) : a = b := by
  cases a; cases b; cases same; rfl

theorem Digest.take_bytes (digest : Digest) : Digest.take digest.bytes = digest := by
  apply Digest.ext
  have full : paddedTo digest.bytes digestSize = digest.bytes := by
    rw [paddedTo, digest.size_bytes, Nat.sub_self, zeros_zero, ByteArray.append_empty]
  change (paddedTo digest.bytes digestSize).extract 0 digestSize = digest.bytes
  rw [full]
  conv => lhs; rw [← digest.size_bytes]
  exact ByteArray.extract_zero_size

namespace Header

-- The signature and the version.
def start (header : Header) : ByteArray := pushNat (pushNat ByteArray.empty 8 signature) 4 header.version.toNat

@[simp]
theorem size_start (header : Header) : header.start.size = 12 := by simp [start]

theorem size_words (header : Header) : (wordBytes header.toWords).size = 80 := by
  rw [size_wordBytes]; rfl

theorem encode_eq (header : Header) :
    header.encode = header.start ++ header.sourceHash.bytes ++ wordBytes header.toWords ++ zeros 16 := by
  have hash := header.sourceHash.size_bytes
  unfold digestSize at hash
  rw [encode, foldl_pushWord_eq_append, paddedTo, ByteArray.size_append, ByteArray.size_append, size_words, hash]
  rfl

@[simp]
theorem size_encode (header : Header) : header.encode.size = 128 := by
  have hash := header.sourceHash.size_bytes
  unfold digestSize at hash
  rw [encode_eq, ByteArray.size_append, ByteArray.size_append, ByteArray.size_append, size_start, hash, size_words,
    size_zeros]

theorem holds_start (header : Header) : Holds header.encode 0 header.start := by
  rw [encode_eq, ByteArray.append_assoc, ByteArray.append_assoc]
  exact Holds.prefix_append ..

theorem holds_sourceHash (header : Header) : Holds header.encode 12 header.sourceHash.bytes := by
  rw [encode_eq, ByteArray.append_assoc, ByteArray.append_assoc, ← size_start header]
  exact (Holds.prefix_append _ _).append_right header.start

theorem holds_words (header : Header) : Holds header.encode wordsPos (wordBytes header.toWords) := by
  have hash := header.sourceHash.size_bytes
  have size : (header.start ++ header.sourceHash.bytes).size = wordsPos := by
    rw [ByteArray.size_append, size_start, hash]; rfl
  rw [encode_eq, ← size]
  exact (Holds.suffix_append _ _).append_left _

-- A file that starts with the bytes of a header is read with that header.
theorem parse_of_holds {header : Header} {data : ByteArray} (holds : Holds data 0 header.encode) :
    parse data = .ok header := by
  have size : headerSize ≤ data.size := by
    have := holds.1
    rw [size_encode] at this
    exact this
  have first := holds.inside_front header.holds_start
  have magic : natAt data 0 8 = signature := by
    have inner : Holds header.start 0 (pushNat ByteArray.empty 8 signature) := by
      rw [start, pushNat_eq_append]
      exact Holds.prefix_append ..
    have same : natAt data 0 8 = natAt (pushNat ByteArray.empty 8 signature) 0 8 :=
      (first.inside_front inner).natAt (k := 0) (by simp)
    rw [same, show (0 : Nat) = ByteArray.empty.size from rfl, natAt_pushNat]
    rfl
  have version : wordAt data 8 = header.version := by
    have same := first.wordAt (k := 8) (by simp)
    rw [Nat.zero_add] at same
    rw [same, ← wordAt_pushWord (pushNat ByteArray.empty 8 signature) header.version, size_pushNat]
    rfl
  have hash : data.extract 12 32 = header.sourceHash.bytes := by
    have same := (holds.inside_front header.holds_sourceHash).extract
    rwa [header.sourceHash.size_bytes] at same
  have words : (List.range 20).map (fun i => wordAt data (wordsPos + 4 * i)) = header.toWords := by
    apply List.ext_getElem
    · rfl
    · intro i left right
      have inside : i < 20 := right
      rw [List.getElem_map, List.getElem_range, (holds.inside_front header.holds_words).wordAt, wordAt_wordBytes right]
      rw [size_words]; omega
  rw [parse, if_neg (by omega), if_neg (by rw [magic]; simp), version, hash, Digest.take_bytes, words]
  rfl

end Header

namespace Segment

theorem mem_all (segment : Segment) : segment ∈ all := by cases segment <;> decide

-- The sizes of the segments do not depend on the two places that are known last.
theorem size_update (header : Header) (debugInfoOffset fileLength : UInt32) (segment : Segment) :
    segment.size { header with debugInfoOffset, fileLength } = segment.size header := by
  cases segment <;> rfl

end Segment

namespace SegmentTable

theorem place_congr {a b : Header} (same : ∀ segment : Segment, segment.size a = segment.size b) (cursor : Nat)
    (segments : List Segment) : place a cursor segments = place b cursor segments := by
  induction segments generalizing cursor with
  | nil => rfl
  | cons segment rest ih => rw [place, place, same, ih]

theorem ofHeader_congr {a b : Header} (same : ∀ segment : Segment, segment.size a = segment.size b) :
    ofHeader a = ofHeader b := by
  rw [ofHeader, ofHeader, place_congr same]

-- Placing one segment and then the others.
theorem place_cons_ok {header : Header} {cursor stop : Nat} {segment : Segment} {rest : List Segment}
    {placed : List Placed} (done : place header cursor (segment :: rest) = .ok (placed, stop)) :
    cursor + segment.size header < 0x100000000 ∧ ∃ later,
      place header (align4 (cursor + segment.size header)) rest = .ok (later, stop) ∧
      placed = ⟨segment, cursor, segment.size header⟩ :: later := by
  rw [place] at done
  split at done
  · cases done
  · split at done
    · cases done
    · next later last more =>
      cases done
      exact ⟨by omega, later, more, rfl⟩

theorem map_segment_of_place {header : Header} {cursor stop : Nat} {segments : List Segment} {placed : List Placed}
    (done : place header cursor segments = .ok (placed, stop)) : placed.map (·.segment) = segments := by
  induction segments generalizing cursor placed with
  | nil => cases done; rfl
  | cons segment rest ih =>
    obtain ⟨-, later, more, rfl⟩ := place_cons_ok done
    rw [List.map_cons, ih more]

theorem bounds_of_place {header : Header} {cursor stop : Nat} {segments : List Segment} {placed : List Placed}
    (done : place header cursor segments = .ok (placed, stop)) :
    cursor ≤ stop ∧ (cursor % 4 = 0 → stop % 4 = 0) ∧
      ∀ p ∈ placed, cursor ≤ p.offset ∧ p.offset + p.size ≤ stop ∧ p.offset + p.size < 0x100000000 := by
  induction segments generalizing cursor placed with
  | nil =>
    cases done
    exact ⟨Nat.le_refl _, id, fun p member => absurd member (List.not_mem_nil)⟩
  | cons segment rest ih =>
    obtain ⟨small, later, more, rfl⟩ := place_cons_ok done
    obtain ⟨low, aligned, inside⟩ := ih more
    have next := le_align4 (cursor + segment.size header)
    refine ⟨by omega, fun _ => aligned (align4_mod _), ?_⟩
    intro p member
    rcases List.mem_cons.mp member with rfl | old
    · exact ⟨Nat.le_refl _, by simp only; omega, small⟩
    · have := inside p old
      omega

theorem size_of_mem_place {header : Header} {cursor stop : Nat} {segments : List Segment} {placed : List Placed}
    (done : place header cursor segments = .ok (placed, stop)) :
    ∀ p ∈ placed, p.size = p.segment.size header := by
  induction segments generalizing cursor placed with
  | nil => cases done; intro p member; cases member
  | cons segment rest ih =>
    obtain ⟨-, later, more, rfl⟩ := place_cons_ok done
    rw [List.forall_mem_cons]
    exact ⟨rfl, ih more⟩

-- Writing the segments behind `out`, as `Writer.contents` does.
theorem holds_of_place {header : Header} {cursor stop : Nat} {segments : List Segment} {placed : List Placed}
    (done : place header cursor segments = .ok (placed, stop)) {contents : Segment → ByteArray}
    (sizes : ∀ s ∈ segments, (contents s).size = s.size header) {out : ByteArray} (size : out.size = cursor) :
    let written := segments.foldl (fun out s => padded (out ++ contents s)) out
    written.size = stop ∧ Holds written 0 out ∧ ∀ p ∈ placed, Holds written p.offset (contents p.segment) := by
  induction segments generalizing cursor placed out with
  | nil =>
    cases done
    exact ⟨size, Holds.refl out, fun p member => absurd member (List.not_mem_nil)⟩
  | cons segment rest ih =>
    obtain ⟨-, later, more, rfl⟩ := place_cons_ok done
    obtain ⟨first, others⟩ := List.forall_mem_cons.mp sizes
    have grown : (padded (out ++ contents segment)).size = align4 (cursor + segment.size header) := by
      rw [size_padded, ByteArray.size_append, size, first]
    obtain ⟨total, start, inside⟩ := ih more others grown
    have here : Holds (padded (out ++ contents segment)) 0 (out ++ contents segment) := Holds.prefix_append ..
    refine ⟨total, start.inside_front (here.inside_front (Holds.prefix_append ..)), ?_⟩
    rw [List.forall_mem_cons]
    refine ⟨?_, inside⟩
    have own := start.inside_front (here.inside_front (Holds.suffix_append out (contents segment)))
    rwa [size] at own

theorem ofHeader_ok_iff {header : Header} {table : SegmentTable} :
    ofHeader header = .ok table ↔ place header headerSize Segment.all = .ok (table.placed, table.codeStart) := by
  rw [ofHeader]
  split
  · next e failed => simp [failed]
  · next placed stop done =>
    rw [done, Except.ok.injEq, Except.ok.injEq, Prod.mk.injEq]
    constructor
    · rintro rfl
      exact ⟨rfl, rfl⟩
    · rintro ⟨rfl, rfl⟩
      rfl

theorem codeStart_bounds {header : Header} {table : SegmentTable} (made : ofHeader header = .ok table) :
    headerSize ≤ table.codeStart ∧ table.codeStart % 4 = 0 := by
  obtain ⟨low, aligned, -⟩ := bounds_of_place (ofHeader_ok_iff.mp made)
  exact ⟨low, aligned rfl⟩

-- Every segment has a place, and it ends before the largest 32-bit number.
theorem size_lt {header : Header} {table : SegmentTable} (made : ofHeader header = .ok table) (segment : Segment) :
    segment.size header < 0x100000000 := by
  have done := ofHeader_ok_iff.mp made
  have member : segment ∈ table.placed.map (·.segment) := by
    rw [map_segment_of_place done]
    exact segment.mem_all
  obtain ⟨p, inside, rfl⟩ := List.mem_map.mp member
  have bounds := (bounds_of_place done).2.2 p inside
  rw [← size_of_mem_place done p inside]
  omega

end SegmentTable
end CodeImage
