import CodeImage.Proofs.Checked
import CodeImage.Proofs.RoundTrip

namespace CodeImage

-- The size of one element, by the kind of record that the segment holds.
def Segment.recordSize : Segment → Nat
  | .functionHeaders => Schema.smallHeader.size
  | .stringKinds => Schema.kindRun.size
  | .identifierHashes => Schema.identifierHash.size
  | .stringTable => Schema.stringSlot.size
  | .overflowStringTable | .bigIntTable | .regExpTable | .cjsModuleTable => Schema.extent.size
  | .functionSourceTable => Schema.functionSource.size
  | .stringStorage | .arrayBuffer | .objectKeyBuffer | .objectValueBuffer | .bigIntStorage | .regExpStorage => 1

theorem Segment.stride_eq (segment : Segment) : segment.stride = segment.recordSize := by
  cases segment <;> simp [stride, recordSize]

theorem Segment.size_eq (header : Header) (segment : Segment) :
    segment.size header = (segment.count header).toNat * segment.recordSize := by
  rw [size, stride_eq]

namespace Placed

def stop (p : Placed) : Nat := p.offset + p.size

-- The next segment starts at a multiple of four, behind this one and at most three bytes away.
structure FollowedBy (p next : Placed) : Prop where
  aligned : next.offset % 4 = 0
  behind : p.stop ≤ next.offset
  near : next.offset ≤ p.stop + 3

theorem FollowedBy.offset_eq {p next : Placed} (follows : p.FollowedBy next) : next.offset = align4 p.stop := by
  obtain ⟨aligned, behind, near⟩ := follows
  unfold align4
  omega

theorem followedBy_of_offset_eq {p next : Placed} (start : next.offset = align4 p.stop) : p.FollowedBy next := by
  refine ⟨by rw [start, align4_mod], by rw [start]; exact le_align4 _, ?_⟩
  rw [start]
  unfold align4
  omega

-- What follows a segment lies behind it, and so does everything after that.
instance : Trans (fun a b : Placed => a.stop ≤ b.offset) (fun a b : Placed => a.stop ≤ b.offset)
    (fun a b : Placed => a.stop ≤ b.offset) where
  trans := by
    intro a b c first second
    unfold stop at first second ⊢
    omega

theorem apart_of_isChain {placed : List Placed} (chain : placed.IsChain FollowedBy) :
    placed.Pairwise fun a b => a.stop ≤ b.offset :=
  List.isChain_iff_pairwise.mp (chain.imp fun _ _ follows => follows.behind)

end Placed

namespace SegmentTable

-- The places that the counts of a header determine, whether or not a table of them exists.
structure Geometry (header : Header) (placed : List Placed) : Prop where
  segments : placed.map (·.segment) = Segment.all
  sizes : ∀ p ∈ placed, p.size = (p.segment.count header).toNat * p.segment.recordSize
  first : ∀ p ∈ placed.head?, p.offset = 128
  next : placed.IsChain Placed.FollowedBy

-- The same places, one after the other.
def layOut (header : Header) : (cursor : Nat) → List Segment → List Placed
  | _, [] => []
  | cursor, segment :: rest =>
    ⟨segment, cursor, segment.size header⟩ :: layOut header (align4 (cursor + segment.size header)) rest

variable {header : Header} {cursor : Nat} {segments : List Segment} {placed : List Placed}

theorem head?_layOut : ∀ p ∈ (layOut header cursor segments).head?, p.offset = cursor := by
  intro p found
  cases segments with
  | nil => cases found
  | cons segment rest =>
    cases found
    rfl

theorem map_segment_layOut (header : Header) (cursor : Nat) (segments : List Segment) :
    (layOut header cursor segments).map (·.segment) = segments := by
  induction segments generalizing cursor with
  | nil => rfl
  | cons segment rest ih => rw [layOut, List.map_cons, ih]

theorem size_of_mem_layOut : ∀ p ∈ layOut header cursor segments, p.size = p.segment.size header := by
  induction segments generalizing cursor with
  | nil =>
    intro p member
    cases member
  | cons segment rest ih =>
    rw [layOut, List.forall_mem_cons]
    exact ⟨rfl, ih⟩

theorem isChain_layOut (header : Header) (cursor : Nat) (segments : List Segment) :
    (layOut header cursor segments).IsChain Placed.FollowedBy := by
  induction segments generalizing cursor with
  | nil => exact .nil
  | cons segment rest ih =>
    rw [layOut, List.isChain_cons]
    refine ⟨?_, ih _⟩
    intro next found
    exact Placed.followedBy_of_offset_eq (head?_layOut next found)

-- No other list of places has these properties.
theorem eq_layOut (names : placed.map (·.segment) = segments)
    (sizes : ∀ p ∈ placed, p.size = p.segment.size header) (first : ∀ p ∈ placed.head?, p.offset = cursor)
    (chain : placed.IsChain Placed.FollowedBy) : placed = layOut header cursor segments := by
  induction placed generalizing cursor segments with
  | nil =>
    cases names
    rfl
  | cons p rest ih =>
    subst names
    obtain ⟨own, others⟩ := List.forall_mem_cons.mp sizes
    obtain ⟨follows, chain⟩ := List.isChain_cons.mp chain
    have start : p.offset = cursor := first p rfl
    have last : p.stop = cursor + p.segment.size header := by rw [Placed.stop, start, own]
    have later := ih rfl others (fun next found => (follows next found).offset_eq) chain
    rw [List.map_cons, layOut, ← last, ← later, ← own, ← start]

theorem geometry_layOut (header : Header) : Geometry header (layOut header headerSize Segment.all) := by
  refine ⟨map_segment_layOut .., ?_, head?_layOut, isChain_layOut ..⟩
  intro p member
  rw [size_of_mem_layOut p member, Segment.size_eq]

theorem Geometry.eq_layOut (geometry : Geometry header placed) : placed = layOut header headerSize Segment.all := by
  refine SegmentTable.eq_layOut geometry.segments ?_ geometry.first geometry.next
  intro p member
  rw [geometry.sizes p member, Segment.size_eq]

-- The first multiple of four behind all places.
def endOf (cursor : Nat) (placed : List Placed) : Nat := (placed.getLast?.map fun p => align4 p.stop).getD cursor

theorem endOf_cons (cursor : Nat) (p : Placed) (rest : List Placed) :
    endOf cursor (p :: rest) = endOf (align4 p.stop) rest := by
  rw [endOf, endOf, List.getLast?_cons]
  cases rest.getLast? with
  | none => rfl
  | some last => rfl

def past (p : Placed) : Bool := decide (0x100000000 ≤ p.stop)

-- Placing segments is laying them out and looking for one that ends too late.
theorem place_eq (header : Header) (cursor : Nat) (segments : List Segment) :
    place header cursor segments =
      match (layOut header cursor segments).find? past with
      | some p => .error (.segmentOverflow p.segment.name p.size)
      | none => .ok (layOut header cursor segments, endOf cursor (layOut header cursor segments)) := by
  induction segments generalizing cursor with
  | nil => rfl
  | cons segment rest ih =>
    rw [place, layOut, List.find?_cons, endOf_cons]
    by_cases late : 0x100000000 ≤ cursor + segment.size header
    · have found : past ⟨segment, cursor, segment.size header⟩ = true := decide_eq_true late
      simp only [late, found, if_true]
    · have kept : past ⟨segment, cursor, segment.size header⟩ = false := decide_eq_false late
      simp only [late, kept, if_false, ih]
      cases (layOut header (align4 (cursor + segment.size header)) rest).find? past with
      | none => rfl
      | some p => rfl

theorem ofHeader_eq (header : Header) :
    ofHeader header =
      match (layOut header headerSize Segment.all).find? past with
      | some p => .error (.segmentOverflow p.segment.name p.size)
      | none => .ok ⟨layOut header headerSize Segment.all, endOf headerSize (layOut header headerSize Segment.all)⟩ := by
  rw [ofHeader, place_eq]
  cases (layOut header headerSize Segment.all).find? past with
  | none => rfl
  | some p => rfl

-- The segment that the error names: it ends too late, and those in front of it do not.
def FirstPast (placed : List Placed) (p : Placed) : Prop :=
  ∃ before behind, placed = before ++ p :: behind ∧ 2 ^ 32 - 1 < p.stop ∧ ∀ q ∈ before, q.stop ≤ 2 ^ 32 - 1

theorem past_iff (p : Placed) : past p = true ↔ 2 ^ 32 - 1 < p.stop := by
  rw [past, decide_eq_true_iff]
  omega

theorem firstPast_iff {p : Placed} : placed.find? past = some p ↔ FirstPast placed p := by
  rw [List.find?_eq_some_iff_append, past_iff]
  constructor
  · rintro ⟨late, before, behind, split, early⟩
    refine ⟨before, behind, split, late, ?_⟩
    intro q member
    have kept := early q member
    rw [Bool.not_eq_true', ← Bool.not_eq_true, past_iff] at kept
    omega
  · rintro ⟨before, behind, split, late, early⟩
    refine ⟨late, before, behind, split, ?_⟩
    intro q member
    have kept := early q member
    rw [Bool.not_eq_true', ← Bool.not_eq_true, past_iff]
    omega

theorem find?_past_none_iff : placed.find? past = none ↔ ∀ p ∈ placed, p.stop ≤ 2 ^ 32 - 1 := by
  rw [List.find?_eq_none]
  refine forall₂_congr fun p _ => ?_
  rw [past_iff]
  omega

theorem exists_firstPast_iff : (∃ p, FirstPast placed p) ↔ ∃ p ∈ placed, 2 ^ 32 - 1 < p.stop := by
  simp only [← firstPast_iff, ← past_iff]
  rw [← Option.isSome_iff_exists, List.find?_isSome]

theorem ofHeader_error_iff {e : ImageError} :
    ofHeader header = .error e ↔ ∃ p, FirstPast (layOut header headerSize Segment.all) p ∧
      e = .segmentOverflow p.segment.name p.size := by
  simp only [← firstPast_iff]
  rw [ofHeader_eq]
  cases (layOut header headerSize Segment.all).find? past with
  | none => simp
  | some p => simp [eq_comm]

theorem ofHeader_ok_exact {table : SegmentTable} :
    ofHeader header = .ok table ↔ (∀ p ∈ layOut header headerSize Segment.all, p.stop ≤ 2 ^ 32 - 1) ∧
      table.placed = layOut header headerSize Segment.all ∧
      ∃ last ∈ (layOut header headerSize Segment.all).getLast?, table.codeStart = align4 last.stop := by
  rw [ofHeader_eq, ← find?_past_none_iff]
  cases (layOut header headerSize Segment.all).find? past with
  | none =>
    constructor
    · intro made
      cases made
      exact ⟨rfl, rfl, _, rfl, rfl⟩
    · rintro ⟨-, same, last, isLast, start⟩
      obtain ⟨placed, codeStart⟩ := table
      cases same
      cases start
      cases isLast
      rfl
  | some p => simp

-- The same computation in addresses: a product, a sum or an alignment that is no address ends it with no result.
def place? (header : Header) : (cursor : Nat) → List Segment → Checked (List Placed × Nat)
  | cursor, [] => pure ([], cursor)
  | cursor, segment :: rest => do
    let size ← access (address? ((segment.count header).toNat * segment.stride))
    let stop ← access (address? (cursor + size))
    if 0x100000000 ≤ stop then throw (.segmentOverflow segment.name size)
    let next ← access (alignedAddress? stop)
    let later ← place? header next rest
    return (⟨segment, cursor, size⟩ :: later.1, later.2)

def ofHeader? (header : Header) : Checked SegmentTable := do
  let found ← place? header headerSize Segment.all
  return ⟨found.1, found.2⟩

theorem address?_of_lt {n : Nat} (small : n < addressLimit) : address? n = some n := if_pos small

theorem alignedAddress?_of_lt {n : Nat} (small : n + 3 < addressLimit) : alignedAddress? n = some (align4 n) := by
  rw [alignedAddress?, address?_of_lt small, Option.map_some]

theorem size_lt_address (header : Header) (segment : Segment) : segment.size header < 2 ^ 36 := by
  have count := (segment.count header).toNat_lt
  have stride : segment.stride ≤ 16 := by cases segment <;> decide
  calc segment.size header ≤ (segment.count header).toNat * 16 := Nat.mul_le_mul_left _ stride
    _ < 2 ^ 36 := by omega

-- A cursor is at most one past the largest 32-bit number, so all numbers stay far below the limit.
theorem place?_eq (header : Header) {cursor : Nat} (small : cursor ≤ 0x100000000) (segments : List Segment) :
    place? header cursor segments = inRange (place header cursor segments) := by
  induction segments generalizing cursor with
  | nil => rfl
  | cons segment rest ih =>
    have bound := size_lt_address header segment
    have product : address? ((segment.count header).toNat * segment.stride) = some (segment.size header) :=
      address?_of_lt (Nat.lt_trans bound (by decide))
    have sum : address? (cursor + segment.size header) = some (cursor + segment.size header) :=
      address?_of_lt (by unfold addressLimit; omega)
    rw [place?, product, access_some, ok_inRange_bind, sum, access_some, ok_inRange_bind, place]
    by_cases late : 0x100000000 ≤ cursor + segment.size header
    · rw [if_pos late, if_pos late]
      rfl
    · have aligned : alignedAddress? (cursor + segment.size header) = some (align4 (cursor + segment.size header)) :=
        alignedAddress?_of_lt (by unfold addressLimit; omega)
      have next : align4 (cursor + segment.size header) ≤ 0x100000000 := by
        unfold align4
        omega
      rw [if_neg late, if_neg late, aligned]
      simp only [access_some, ok_inRange_bind, ih next]
      cases place header (align4 (cursor + segment.size header)) rest with
      | error e => rfl
      | ok later => rfl

theorem ofHeader?_eq (header : Header) : ofHeader? header = inRange (ofHeader header) := by
  rw [ofHeader?, place?_eq header (by decide), ofHeader]
  cases place header headerSize Segment.all with
  | error e => rfl
  | ok found => rfl

theorem ofHeader_of_counts {a b : Header} (same : ∀ segment : Segment, segment.count a = segment.count b) :
    ofHeader a = ofHeader b := by
  apply ofHeader_congr
  intro segment
  rw [Segment.size, Segment.size, same]

-- A file holds the segments where the table of the writer says, and its header gives that table back.
theorem table_reread {image : Image} {version : Option UInt32} {file : ByteArray}
    (written : image.write version = .ok file) :
    ∃ header table placements stop read, Writer.header image version = .ok header ∧ ofHeader header = .ok table ∧
      Placement.plan image table.codeStart = .ok (placements, stop) ∧
      (∀ p ∈ table.placed, Holds file p.offset (Writer.segment image placements p.segment)) ∧
      Header.parse file = .ok read ∧ ofHeader read = .ok table := by
  obtain ⟨plan, serves, rfl⟩ := Image.write_exact.mp written
  refine ⟨_, plan.table, plan.placements, plan.stop, plan.header, serves.made, ?_,
    Placement.plan_exact.mpr ⟨_, _, _, serves.placing, serves.settled⟩, ?_, serves.header_read, serves.segments⟩
  · rw [← serves.segments]
    exact ofHeader_congr (Segment.size_update plan.header 0 0)
  · intro p member
    exact (Writer.holds_signed _).inside_front (serves.filled.segments p member)

-- The places that the counts determine, when they are refused, and that nothing else matters.
theorem geometry_exact (header : Header) :
    ∃ placed, Geometry header placed ∧ (∀ other, Geometry header other → other = placed) ∧
      (placed.Pairwise fun a b => a.stop ≤ b.offset) ∧
      ofHeader? header = inRange (ofHeader header) ∧
      (∀ e, ofHeader header = .error e ↔
        ∃ p, FirstPast placed p ∧ e = .segmentOverflow p.segment.name p.size) ∧
      ((∃ e, ofHeader header = .error e) ↔ ∃ p ∈ placed, 2 ^ 32 - 1 < p.stop) ∧
      (∀ table, ofHeader header = .ok table ↔ (∀ p ∈ placed, p.stop ≤ 2 ^ 32 - 1) ∧
        table.placed = placed ∧ ∃ last ∈ placed.getLast?, table.codeStart = align4 last.stop) ∧
      (∀ other : Header, (∀ segment : Segment, segment.count other = segment.count header) →
        ofHeader other = ofHeader header) ∧
      ∀ (image : Image) version file, image.write version = .ok file → Writer.header image version = .ok header →
        ∃ table placements stop read, ofHeader header = .ok table ∧
          Placement.plan image table.codeStart = .ok (placements, stop) ∧
          (∀ p ∈ table.placed, Holds file p.offset (Writer.segment image placements p.segment)) ∧
          Header.parse file = .ok read ∧ ofHeader read = .ok table := by
  have geometry := geometry_layOut header
  refine ⟨_, geometry, fun other also => also.eq_layOut, Placed.apart_of_isChain geometry.next, ofHeader?_eq header,
    fun e => ofHeader_error_iff, ?_, fun table => ofHeader_ok_exact, fun other same => ofHeader_of_counts same, ?_⟩
  · rw [← exists_firstPast_iff]
    constructor
    · rintro ⟨e, refused⟩
      obtain ⟨p, first, -⟩ := ofHeader_error_iff.mp refused
      exact ⟨p, first⟩
    · rintro ⟨p, first⟩
      exact ⟨_, ofHeader_error_iff.mpr ⟨p, first, rfl⟩⟩
  · intro image version file written made
    obtain ⟨_, table, placements, stop, read, same, more⟩ := table_reread written
    obtain rfl := Except.ok.inj (made.symm.trans same)
    exact ⟨table, placements, stop, read, more⟩

-- The storage of strings ends at the largest 32-bit number. The next segment is empty and starts behind it.
def sampleFull : Header := { stringStorageSize := 0xffffff7f }

theorem sample_geometry :
    ofHeader sampleFull = .error (.segmentOverflow "arrayBuffer" 0) ∧
    ∃ file header table read, Image.sample.write = .ok file ∧ Writer.header Image.sample none = .ok header ∧
      ofHeader header = .ok table ∧ Header.parse file = .ok read ∧ ofHeader read = .ok table := by
  refine ⟨?_, ?_⟩
  · obtain ⟨placed, geometry, -, -, -, errors, -⟩ := geometry_exact sampleFull
    refine (errors _).mpr ⟨⟨.arrayBuffer, 0x100000000, 0⟩, ⟨placed.take 6, placed.drop 7, ?_, by decide, ?_⟩, rfl⟩
    · rw [geometry.eq_layOut]
      decide
    · rw [geometry.eq_layOut]
      decide
  · obtain ⟨file, written⟩ := Image.sample_written
    obtain ⟨header, _, -, -, -, made, -⟩ := table_reread written
    obtain ⟨_, -, -, -, -, -, -, -, -, reread⟩ := geometry_exact header
    obtain ⟨table, -, -, read, own, -, -, parsed, again⟩ := reread Image.sample none file written made
    exact ⟨file, header, table, read, written, made, own, parsed, again⟩

end SegmentTable
end CodeImage
