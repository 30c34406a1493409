import CodeImage.Image.Reader
import CodeImage.Proofs.Outcome
import CodeImage.Proofs.Records

namespace CodeImage

namespace Region

-- `part` stands in the region at a file offset.
def Has (region : Region) (offset : Nat) (part : ByteArray) : Prop :=
  region.base ≤ offset ∧ Holds region.bytes (offset - region.base) part

-- The bytes of `data` from `base` to `stop`, as a region.
def window (data : ByteArray) (base stop : Nat) : Region := ⟨base, data.extract base stop⟩

variable {region : Region} {offset : Nat} {part : ByteArray}

theorem has_window {data : ByteArray} {base stop : Nat} (holds : Holds data offset part) (low : base ≤ offset)
    (high : offset + part.size ≤ stop) : (window data base stop).Has offset part := by
  obtain ⟨room, same⟩ := holds
  refine ⟨low, ?_, ?_⟩
  · rw [window, ByteArray.size_extract]
    simp only
    omega
  · intro i inside
    rw [window, byteAt_extract]
    simp only
    rw [if_pos (by omega), ← same i inside]
    congr 1
    omega

theorem Has.trans {sub : ByteArray} {q : Nat} (has : region.Has offset part) (inner : Holds part q sub) :
    region.Has (offset + q) sub := by
  refine ⟨by have := has.1; omega, ?_⟩
  have nested := has.2.trans inner
  rwa [show offset - region.base + q = offset + q - region.base by have := has.1; omega] at nested

theorem Has.join {more : ByteArray} (first : region.Has offset part) (second : region.Has (offset + part.size) more) :
    region.Has offset (part ++ more) := by
  refine ⟨first.1, first.2.join ?_⟩
  have low := first.1
  have next := second.2
  rwa [show offset + part.size - region.base = offset - region.base + part.size by omega] at next

theorem Has.slice (has : region.Has offset part) : region.slice offset part.size = .ok part := by
  obtain ⟨low, holds⟩ := has
  have room := holds.1
  rw [Region.slice, if_pos, holds.extract]
  exact ⟨low, by unfold Region.stop; omega⟩

theorem Has.word {k : Nat} (has : region.Has offset part) (room : k + 4 ≤ part.size) :
    region.word (offset + k) = .ok (wordAt part k) := by
  obtain ⟨low, holds⟩ := has
  have inside := holds.1
  rw [Region.word, if_pos, show offset + k - region.base = offset - region.base + k by omega, holds.wordAt room]
  exact ⟨by omega, by unfold Region.stop; omega⟩

theorem Has.wordBytes {words : List UInt32} {i : Nat} (has : region.Has offset (wordBytes words))
    (inside : i < words.length) : region.word (offset + 4 * i) = .ok words[i] := by
  rw [has.word (by rw [size_wordBytes]; omega), wordAt_wordBytes inside]

theorem Has.triple {a b c : UInt32} {rest : List UInt32} (has : region.Has offset (CodeImage.wordBytes (a :: b :: c :: rest))) :
    region.triple offset = .ok (a, b, c) := by
  have first := has.wordBytes (i := 0) (by simp)
  have second := has.wordBytes (i := 1) (by simp)
  have third := has.wordBytes (i := 2) (by simp)
  rw [Nat.mul_zero, Nat.add_zero] at first
  rw [Region.triple, first, ok_bind, show offset + 4 = offset + 4 * 1 from rfl, second, ok_bind,
    show offset + 8 = offset + 4 * 2 from rfl, third]
  rfl

theorem slice_ok_iff {len : Nat} :
    region.slice offset len = .ok part ↔ region.Has offset part ∧ part.size = len := by
  constructor
  · intro sliced
    rw [Region.slice] at sliced
    split at sliced
    · next bounds =>
      obtain rfl := Except.ok.inj sliced
      have room : offset - region.base + len ≤ region.bytes.size := by
        have := bounds.2
        unfold Region.stop at this
        omega
      exact ⟨⟨bounds.1, Holds.of_extract room⟩, by rw [ByteArray.size_extract]; omega⟩
    · cases sliced
  · rintro ⟨has, rfl⟩
    exact has.slice

theorem word_ok_iff {value : UInt32} :
    region.word offset = .ok value ↔ ∃ part, region.slice offset 4 = .ok part ∧ wordAt part 0 = value := by
  constructor
  · intro found
    rw [Region.word] at found
    split at found
    · next bounds =>
      obtain rfl := Except.ok.inj found
      refine ⟨region.bytes.extract (offset - region.base) (offset - region.base + 4), by rw [Region.slice, if_pos bounds], ?_⟩
      have room : offset - region.base + 4 ≤ region.bytes.size := by
        have := bounds.2
        unfold Region.stop at this
        omega
      have same := (Holds.of_extract room).wordAt (k := 0) (by rw [ByteArray.size_extract]; omega)
      exact same.symm
    · cases found
  · rintro ⟨part, sliced, rfl⟩
    obtain ⟨has, size⟩ := slice_ok_iff.mp sliced
    exact has.word (k := 0) (by omega)

-- Every range of `small` can be read from `large`, with the same bytes.
def Within (small large : Region) : Prop :=
  ∀ offset len part, small.slice offset len = .ok part → large.slice offset len = .ok part

theorem window_within {data : ByteArray} {base stop base' stop' : Nat} (low : base' ≤ base) (high : stop ≤ stop')
    (ordered : base ≤ stop) (room : stop ≤ data.size) : (window data base stop).Within (window data base' stop') := by
  intro offset len part sliced
  obtain ⟨⟨start, holds⟩, rfl⟩ := slice_ok_iff.mp sliced
  have size := holds.1
  simp only [window, ByteArray.size_extract] at start size
  by_cases empty : part.size = 0
  · obtain rfl := ByteArray.size_eq_zero_iff.mp empty
    refine Has.slice ⟨by simp only [window]; omega, ?_⟩
    refine ⟨?_, fun i inside => absurd inside (Nat.not_lt_zero i)⟩
    simp only [window, ByteArray.size_extract, ByteArray.size_empty]
    omega
  · have whole : Holds data offset part := by
      refine ⟨by omega, ?_⟩
      intro i inside
      have byte := holds.2 i inside
      simp only [window, byteAt_extract] at byte
      rw [if_pos (by omega)] at byte
      rw [← byte]
      congr 1
      omega
    exact (has_window whole (by omega) (by omega)).slice

namespace Within

variable {small large : Region}

theorem word (within : small.Within large) {offset : Nat} {value : UInt32} (found : small.word offset = .ok value) :
    large.word offset = .ok value := by
  obtain ⟨part, sliced, same⟩ := word_ok_iff.mp found
  exact word_ok_iff.mpr ⟨part, within _ _ _ sliced, same⟩

theorem triple (within : small.Within large) {offset : Nat} {values : UInt32 × UInt32 × UInt32}
    (found : small.triple offset = .ok values) : large.triple offset = .ok values := by
  obtain ⟨a, first, more⟩ := bind_ok_iff.mp found
  obtain ⟨b, second, last⟩ := bind_ok_iff.mp more
  obtain ⟨c, third, done⟩ := bind_ok_iff.mp last
  rw [Region.triple, within.word first, ok_bind, within.word second, ok_bind, within.word third]
  exact done

end Within
end Region

namespace Reader

-- Where the trailer of a function starts, behind the header in full if there is one.
def trailerStart (header : FunctionHeader) : Nat :=
  header.infoOffset.toNat + if header.overflowed then Schema.largeHeader.size else 0

-- The first part of a trailer, and where the second one starts.
def handlerPart (region : Region) (header : FunctionHeader) : Except ImageError (Option (List Handler) × Nat) :=
  if header.hasExceptionHandler then do
    let count ← region.word (trailerStart header)
    let handlers ← readHandlers region count.toNat (trailerStart header + 4) []
    return (some handlers, trailerStart header + 4 + 12 * count.toNat)
  else return (none, trailerStart header)

def debugPart (region : Region) (header : FunctionHeader) (offset : Nat) : Except ImageError (Option DebugOffsets) :=
  if header.hasDebugInfo then do
    let values ← region.triple offset
    return some ⟨values.1, values.2.1, values.2.2⟩
  else return none

theorem readTrailer_eq (region : Region) (header : FunctionHeader) :
    readTrailer region header = (do
      let first ← handlerPart region header
      let debug ← debugPart region header first.2
      return (first.1, debug)) := by
  unfold readTrailer handlerPart debugPart trailerStart
  by_cases announced : header.hasExceptionHandler = true
  · by_cases debug : header.hasDebugInfo = true
    · simp [announced, debug]
    · simp [announced, debug]
  · by_cases debug : header.hasDebugInfo = true
    · simp [announced, debug]
    · simp [announced, debug]

-- The bodies read so far, with that of a header.
def nextBodies (region : Region) (keys : List BodyKey) (stops : List Nat) (header : FunctionHeader)
    (bodies : Array Body) : Except ImageError (Array Body) :=
  if keys.idxOf (bodyKey header) < bodies.size then .ok bodies
  else (readBody region (bodyKey header) (stops.getD (keys.idxOf (bodyKey header)) 0)).map bodies.push

theorem readFunctions_cons (region : Region) (keys : List BodyKey) (stops : List Nat) (header : FunctionHeader)
    (rest : List FunctionHeader) (functions : Array Func) (bodies : Array Body) :
    readFunctions region keys stops (header :: rest) functions bodies = (do
      let bodies ← nextBodies region keys stops header bodies
      let trailer ← readTrailer region header
      readFunctions region keys stops rest
        (functions.push ⟨header, (keys.idxOf (bodyKey header)).toUInt32, trailer.1, trailer.2⟩) bodies) := by
  rw [readFunctions, nextBodies]
  by_cases known : keys.idxOf (bodyKey header) < bodies.size
  · simp [known]
  · cases read : readBody region (bodyKey header) (stops.getD (keys.idxOf (bodyKey header)) 0) with
    | error e => simp only [known, if_false]; rfl
    | ok body => simp only [known, if_false, ok_bind, pure_eq_ok, Except.map]

variable {small large : Region}

theorem resolveHeader_within (within : small.Within large) {record : HeaderRecord} {header : FunctionHeader}
    (found : resolveHeader small record = .ok header) : resolveHeader large record = .ok header := by
  unfold resolveHeader at found ⊢
  split
  · next kept => rwa [if_pos kept] at found
  · next out =>
    rw [if_neg out] at found
    split at found
    · cases found
    · next data sliced => rw [within _ _ _ sliced]; exact found

theorem readBody_within (within : small.Within large) {key : BodyKey} {stop : Nat} {body : Body}
    (found : readBody small key stop = .ok body) : readBody large key stop = .ok body := by
  obtain ⟨code, sliced, more⟩ := bind_ok_iff.mp found
  rw [readBody, within _ _ _ sliced, ok_bind]
  split
  · next room =>
    rw [if_pos room] at more
    obtain ⟨tables, slicedTables, done⟩ := bind_ok_iff.mp more
    rw [within _ _ _ slicedTables]
    exact done
  · next tight => rwa [if_neg tight] at more

theorem readHandlers_within (within : small.Within large) {count offset : Nat} {before handlers : List Handler}
    (found : readHandlers small count offset before = .ok handlers) :
    readHandlers large count offset before = .ok handlers := by
  induction count generalizing offset before with
  | zero => exact found
  | succ count ih =>
    rw [readHandlers] at found ⊢
    split at found
    · cases found
    · next start stop target read =>
      rw [within.triple read]
      exact ih found

theorem readTrailer_within (within : small.Within large) {header : FunctionHeader}
    {trailer : Option (List Handler) × Option DebugOffsets} (found : readTrailer small header = .ok trailer) :
    readTrailer large header = .ok trailer := by
  rw [readTrailer_eq] at found ⊢
  obtain ⟨⟨handlers, offset⟩, first, more⟩ := bind_ok_iff.mp found
  obtain ⟨debug, second, done⟩ := bind_ok_iff.mp more
  refine bind_ok_iff.mpr ⟨(handlers, offset), ?_, bind_ok_iff.mpr ⟨debug, ?_, done⟩⟩
  · unfold handlerPart at first ⊢
    split
    · next announced =>
      rw [if_pos announced] at first
      obtain ⟨count, word, rest⟩ := bind_ok_iff.mp first
      obtain ⟨list, read, last⟩ := bind_ok_iff.mp rest
      rw [within.word word, ok_bind, readHandlers_within within read]
      exact last
    · next absent => rwa [if_neg absent] at first
  · unfold debugPart at second ⊢
    split
    · next announced =>
      rw [if_pos announced] at second
      obtain ⟨values, read, last⟩ := bind_ok_iff.mp second
      rw [within.triple read]
      exact last
    · next absent => rwa [if_neg absent] at second

theorem readFunctions_within (within : small.Within large) {keys : List BodyKey} {stops : List Nat}
    {headers : List FunctionHeader} {functions : Array Func} {bodies : Array Body} {result : Array Func × Array Body}
    (found : readFunctions small keys stops headers functions bodies = .ok result) :
    readFunctions large keys stops headers functions bodies = .ok result := by
  induction headers generalizing functions bodies with
  | nil => exact found
  | cons header rest ih =>
    rw [readFunctions_cons] at found ⊢
    obtain ⟨next, body, more⟩ := bind_ok_iff.mp found
    obtain ⟨trailer, read, last⟩ := bind_ok_iff.mp more
    refine bind_ok_iff.mpr ⟨next, ?_, bind_ok_iff.mpr ⟨trailer, readTrailer_within within read, ih last⟩⟩
    unfold nextBodies at body ⊢
    split
    · next known => rwa [if_pos known] at body
    · next fresh =>
      rw [if_neg fresh] at body
      obtain ⟨new, readNew, done⟩ := map_ok_iff.mp body
      exact map_ok_iff.mpr ⟨new, readBody_within within readNew, done⟩

theorem readDebugInfo_within (within : small.Within large) {offset stop : Nat} {info : Option ByteArray}
    (found : readDebugInfo small offset stop = .ok info) : readDebugInfo large offset stop = .ok info := by
  unfold readDebugInfo at found ⊢
  split
  · next absent => rwa [if_pos absent] at found
  · next present =>
    rw [if_neg present] at found
    split
    · next past => rwa [if_pos past] at found
    · next room =>
      rw [if_neg room] at found
      obtain ⟨part, sliced, done⟩ := map_ok_iff.mp found
      exact map_ok_iff.mpr ⟨part, within _ _ _ sliced, done⟩

end Reader

theorem Tables.finish_within {tables : Tables} {small large : Region} (within : small.Within large) {image : Image}
    (found : tables.finish small = .ok image) : tables.finish large = .ok image := by
  obtain ⟨headers, resolved, more⟩ := bind_ok_iff.mp found
  obtain ⟨assembled, read, last⟩ := bind_ok_iff.mp more
  obtain ⟨info, debug, done⟩ := bind_ok_iff.mp last
  have resolvedLarge : tables.headers.toList.mapM (Reader.resolveHeader large) = .ok headers := by
    rw [mapM_ok_iff] at resolved ⊢
    exact resolved.imp fun _ _ => Reader.resolveHeader_within within
  rw [Tables.finish]
  refine bind_ok_iff.mpr ⟨headers, resolvedLarge, bind_ok_iff.mpr ⟨assembled, ?_, bind_ok_iff.mpr ⟨info, ?_, done⟩⟩⟩
  · exact Reader.readFunctions_within within read
  · exact Reader.readDebugInfo_within within debug

end CodeImage
