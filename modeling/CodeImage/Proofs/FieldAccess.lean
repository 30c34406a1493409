import CodeImage.Proofs.Checked
import CodeImage.Proofs.InPlace

-- An access needs the word that holds the field. That word is part of the record unless the field has no bits and
-- stands behind a record that fills its last word.

namespace CodeImage

-- Bit `n` of a byte string, the low bit of each byte first.
def bitAt (data : ByteArray) (n : Nat) : Bool := (byteAt data (n / 8)).toNat.testBit (n % 8)

theorem bitAt_byte (data : ByteArray) (i : Nat) {k : Nat} (small : k < 8) :
    bitAt data (8 * i + k) = (byteAt data i).toNat.testBit k := by
  rw [bitAt, show (8 * i + k) / 8 = i by omega, show (8 * i + k) % 8 = k by omega]

theorem bytes_ext_bits {a b : ByteArray} (size : a.size = b.size) (same : ∀ n, bitAt a n = bitAt b n) : a = b := by
  apply bytes_ext size
  intro i _
  apply UInt8.toNat_inj.mp
  apply Nat.eq_of_testBit_eq
  intro k
  by_cases small : k < 8
  · rw [← bitAt_byte a i small, ← bitAt_byte b i small, same]
  · have clear (x : UInt8) : x.toNat.testBit k = false :=
      Nat.testBit_lt_two_pow (Nat.lt_of_lt_of_le x.toNat_lt (Nat.pow_le_pow_right (by decide) (by omega)))
    rw [clear, clear]

theorem testBit_natAt (data : ByteArray) (pos width i : Nat) :
    (natAt data pos width).testBit i = (decide (i < 8 * width) && bitAt data (8 * pos + i)) := by
  induction width generalizing pos i with
  | zero => simp [natAt]
  | succ width ih =>
    have byte : (byteAt data pos).toNat < 2 ^ 8 := (byteAt data pos).toNat_lt
    have shape : natAt data pos (width + 1) = 2 ^ 8 * natAt data (pos + 1) width + (byteAt data pos).toNat :=
      Nat.add_comm ..
    rw [shape, Nat.testBit_two_pow_mul_add _ byte]
    by_cases small : i < 8
    · rw [if_pos small, bitAt_byte data pos small]
      simp [show i < 8 * (width + 1) by omega]
    · rw [if_neg small, ih, show 8 * (pos + 1) + (i - 8) = 8 * pos + i by omega]
      congr 1
      simp only [decide_eq_decide]
      omega

theorem bitAt_setNat {data : ByteArray} {pos width : Nat} (room : pos + width ≤ data.size) (value n : Nat) :
    bitAt (setNat data pos width value) n =
      if 8 * pos ≤ n ∧ n < 8 * (pos + width) then value.testBit (n - 8 * pos) else bitAt data n := by
  split
  · next inside =>
    have spelled := testBit_natAt (setNat data pos width value) pos width (n - 8 * pos)
    rw [natAt_setNat value room, show (256 : Nat) = 2 ^ 8 from rfl, ← pow_mul, Nat.testBit_mod_two_pow,
      show 8 * pos + (n - 8 * pos) = n by omega] at spelled
    simpa [show n - 8 * pos < 8 * width by omega] using spelled.symm
  · next outside =>
    rw [bitAt, bitAt, byteAt_setNat_of_not_mem]
    omega

theorem natAt_append {a : ByteArray} {pos width : Nat} (room : pos + width ≤ a.size) (b : ByteArray) :
    natAt (a ++ b) pos width = natAt a pos width := by
  have same := (Holds.prefix_append a b).natAt room
  rwa [Nat.zero_add] at same

-- Bytes in front and behind are carried along.
theorem setNat_between (front : ByteArray) {chunk : ByteArray} (back : ByteArray) {pos width : Nat}
    (room : pos + width ≤ chunk.size) (value : Nat) :
    setNat (front ++ chunk ++ back) (front.size + pos) width value = front ++ setNat chunk pos width value ++ back := by
  induction width generalizing chunk pos value with
  | zero => rfl
  | succ width ih =>
    have inside : pos < chunk.size := by omega
    have whole : front.size + pos < (front ++ chunk ++ back).size := by
      rw [ByteArray.size_append, ByteArray.size_append]
      omega
    have size := size_set chunk pos value.toUInt8 inside
    have first : (front ++ chunk ++ back).set (front.size + pos) value.toUInt8 =
        front ++ chunk.set pos value.toUInt8 ++ back := by
      apply bytes_ext
      · simp only [size_set, ByteArray.size_append, size]
      · intro i _
        have same : i = front.size + pos ↔ i - front.size = pos ∧ front.size ≤ i := by omega
        simp only [byteAt_set, byteAt_append, ByteArray.size_append, size]
        split
        · next here => rw [if_pos (by omega), if_neg (by omega), if_pos (by omega)]
        · next apart =>
          split
          · split
            · rfl
            · rw [if_neg (by omega)]
          · rfl
    have later : pos + 1 + width ≤ (chunk.set pos value.toUInt8).size := by
      rw [size]
      omega
    rw [setNat, setNat, dif_pos whole, dif_pos inside, first]
    exact ih later (value / 256)

namespace Field

variable {f : Field} {data : ByteArray} {pos : Nat}

theorem testBit_read (inside : f.Inside) (data : ByteArray) (pos i : Nat) :
    (f.read data pos).toNat.testBit i = (decide (i < f.bits) && bitAt data (8 * pos + f.offset + i)) := by
  have small : f.get (natAt data (pos + f.wordPos) 4) < 2 ^ 32 := by
    have bound : f.get (natAt data (pos + f.wordPos) 4) < 2 ^ f.bits := Nat.mod_lt _ (Nat.two_pow_pos f.bits)
    exact Nat.lt_of_lt_of_le bound (Nat.pow_le_pow_right (by decide) (by unfold Inside at inside; omega))
  rw [read, toNat_toUInt32_of_lt small, testBit_get, testBit_natAt]
  unfold Inside at inside
  by_cases within : i < f.bits
  · have place : 8 * (pos + f.wordPos) + (i + f.shift) = 8 * pos + f.offset + i := by
      unfold wordPos shift
      omega
    rw [place]
    simp [within, show i + f.shift < 32 by omega]
  · simp [within]

theorem bitAt_write (inside : f.Inside) (room : pos + f.wordPos + 4 ≤ data.size) (value : UInt32) (n : Nat) :
    bitAt (f.write data pos value) n =
      if 8 * pos + f.offset ≤ n ∧ n < 8 * pos + f.offset + f.bits then value.toNat.testBit (n - (8 * pos + f.offset))
      else bitAt data n := by
  rw [write, bitAt_setNat room]
  -- The bits of the word are numbered from the word's own first bit on.
  have start : 8 * (pos + f.wordPos) + f.shift = 8 * pos + f.offset := by
    unfold wordPos shift
    omega
  unfold Inside at inside
  by_cases word : 8 * (pos + f.wordPos) ≤ n ∧ n < 8 * (pos + f.wordPos + 4)
  · rw [if_pos word, testBit_put]
    by_cases own : 8 * pos + f.offset ≤ n ∧ n < 8 * pos + f.offset + f.bits
    · rw [if_pos (by omega), if_pos own]
      congr 1
      omega
    · rw [if_neg (by omega), if_neg own, testBit_natAt, show 8 * (pos + f.wordPos) + (n - 8 * (pos + f.wordPos)) = n by omega]
      simp [show n - 8 * (pos + f.wordPos) < 32 by omega]
  · rw [if_neg word, if_neg (by omega)]

theorem byteAt_write_of_not_mem {i : Nat} (outside : i < pos + f.wordPos ∨ pos + f.wordPos + 4 ≤ i) (value : UInt32) :
    byteAt (f.write data pos value) i = byteAt data i := byteAt_setNat_of_not_mem outside

-- Writing what is there changes nothing.
theorem write_read (inside : f.Inside) (room : pos + f.wordPos + 4 ≤ data.size) :
    f.write data pos (f.read data pos) = data := by
  apply bytes_ext_bits (size_write ..)
  intro n
  rw [bitAt_write inside room]
  split
  · next own =>
    rw [testBit_read inside, show 8 * pos + f.offset + (n - (8 * pos + f.offset)) = n by omega]
    simp [show n - (8 * pos + f.offset) < f.bits by omega]
  · rfl

theorem fits_iff_cut (f : Field) (value : UInt32) : f.fits value = true ↔ f.cut value = value := by
  constructor
  · exact cut_of_fits
  · intro same
    rw [fits_iff, ← same, cut, toNat_toUInt32]
    exact Nat.lt_of_le_of_lt (Nat.mod_le ..) (Nat.mod_lt _ (Nat.two_pow_pos f.bits))

-- What stands behind the word is carried along.
theorem read_append {a : ByteArray} (room : pos + f.wordPos + 4 ≤ a.size) (b : ByteArray) :
    f.read (a ++ b) pos = f.read a pos := by
  rw [read, read, natAt_append room]

theorem write_between {chunk : ByteArray} (room : pos + f.wordPos + 4 ≤ chunk.size) (front back : ByteArray)
    (value : UInt32) :
    f.write (front ++ chunk ++ back) (front.size + pos) value = front ++ f.write chunk pos value ++ back := by
  have word : natAt (front ++ chunk ++ back) (front.size + (pos + f.wordPos)) 4 = natAt chunk (pos + f.wordPos) 4 :=
    ((Holds.suffix_append front chunk).append_left back).natAt room
  rw [write, write, Nat.add_assoc, word, setNat_between front back room]

theorem write_append {a : ByteArray} (room : pos + f.wordPos + 4 ≤ a.size) (b : ByteArray) (value : UInt32) :
    f.write (a ++ b) pos value = f.write a pos value ++ b := by
  have carried := write_between room ByteArray.empty b value
  rwa [ByteArray.empty_append, ByteArray.empty_append, ByteArray.size_empty, Nat.zero_add] at carried

-- A field without bits holds nothing and keeps nothing.
theorem read_of_no_bits (empty : f.bits = 0) (data : ByteArray) (pos : Nat) : f.read data pos = 0 := by
  have small := f.toNat_read_lt data pos
  rw [empty] at small
  exact UInt32.toNat_inj.mp (by simpa using small)

theorem write_of_no_bits (empty : f.bits = 0) (room : pos + f.wordPos + 4 ≤ data.size) (value : UInt32) :
    f.write data pos value = data := by
  have inside : f.Inside := by
    have := Nat.mod_lt f.offset (show 0 < 32 by decide)
    unfold Inside shift
    omega
  apply bytes_ext_bits (size_write ..)
  intro n
  rw [bitAt_write inside room, if_neg (by omega)]

end Field

namespace Layout

variable {layout : Layout} {widths : List (String × Nat)} {data : ByteArray} {index : Nat} {field : Field}

theorem build_ok_iff : build widths = .ok layout ↔ firstFault 0 widths = none ∧ layout = ofWidths widths := by
  unfold build
  split
  · next fault => simp [fault]
  · next sound => simp [sound, eq_comm]

theorem packed_of_build (built : build widths = .ok layout) (positive : ∀ w ∈ widths, 0 < w.2) : layout.Packed := by
  obtain ⟨sound, rfl⟩ := build_ok_iff.mp built
  exact packed_ofWidths sound positive

-- The field has no bits, and all bits of the record stand in front of it and fill their last word.
structure PastEnd (layout : Layout) (field : Field) : Prop where
  empty : field.bits = 0
  last : field.offset = layout.bitSize
  full : layout.bitSize % 32 = 0

theorem wordPos_of_pastEnd (past : layout.PastEnd field) : field.wordPos = layout.byteSize := by
  obtain ⟨-, last, full⟩ := past
  unfold Field.wordPos byteSize align4
  omega

-- Every other field ends in front of the end of the bits or leaves room in its word.
theorem wordPos_of_not_pastEnd (built : build widths = .ok layout) (member : field ∈ layout.fields)
    (within : ¬ layout.PastEnd field) : field.wordPos + 4 ≤ layout.byteSize := by
  obtain ⟨-, rfl⟩ := build_ok_iff.mp built
  have bounds : field.offset + field.bits ≤ 0 + (ofWidths widths).bitSize := (offset_of_mem_place member).2
  have early : field.bits = 0 → field.offset = (ofWidths widths).bitSize → (ofWidths widths).bitSize % 32 ≠ 0 :=
    fun empty last full => within ⟨empty, last, full⟩
  unfold Field.wordPos byteSize align4
  omega

theorem read?_of_found (found : layout.fields[index]? = some field) (data : ByteArray) :
    layout.read? data index = if field.wordPos + 4 ≤ data.size then some (field.read data 0) else none := by
  rw [read?, found]

theorem write?_of_found (found : layout.fields[index]? = some field) (data : ByteArray) (value : UInt32) :
    layout.write? data index value = if field.wordPos + 4 ≤ data.size then some (field.write data 0 value) else none := by
  rw [write?, found]

-- A field whose word is in the record is read from the record alone, and written there.
theorem access_of_room (found : layout.fields[index]? = some field) {record : ByteArray}
    (room : field.wordPos + 4 ≤ record.size) (rest : ByteArray) :
    layout.read? record index = some (field.read record 0) ∧
      layout.read? (record ++ rest) index = some (field.read record 0) ∧
      ∀ value, layout.write? record index value = some (field.write record 0 value) ∧
        layout.write? (record ++ rest) index value = some (field.write record 0 value ++ rest) := by
  have more : field.wordPos + 4 ≤ (record ++ rest).size := by
    rw [ByteArray.size_append]
    omega
  have start : 0 + field.wordPos + 4 ≤ record.size := by omega
  refine ⟨by rw [read?_of_found found, if_pos room], ?_, ?_⟩
  · rw [read?_of_found found, if_pos more, Field.read_append start]
  · intro value
    rw [write?_of_found found, write?_of_found found, if_pos room, if_pos more, Field.write_append start]
    exact ⟨rfl, rfl⟩

-- An access touches the record alone and finds every byte there, but for a field without bits behind a record that
-- fills its words: that access needs four more bytes, from which it takes nothing and in which it changes nothing.
theorem access_within_record (built : build widths = .ok layout) (room : layout.byteSize ≤ data.size)
    (found : layout.fields[index]? = some field) :
    (¬ layout.PastEnd field →
      (∃ value, layout.read? (data.extract 0 layout.byteSize) index = some value ∧
        layout.read? data index = some value) ∧
      ∀ value, ∃ record, layout.write? (data.extract 0 layout.byteSize) index value = some record ∧
        record.size = layout.byteSize ∧
        layout.write? data index value = some (record ++ data.extract layout.byteSize data.size)) ∧
    (layout.PastEnd field →
      layout.read? data index = (if layout.byteSize + 4 ≤ data.size then some 0 else none) ∧
      ∀ value, layout.write? data index value = if layout.byteSize + 4 ≤ data.size then some data else none) := by
  have member : field ∈ layout.fields := List.mem_of_getElem? found
  refine ⟨?_, ?_⟩
  · intro within
    have size : (data.extract 0 layout.byteSize).size = layout.byteSize := by
      rw [ByteArray.size_extract]
      omega
    have parts : data.extract 0 layout.byteSize ++ data.extract layout.byteSize data.size = data := by
      rw [ByteArray.extract_append_extract, Nat.zero_min, Nat.max_eq_right room, ByteArray.extract_zero_size]
    have word : field.wordPos + 4 ≤ (data.extract 0 layout.byteSize).size := by
      rw [size]
      exact wordPos_of_not_pastEnd built member within
    obtain ⟨alone, whole, writes⟩ := access_of_room found word (data.extract layout.byteSize data.size)
    rw [parts] at whole writes
    refine ⟨⟨_, alone, whole⟩, ?_⟩
    intro value
    exact ⟨_, (writes value).1, by rw [Field.size_write, size], (writes value).2⟩
  · intro past
    have word := wordPos_of_pastEnd past
    refine ⟨?_, ?_⟩
    · rw [read?_of_found found, word, Field.read_of_no_bits past.empty]
    · intro value
      rw [write?_of_found found, word]
      split
      · next more => rw [Field.write_of_no_bits past.empty (by rw [word]; omega)]
      · rfl

-- Two fields without bits, one inside the record and one behind it.
def sampleGaps : Layout := ofWidths [("low", 5), ("gap", 0), ("high", 27), ("end", 0)]

theorem sampleGaps_pastEnd : sampleGaps.PastEnd ⟨"end", 0, 32⟩ := ⟨by decide, by decide, by decide⟩

theorem sample_access_within_record :
    build [("low", 5), ("gap", 0), ("high", 27), ("end", 0)] = .ok sampleGaps ∧
    sampleGaps.byteSize ≤ (zeros 4).size ∧
    (∃ value, sampleGaps.read? (zeros 4) 1 = some value) ∧
    sampleGaps.read? (zeros 8) 3 = some 0 ∧ sampleGaps.write? (zeros 8) 3 9 = some (zeros 8) := by
  have built : build [("low", 5), ("gap", 0), ("high", 27), ("end", 0)] = .ok sampleGaps := by decide
  have inner : sampleGaps.fields[1]? = some ⟨"gap", 0, 5⟩ := by decide
  have last : sampleGaps.fields[3]? = some ⟨"end", 0, 32⟩ := by decide
  have within : ¬ sampleGaps.PastEnd ⟨"gap", 0, 5⟩ := fun past => absurd past.last (by decide)
  have four : sampleGaps.byteSize ≤ (zeros 4).size := by decide
  have eight : sampleGaps.byteSize ≤ (zeros 8).size := by decide
  obtain ⟨⟨value, -, read⟩, -⟩ := (access_within_record built four inner).1 within
  obtain ⟨none, kept⟩ := (access_within_record built eight last).2 sampleGaps_pastEnd
  exact ⟨built, four, ⟨value, read⟩, none, kept 9⟩

-- The bytes of a record are not always enough to read and write its fields.
theorem access_leaves_record :
    ¬ ∀ (widths : List (String × Nat)) (layout : Layout) (data : ByteArray) (index : Nat),
      build widths = .ok layout → layout.byteSize ≤ data.size → index < layout.fields.length →
      (layout.read? data index).isSome ∧ ∀ value, (layout.write? data index value).isSome := by
  intro all
  obtain ⟨read, -⟩ := all [("word", 32), ("end", 0)] (ofWidths [("word", 32), ("end", 0)]) (zeros 4) 1
    (by decide) (by decide) (by decide)
  exact absurd read (by decide)

end Layout
end CodeImage
