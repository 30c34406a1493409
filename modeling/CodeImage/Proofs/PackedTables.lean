import CodeImage.Proofs.RecordChunks

namespace CodeImage

namespace Layout

variable {layout : Layout} {data : ByteArray} {pos : Nat} {values : List UInt32}

theorem writeFields_read {fields : List Field} (inside : ∀ f ∈ fields, f.Inside)
    (room : ∀ f ∈ fields, pos + f.wordPos + 4 ≤ data.size) :
    writeFields data pos (fields.zip (fields.map (·.read data pos))) = data := by
  induction fields with
  | nil => rfl
  | cons f rest ih =>
    obtain ⟨first, others⟩ := List.forall_mem_cons.mp inside
    obtain ⟨firstRoom, otherRoom⟩ := List.forall_mem_cons.mp room
    rw [List.map_cons, List.zip_cons_cons, writeFields_cons, Field.write_read first firstRoom]
    exact ih others otherRoom

theorem bitAt_writeFields {pairs : List (Field × UInt32)} {n : Nat} (inside : ∀ pair ∈ pairs, pair.1.Inside)
    (room : ∀ pair ∈ pairs, pos + pair.1.wordPos + 4 ≤ data.size)
    (outside : ∀ pair ∈ pairs, ¬ (8 * pos + pair.1.offset ≤ n ∧ n < 8 * pos + pair.1.offset + pair.1.bits)) :
    bitAt (writeFields data pos pairs) n = bitAt data n := by
  induction pairs generalizing data with
  | nil => rfl
  | cons pair rest ih =>
    obtain ⟨first, others⟩ := List.forall_mem_cons.mp inside
    obtain ⟨firstRoom, otherRoom⟩ := List.forall_mem_cons.mp room
    obtain ⟨firstOut, otherOut⟩ := List.forall_mem_cons.mp outside
    rw [writeFields_cons, ih others (by simpa using otherRoom) otherOut, Field.bitAt_write first firstRoom,
      if_neg firstOut]

theorem byteAt_writeFields {pairs : List (Field × UInt32)} {size i : Nat}
    (within : ∀ pair ∈ pairs, pair.1.wordPos + 4 ≤ size) (outside : i < pos ∨ pos + size ≤ i) :
    byteAt (writeFields data pos pairs) i = byteAt data i := by
  induction pairs generalizing data with
  | nil => rfl
  | cons pair rest ih =>
    obtain ⟨first, others⟩ := List.forall_mem_cons.mp within
    rw [writeFields_cons, ih others, Field.byteAt_write_of_not_mem (by omega)]

namespace Packed

theorem room (packed : layout.Packed) (room : pos + layout.byteSize ≤ data.size) :
    ∀ f ∈ layout.fields, pos + f.wordPos + 4 ≤ data.size := by
  intro f member
  have within := packed.within f member
  omega

theorem encode_decode (packed : layout.Packed) (room : pos + layout.byteSize ≤ data.size) :
    layout.encode data pos (layout.decode data pos) = data := by
  rw [encode_eq_writeFields, decode]
  exact writeFields_read packed.inside (packed.room room)

theorem bitAt_encode (packed : layout.Packed) (room : pos + layout.byteSize ≤ data.size) {n : Nat}
    (outside : ∀ f ∈ layout.fields, ¬ (8 * pos + f.offset ≤ n ∧ n < 8 * pos + f.offset + f.bits)) :
    bitAt (layout.encode data pos values) n = bitAt data n := by
  rw [encode_eq_writeFields]
  refine bitAt_writeFields ?_ ?_ ?_
  · intro pair member
    exact packed.inside pair.1 (List.of_mem_zip member).1
  · intro pair member
    exact packed.room room pair.1 (List.of_mem_zip member).1
  · intro pair member
    exact outside pair.1 (List.of_mem_zip member).1

theorem byteAt_encode (packed : layout.Packed) {i : Nat} (outside : i < pos ∨ pos + layout.byteSize ≤ i) :
    byteAt (layout.encode data pos values) i = byteAt data i := by
  rw [encode_eq_writeFields]
  refine byteAt_writeFields ?_ outside
  intro pair member
  exact packed.within pair.1 (List.of_mem_zip member).1

theorem decode_congr (packed : layout.Packed) {other : ByteArray} {place : Nat}
    (same : ∀ i < layout.byteSize, byteAt data (pos + i) = byteAt other (place + i)) :
    layout.decode data pos = layout.decode other place := by
  apply List.map_congr_left
  intro f member
  have within := packed.within f member
  have word : natAt data (pos + f.wordPos) 4 = natAt other (place + f.wordPos) 4 := by
    apply natAt_congr
    intro k small
    have byte := same (f.wordPos + k) (by omega)
    rwa [← Nat.add_assoc, ← Nat.add_assoc] at byte
  rw [Field.read, Field.read, word]

-- Writing one field, by its number.
theorem write_field (packed : layout.Packed) (room : layout.byteSize ≤ data.size) {index : Nat} {field : Field}
    (found : layout.fields[index]? = some field) (value : UInt32) :
    layout.write? data index value = some (field.write data 0 value) ∧
      layout.read? (field.write data 0 value) index = some (field.cut value) ∧
      ∀ other, other ≠ index → layout.read? (field.write data 0 value) other = layout.read? data other := by
  have member : field ∈ layout.fields := List.mem_of_getElem? found
  have within := packed.within field member
  have start : 0 + field.wordPos + 4 ≤ data.size := by omega
  refine ⟨?_, ?_, ?_⟩
  · rw [write?_of_found found, if_pos (by omega)]
  · rw [read?_of_found found, Field.size_write, if_pos (by omega),
      Field.read_write_self (packed.inside field member) start]
  · intro other differs
    cases neighbour : layout.fields[other]? with
    | none => rw [read?, read?, neighbour]
    | some g =>
      obtain ⟨left, rfl⟩ := List.getElem?_eq_some_iff.mp found
      obtain ⟨right, rfl⟩ := List.getElem?_eq_some_iff.mp neighbour
      have apart : (layout.fields[index]).Apart (layout.fields[other]) := by
        rcases Nat.lt_or_gt_of_ne differs with before | behind
        · exact (List.pairwise_iff_getElem.mp packed.apart other index right left before).symm
        · exact List.pairwise_iff_getElem.mp packed.apart index other left right behind
      rw [read?_of_found neighbour, read?_of_found neighbour, Field.size_write,
        Field.read_write_apart apart (packed.inside _ (List.getElem_mem right)) start]

end Packed
end Layout

namespace Schema

variable {α : Type} {schema : Schema α} {data : ByteArray} {pos : Nat} {records : List α}

-- A kind of record that is nothing but its fields.
structure OfFields (schema : Schema α) : Prop where
  count : ∀ record, (schema.toWords record).length = schema.layout.fields.length
  ofWords_toWords : ∀ record, schema.ofWords (schema.toWords record) = record
  toWords_ofWords : ∀ words, words.length = schema.layout.fields.length → schema.toWords (schema.ofWords words) = words

theorem map_getD_range {words : List UInt32} {n : Nat} (count : words.length = n) :
    (List.range n).map (words.getD · 0) = words := by
  apply List.ext_getElem
  · simp [count]
  · intro i left right
    simp [List.getElem?_eq_getElem right]

-- Every kind of record in a file is one.
theorem kinds_ofFields : smallHeader.OfFields ∧ largeHeader.OfFields ∧ kindRun.OfFields ∧ identifierHash.OfFields ∧
    stringSlot.OfFields ∧ extent.OfFields ∧ functionSource.OfFields := by
  refine ⟨?_, ?_, ?_, ?_, ?_, ?_, ?_⟩
  all_goals exact ⟨fun _ => rfl, fun _ => rfl, fun _ count => map_getD_range count⟩

theorem OfFields.lawful (fields : schema.OfFields) (packed : schema.layout.Packed) : schema.Lawful :=
  ⟨packed, fields.count, fields.ofWords_toWords⟩

theorem byteAt_place (packed : schema.layout.Packed) {i : Nat}
    (outside : i < pos ∨ pos + records.length * schema.size ≤ i) :
    byteAt (schema.place data pos records) i = byteAt data i := by
  induction records generalizing data pos with
  | nil => rfl
  | cons record rest ih =>
    rw [List.length_cons, Nat.add_mul, Nat.one_mul] at outside
    rw [place, ih (by omega)]
    exact packed.byteAt_encode (by unfold size at outside; omega)

-- Every record is read where it was written; the records behind it leave it alone.
theorem decode_place (lawful : schema.Lawful) (room : pos + records.length * schema.size ≤ data.size) {i : Nat}
    (known : i < records.length) :
    schema.decode (schema.place data pos records) (pos + i * schema.size) = schema.cut records[i] := by
  induction records generalizing data pos i with
  | nil => cases known
  | cons record rest ih =>
    rw [List.length_cons, Nat.add_mul, Nat.one_mul] at room
    cases i with
    | zero =>
      have alone : schema.layout.decode (schema.place data pos (record :: rest)) pos =
          schema.layout.decode (schema.layout.encode data pos (schema.toWords record)) pos := by
        refine lawful.packed.decode_congr ?_
        intro k small
        rw [place, byteAt_place lawful.packed (by unfold size; omega)]
      have enough : pos + schema.layout.byteSize ≤ data.size := by
        unfold size at room
        omega
      have written := Layout.decode_encode lawful.packed enough (lawful.count record)
      rw [Nat.zero_mul, Nat.add_zero, decode, alone, written, List.getElem_cons_zero, cut]
    | succ i =>
      have enough : pos + schema.size + rest.length * schema.size ≤
          (schema.layout.encode data pos (schema.toWords record)).size := by
        rw [Layout.size_encode]
        omega
      have place_eq : pos + (i + 1) * schema.size = pos + schema.size + i * schema.size := by
        rw [Nat.add_mul]
        omega
      rw [place, place_eq, ih enough (Nat.lt_of_succ_lt_succ known), List.getElem_cons_succ]

theorem writeMany_ok_iff (lawful : schema.Lawful) (positive : 0 < schema.size) {offset : Nat} {out : ByteArray} :
    schema.writeMany data offset records = .ok out ↔
      offset + records.length * schema.size < addressLimit ∧ offset + records.length * schema.size ≤ data.size ∧
        out = schema.place data offset records := by
  simp only [writeMany, Nat.ne_of_gt positive, if_false]
  split
  · next past => simp only [reduceCtorEq, false_iff]; omega
  · next address =>
    split
    · next room => simp [put?_eq_place lawful room, room, Nat.lt_of_not_le address, eq_comm]
    · next short => simp [short]

-- A table that was written is read back from its place.
theorem parseMany_place (lawful : schema.Lawful) (positive : 0 < schema.size)
    (room : pos + records.length * schema.size ≤ data.size) :
    schema.parseMany ((schema.place data pos records).extract pos (pos + records.length * schema.size)) =
      .ok (records.map schema.cut).toArray := by
  have size : ((schema.place data pos records).extract pos (pos + records.length * schema.size)).size =
      records.length * schema.size := by
    rw [ByteArray.size_extract, size_place]
    omega
  rw [parseMany, if_pos (by rw [size]; exact Nat.mul_mod_left ..)]
  congr 1
  apply Array.ext
  · simp [size, Nat.mul_div_cancel _ positive]
  · intro i left right
    have known : i < records.length := by simpa using right
    have last : (i + 1) * schema.size ≤ records.length * schema.size := Nat.mul_le_mul_right _ known
    rw [Nat.add_mul, Nat.one_mul] at last
    have same : schema.layout.decode
        ((schema.place data pos records).extract pos (pos + records.length * schema.size)) (i * schema.size) =
        schema.layout.decode (schema.place data pos records) (pos + i * schema.size) := by
      refine lawful.packed.decode_congr ?_
      intro k small
      have inside : k < schema.size := small
      rw [byteAt_extract, if_pos (by omega), ← Nat.add_assoc]
    have read := decode_place lawful room known
    simp only [Array.getElem_ofFn, List.getElem_toArray, List.getElem_map]
    rw [← read, decode, decode, same]

theorem OfFields.toWords_cut (fields : schema.OfFields) (record : α) :
    schema.toWords (schema.cut record) = schema.layout.fields.zipWith Field.cut (schema.toWords record) := by
  apply fields.toWords_ofWords
  rw [List.length_zipWith, fields.count, Nat.min_self]

end Schema

namespace Layout

variable {layout : Layout} {widths : List (String × Nat)}

theorem map_place (start : Nat) (widths : List (String × Nat)) :
    (place start widths).map (fun field => (field.name, field.bits)) = widths := by
  induction widths generalizing start with
  | nil => rfl
  | cons width rest ih => rw [place, List.map_cons, ih]

theorem byteSize_pos (packed : layout.Packed) (some : layout.fields ≠ []) : 0 < layout.byteSize := by
  obtain ⟨field, member⟩ := List.exists_mem_of_ne_nil _ some
  have within := packed.within field member
  omega

-- What is true of every layout whose fields all have bits, for single fields, for all fields at once and for tables.
theorem codec_laws (built : build widths = .ok layout) (positive : ∀ width ∈ widths, 0 < width.2) :
    layout.fields.map (fun field => (field.name, field.bits)) = widths ∧
    (∀ data : ByteArray, layout.byteSize ≤ data.size →
      (∀ index field value, layout.fields[index]? = some field → ∃ out,
        layout.write? data index value = some out ∧ out.size = data.size ∧
        layout.read? out index = some (value.toNat % 2 ^ field.bits).toUInt32 ∧
        (∀ other, other ≠ index → layout.read? out other = layout.read? data other) ∧
        (∀ n, ¬ (field.offset ≤ n ∧ n < field.offset + field.bits) → bitAt out n = bitAt data n) ∧
        (layout.fits? index value = some true ↔ layout.read? out index = some value)) ∧
      (∀ values, values.length = widths.length → ∃ out,
        layout.writeAll data values = (out, true) ∧ out.size = data.size ∧
        layout.readAll? out = some (layout.fields.zipWith
          (fun field value => (value.toNat % 2 ^ field.bits).toUInt32) values) ∧
        ∀ n, (∀ field ∈ layout.fields, ¬ (field.offset ≤ n ∧ n < field.offset + field.bits)) →
          bitAt out n = bitAt data n) ∧
      ∃ values, layout.readAll? data = some values ∧ layout.writeAll data values = (data, true)) ∧
    (widths ≠ [] → ∀ (α : Type) (schema : Schema α), schema.layout = layout → schema.OfFields →
      ∀ data offset records,
        (offset + records.length * schema.size ≤ data.size → data.size < addressLimit →
          ∃ out, schema.writeMany data offset records = .ok out) ∧
        ∀ out, schema.writeMany data offset records = .ok out → out.size = data.size ∧
          (∀ i, i < offset ∨ offset + records.length * schema.size ≤ i → byteAt out i = byteAt data i) ∧
          ∃ back, schema.parseMany (out.extract offset (offset + records.length * schema.size)) = .ok back ∧
            back.toList.map schema.toWords = records.map fun record =>
              layout.fields.zipWith (fun field value => (value.toNat % 2 ^ field.bits).toUInt32)
                (schema.toWords record)) := by
  have packed := packed_of_build built positive
  have names : layout.fields.map (fun field => (field.name, field.bits)) = widths := by
    obtain ⟨-, rfl⟩ := build_ok_iff.mp built
    exact map_place 0 widths
  have length : layout.fields.length = widths.length := by
    rw [← names, List.length_map]
  refine ⟨names, ?_, ?_⟩
  · intro data room
    have start : 0 + layout.byteSize ≤ data.size := by omega
    refine ⟨?_, ?_, ?_⟩
    · intro index field value found
      obtain ⟨written, back, others⟩ := packed.write_field room found value
      have member : field ∈ layout.fields := List.mem_of_getElem? found
      refine ⟨_, written, Field.size_write .., back, others, ?_, ?_⟩
      · intro n outside
        rw [Field.bitAt_write (packed.inside field member) (packed.room start field member), if_neg (by omega)]
      · rw [back, fits?, found, Option.map_some, Option.some.injEq, Option.some.injEq]
        exact field.fits_iff_cut value
    · intro values count
      refine ⟨_, writeAll_eq packed room (by omega), size_encode .., ?_, ?_⟩
      · rw [readAll?_of_le packed (by rw [size_encode]; exact room), decode_encode packed start (by omega)]
        rfl
      · intro n outside
        refine packed.bitAt_encode start ?_
        intro field member
        have apart := outside field member
        omega
    · have count : (layout.decode data 0).length = layout.fields.length := List.length_map ..
      refine ⟨_, readAll?_of_le packed room, ?_⟩
      rw [writeAll_eq packed room count, packed.encode_decode start]
  · intro nonempty α schema same fields data offset records
    subst same
    have lawful := fields.lawful packed
    have size : 0 < schema.size := by
      refine byteSize_pos packed ?_
      rintro empty
      rw [empty] at names
      exact nonempty names.symm
    refine ⟨?_, ?_⟩
    · intro room address
      exact ⟨_, (Schema.writeMany_ok_iff lawful size).mpr ⟨by omega, room, rfl⟩⟩
    · intro out written
      obtain ⟨-, room, rfl⟩ := (Schema.writeMany_ok_iff lawful size).mp written
      refine ⟨Schema.size_place .., fun i outside => Schema.byteAt_place packed outside, _,
        Schema.parseMany_place lawful size room, ?_⟩
      rw [List.map_map]
      exact List.map_congr_left fun record _ => fields.toWords_cut record

-- Slots of strings with values that do not fit, written over set bits at an odd place.
def sampleSlots : List StringSlot := [⟨3, 0x800005, 256⟩, ⟨0, 1, 2⟩]

theorem sample_codec_laws :
    build [("is_utf16", 1), ("offset", 23), ("length", 8)] = .ok Schema.stringSlot.layout ∧
    (∃ out, Schema.stringSlot.layout.write? ⟨#[255, 255, 255, 255, 255]⟩ 1 0x800005 = some out ∧
      Schema.stringSlot.layout.read? out 1 = some 5 ∧ bitAt out 0 = true ∧ bitAt out 24 = true) ∧
    ∃ out back, Schema.stringSlot.writeMany (zeros 12) 3 sampleSlots = .ok out ∧ byteAt out 11 = 0 ∧
      Schema.stringSlot.parseMany (out.extract 3 11) = .ok back ∧
      back.toList.map Schema.stringSlot.toWords = [[1, 5, 0], [0, 1, 2]] := by
  have built : build [("is_utf16", 1), ("offset", 23), ("length", 8)] = .ok Schema.stringSlot.layout := by decide
  obtain ⟨-, single, tables⟩ := codec_laws built (by decide)
  obtain ⟨out, written, -, back, -, others, -⟩ :=
    (single ⟨#[255, 255, 255, 255, 255]⟩ (by decide)).1 1 ⟨"offset", 23, 1⟩ 0x800005 (by decide)
  obtain ⟨-, -, -, -, fields, -, -⟩ := Schema.kinds_ofFields
  obtain ⟨stores, restores⟩ := tables (by decide) StringSlot Schema.stringSlot rfl fields (zeros 12) 3 sampleSlots
  obtain ⟨stored, done⟩ := stores (by decide) (by decide)
  obtain ⟨-, rest, records, parsed, words⟩ := restores stored done
  refine ⟨built, ⟨out, written, back, ?_, ?_⟩, stored, records, done, ?_, parsed, words⟩
  · rw [others 0 (by decide)]
    decide
  · rw [others 24 (by decide)]
    decide
  · rw [rest 11 (by decide)]
    decide

end Layout
end CodeImage
