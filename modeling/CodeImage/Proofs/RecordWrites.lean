import CodeImage.Proofs.PackedTables

namespace CodeImage

namespace Layout

variable {layout : Layout} {widths : List (String × Nat)}

theorem packed_of_no_pastEnd (built : build widths = .ok layout)
    (held : ∀ field ∈ layout.fields, ¬ layout.PastEnd field) : layout.Packed := by
  have within : ∀ field ∈ layout.fields, field.wordPos + 4 ≤ layout.byteSize :=
    fun field member => wordPos_of_not_pastEnd built member (held field member)
  obtain ⟨sound, rfl⟩ := build_ok_iff.mp built
  exact ⟨place_inside sound, within, place_apart 0 widths⟩

theorem exists_pastEnd_of_no_bytes (built : build widths = .ok layout) (nonempty : widths ≠ [])
    (bare : layout.byteSize = 0) : ∃ field ∈ layout.fields, layout.PastEnd field := by
  by_contra none
  have packed := packed_of_no_pastEnd built fun field member past => none ⟨field, member, past⟩
  have some : layout.fields ≠ [] := by
    obtain ⟨-, rfl⟩ := build_ok_iff.mp built
    rintro empty
    exact nonempty (by rw [← map_place 0 widths, show place 0 widths = [] from empty, List.map_nil])
  have positive := byteSize_pos packed some
  omega

theorem total_bits_le {fields : List Field} (inside : ∀ field ∈ fields, field.Inside) :
    total (fields.map (·.bits)) ≤ 32 * fields.length := by
  induction fields with
  | nil => exact Nat.le_refl 0
  | cons field rest ih =>
    obtain ⟨first, others⟩ := List.forall_mem_cons.mp inside
    have split : total ((field :: rest).map (·.bits)) = field.bits + total (rest.map (·.bits)) := rfl
    have later := ih others
    unfold Field.Inside at first
    rw [split, List.length_cons]
    omega

-- A record takes no more bytes than its fields do as words.
theorem byteSize_le (built : build widths = .ok layout) : layout.byteSize ≤ 4 * widths.length := by
  obtain ⟨sound, rfl⟩ := build_ok_iff.mp built
  have bits : (ofWidths widths).bitSize ≤ 32 * (place 0 widths).length := total_bits_le (place_inside sound)
  have count := congrArg List.length (map_place 0 widths)
  rw [List.length_map] at count
  unfold byteSize align4
  omega

end Layout

namespace Schema

variable {α : Type} {schema : Schema α} {data : ByteArray} {offset : Nat} {records : List α}

-- A field of the record stands behind its bytes.
def Spills (schema : Schema α) : Prop := ∃ field ∈ schema.layout.fields, schema.layout.PastEnd field

-- What a write of `records` at `offset` comes to. A write that fails gives no new buffer.
structure Bounded (schema : Schema α) (data : ByteArray) (offset : Nat) (records : List α)
    (result : Except WriteFault ByteArray) : Prop where
  overflow : result = .error .addressOverflow ↔ addressLimit ≤ offset + records.length * schema.size
  refused : ∀ error, result = .error (.refused error) ↔
    offset + records.length * schema.size < addressLimit ∧ data.size < offset + records.length * schema.size ∧
      error = .unexpectedEnd offset (records.length * schema.size) data.size
  tooSmall : result = .error .recordTooSmall ↔
    offset + records.length * schema.size < addressLimit ∧ offset + records.length * schema.size ≤ data.size ∧
      schema.Spills ∧ (records = [] → schema.size = 0)
  stored : (∃ out, result = .ok out) ↔
    offset + records.length * schema.size < addressLimit ∧ offset + records.length * schema.size ≤ data.size ∧
      (schema.Spills → records = [] ∧ 0 < schema.size)
  kept : ∀ out, result = .ok out → out.size = data.size ∧
    ∀ i, i < offset ∨ offset + records.length * schema.size ≤ i → byteAt out i = byteAt data i
  back : ∀ out, result = .ok out → ∀ i (known : i < records.length),
    schema.decode out (offset + i * schema.size) = schema.cut records[i]

theorem writeMany_of_past (past : addressLimit ≤ offset + records.length * schema.size) :
    schema.writeMany data offset records = .error .addressOverflow := if_pos past

theorem writeMany_of_short (address : offset + records.length * schema.size < addressLimit)
    (short : data.size < offset + records.length * schema.size) :
    schema.writeMany data offset records =
      .error (.refused (.unexpectedEnd offset (records.length * schema.size) data.size)) := by
  rw [writeMany, if_neg (Nat.not_le.mpr address), if_neg (Nat.not_le.mpr short)]

variable {widths : List (String × Nat)}

theorem writeMany_of_spills (fields : schema.OfFields) (address : offset + records.length * schema.size < addressLimit)
    (room : offset + records.length * schema.size ≤ data.size) (spills : schema.Spills)
    (needed : records = [] → schema.size = 0) :
    schema.writeMany data offset records = .error .recordTooSmall := by
  obtain ⟨field, member, past⟩ := spills
  have missing : schema.size < field.wordPos + 4 := by
    rw [Layout.wordPos_of_pastEnd past, size]
    omega
  rw [writeMany, if_neg (Nat.not_le.mpr address), if_pos room]
  split
  · rfl
  · next bytes =>
    cases records with
    | nil => exact absurd (needed rfl) bytes
    | cons record rest =>
      rw [List.length_cons, Nat.add_mul, Nat.one_mul] at room
      rw [put?_stops fields.count member missing (by omega)]

theorem OfFields.lawful_of_held (fields : schema.OfFields) (built : Layout.build widths = .ok schema.layout)
    (held : ¬ schema.Spills) : schema.Lawful :=
  fields.lawful (Layout.packed_of_no_pastEnd built fun field member past => held ⟨field, member, past⟩)

theorem writeMany_of_room (built : Layout.build widths = .ok schema.layout) (nonempty : widths ≠ [])
    (fields : schema.OfFields) (address : offset + records.length * schema.size < addressLimit)
    (room : offset + records.length * schema.size ≤ data.size)
    (whole : schema.Spills → records = [] ∧ 0 < schema.size) :
    schema.writeMany data offset records = .ok (schema.place data offset records) := by
  by_cases spills : schema.Spills
  · obtain ⟨rfl, positive⟩ := whole spills
    rw [writeMany, if_neg (Nat.not_le.mpr address), if_pos room, if_neg (Nat.ne_of_gt positive)]
    rfl
  · have positive : 0 < schema.size := by
      refine Nat.pos_of_ne_zero ?_
      intro bare
      exact spills (Layout.exists_pastEnd_of_no_bytes built nonempty bare)
    exact (writeMany_ok_iff (fields.lawful_of_held built spills) positive).mpr ⟨address, room, rfl⟩

theorem byteAt_place_of_whole (built : Layout.build widths = .ok schema.layout) (fields : schema.OfFields)
    (whole : schema.Spills → records = [] ∧ 0 < schema.size) {i : Nat}
    (outside : i < offset ∨ offset + records.length * schema.size ≤ i) :
    byteAt (schema.place data offset records) i = byteAt data i := by
  by_cases spills : schema.Spills
  · obtain ⟨rfl, -⟩ := whole spills
    rfl
  · exact byteAt_place (fields.lawful_of_held built spills).packed outside

theorem decode_place_of_whole (built : Layout.build widths = .ok schema.layout) (fields : schema.OfFields)
    (whole : schema.Spills → records = [] ∧ 0 < schema.size)
    (room : offset + records.length * schema.size ≤ data.size) {i : Nat} (known : i < records.length) :
    schema.decode (schema.place data offset records) (offset + i * schema.size) = schema.cut records[i] := by
  by_cases spills : schema.Spills
  · obtain ⟨rfl, -⟩ := whole spills
    cases known
  · exact decode_place (fields.lawful_of_held built spills) room known

-- The four ways out exclude each other, so each is described by its own condition.
theorem bounded_writeMany (built : Layout.build widths = .ok schema.layout) (nonempty : widths ≠ [])
    (fields : schema.OfFields) (data : ByteArray) (offset : Nat) (records : List α) :
    schema.Bounded data offset records (schema.writeMany data offset records) := by
  rcases Nat.lt_or_ge (offset + records.length * schema.size) addressLimit with address | past
  · have inside : ¬ addressLimit ≤ offset + records.length * schema.size := Nat.not_le.mpr address
    rcases Nat.lt_or_ge data.size (offset + records.length * schema.size) with short | room
    · have none : ¬ offset + records.length * schema.size ≤ data.size := Nat.not_le.mpr short
      rw [writeMany_of_short address short]
      constructor <;> simp [inside, address, short, none, eq_comm]
    · have fit : ¬ data.size < offset + records.length * schema.size := Nat.not_lt.mpr room
      by_cases whole : schema.Spills → records = [] ∧ 0 < schema.size
      · have enough : ¬ (schema.Spills ∧ (records = [] → schema.size = 0)) := by
          rintro ⟨spills, needed⟩
          obtain ⟨empty, positive⟩ := whole spills
          exact Nat.ne_of_gt positive (needed empty)
        rw [writeMany_of_room built nonempty fields address room whole]
        refine ⟨by simp [inside], by simp [fit], by simp [enough], ?_, ?_, ?_⟩
        · exact ⟨fun _ => ⟨address, room, whole⟩, fun _ => ⟨_, rfl⟩⟩
        · rintro out ⟨rfl⟩
          exact ⟨size_place .., fun i outside => byteAt_place_of_whole built fields whole outside⟩
        · rintro out ⟨rfl⟩ i known
          exact decode_place_of_whole built fields whole room known
      · obtain ⟨spills, lacking⟩ := Classical.not_imp.mp whole
        have needed : records = [] → schema.size = 0 := by
          intro empty
          by_contra bytes
          exact lacking ⟨empty, Nat.pos_of_ne_zero bytes⟩
        rw [writeMany_of_spills fields address room spills needed]
        refine ⟨by simp [inside], by simp [fit], ?_, by simp [whole], by simp, by simp⟩
        exact ⟨fun _ => ⟨address, room, spills, needed⟩, fun _ => rfl⟩
  · have outside : ¬ offset + records.length * schema.size < addressLimit := Nat.not_lt.mpr past
    rw [writeMany_of_past past]
    constructor <;> simp [past, outside]

-- One record or many, a write comes to what its bounds say. A kind of record whose fields all have bits holds them,
-- and a list that is in memory, with a word for every field, does not by itself have too many bytes.
theorem writes_in_bounds (built : Layout.build widths = .ok schema.layout) (nonempty : widths ≠ [])
    (fields : schema.OfFields) :
    (∀ data offset records, schema.Bounded data offset records (schema.writeMany data offset records)) ∧
    (∀ data offset record, schema.Bounded data offset [record] (schema.write data offset record)) ∧
    ((∀ width ∈ widths, 0 < width.2) → ¬ schema.Spills) ∧
    ∀ records : List α, records.length * (4 * widths.length) < addressLimit →
      records.length * schema.size < addressLimit := by
  refine ⟨bounded_writeMany built nonempty fields, ?_, ?_, ?_⟩
  · intro data offset record
    exact bounded_writeMany built nonempty fields data offset [record]
  · rintro positive ⟨field, member, past⟩
    obtain ⟨-, same⟩ := Layout.build_ok_iff.mp built
    rw [same] at member
    exact Nat.ne_of_gt (Layout.positive_of_mem_place positive member) past.empty
  · intro records stored
    exact Nat.lt_of_le_of_lt (Nat.mul_le_mul_left _ (Layout.byteSize_le built)) stored

-- A kind of record with a field that has no bits and stands behind a full word.
def sampleTailed : Schema (UInt32 × UInt32) :=
  ⟨.ofWidths [("word", 32), ("end", 0)], fun r => [r.1, r.2], fun words => (words.getD 0 0, words.getD 1 0)⟩

theorem sampleTailed_ofFields : sampleTailed.OfFields :=
  ⟨fun _ => rfl, fun _ => rfl, fun _ count => map_getD_range count⟩

theorem sample_writes_in_bounds :
    (∃ out, kindRun.writeMany (zeros 12) 3 [⟨5, 1⟩, ⟨0x80000007, 2⟩] = .ok out ∧ out.size = 12 ∧
      byteAt out 11 = 0 ∧ kindRun.decode out 7 = ⟨7, 0⟩) ∧
    kindRun.write (zeros 4) 1 ⟨5, 1⟩ = .error (.refused (.unexpectedEnd 1 4 4)) ∧
    kindRun.write (zeros 4) 0xffffffffffffffff ⟨5, 1⟩ = .error .addressOverflow ∧
    sampleTailed.write (zeros 4) 0 (5, 0) = .error .recordTooSmall := by
  have built : Layout.build [("count", 31), ("kind", 1)] = .ok kindRun.layout := by decide
  have tailed : Layout.build [("word", 32), ("end", 0)] = .ok sampleTailed.layout := by decide
  have spills : sampleTailed.Spills := ⟨⟨"end", 0, 32⟩, by decide, ⟨by decide, by decide, by decide⟩⟩
  obtain ⟨-, -, fields, -, -, -, -⟩ := kinds_ofFields
  obtain ⟨many, one, held, -⟩ := writes_in_bounds built (by decide) fields
  obtain ⟨-, alone, -, -⟩ := writes_in_bounds tailed (by decide) sampleTailed_ofFields
  have table := many (zeros 12) 3 [⟨5, 1⟩, ⟨0x80000007, 2⟩]
  obtain ⟨out, done⟩ := table.stored.mpr ⟨by decide, by decide, fun lost => absurd lost (held (by decide))⟩
  obtain ⟨size, kept⟩ := table.kept out done
  have second : kindRun.decode out 7 = kindRun.cut ⟨0x80000007, 2⟩ := table.back out done 1 (by decide)
  refine ⟨⟨out, done, size, ?_, ?_⟩, ?_, ?_, ?_⟩
  · rw [kept 11 (by decide)]
    decide
  · rw [second]
    decide
  · exact ((one (zeros 4) 1 ⟨5, 1⟩).refused _).mpr ⟨by decide, by decide, by decide⟩
  · exact (one (zeros 4) 0xffffffffffffffff ⟨5, 1⟩).overflow.mpr (by decide)
  · exact (alone (zeros 4) 0 (5, 0)).tooSmall.mpr ⟨by decide, by decide, spills, by decide⟩

-- A place near the last address is not refused, though nothing fits there.
theorem unrefused_past_addresses :
    ¬ ∀ (data : ByteArray) (offset : Nat) (record : KindRun), offset < addressLimit →
      data.size < offset + kindRun.size →
      kindRun.write data offset record = .error (.refused (.unexpectedEnd offset kindRun.size data.size)) := by
  intro all
  have refused := all (zeros 4) 0xffffffffffffffff ⟨5, 1⟩ (by decide) (by decide)
  have past : kindRun.write (zeros 4) 0xffffffffffffffff ⟨5, 1⟩ = .error .addressOverflow :=
    writeMany_of_past (by decide)
  rw [past] at refused
  cases refused

end Schema
end CodeImage
