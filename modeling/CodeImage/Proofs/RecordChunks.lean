import CodeImage.Proofs.FieldAccess

-- A record is written into the bytes of its own that are cut out of the buffer. While every field finds its word there,
-- this is the same as writing the fields in the buffer itself.

namespace CodeImage

theorem exists_chunk {data : ByteArray} {pos len : Nat} (room : pos + len ≤ data.size) :
    ∃ front chunk back, data = front ++ chunk ++ back ∧ front.size = pos ∧ chunk.size = len ∧
      slice? data pos len = some chunk := by
  refine ⟨data.extract 0 pos, data.extract pos (pos + len), data.extract (pos + len) data.size, ?_, ?_, ?_, ?_⟩
  · rw [ByteArray.extract_append_extract, Nat.zero_min, Nat.max_eq_right (Nat.le_add_right pos len),
      ByteArray.extract_append_extract, Nat.zero_min, Nat.max_eq_right room, ByteArray.extract_zero_size]
  · rw [ByteArray.size_extract]
    omega
  · rw [ByteArray.size_extract]
    omega
  · exact slice?_of_le room

namespace Layout

variable {layout : Layout} {data : ByteArray} {values : List UInt32}

theorem writeFields_between {pairs : List (Field × UInt32)} {chunk : ByteArray} {pos : Nat}
    (room : ∀ pair ∈ pairs, pos + pair.1.wordPos + 4 ≤ chunk.size) (front back : ByteArray) :
    writeFields (front ++ chunk ++ back) (front.size + pos) pairs = front ++ writeFields chunk pos pairs ++ back := by
  induction pairs generalizing chunk with
  | nil => rfl
  | cons pair rest ih =>
    obtain ⟨first, others⟩ := List.forall_mem_cons.mp room
    rw [writeFields_cons, writeFields_cons, Field.write_between first]
    exact ih (by simpa using others)

theorem Packed.encode_between (packed : layout.Packed) {chunk : ByteArray} (size : chunk.size = layout.byteSize)
    (front back : ByteArray) (values : List UInt32) :
    layout.encode (front ++ chunk ++ back) front.size values = front ++ layout.encode chunk 0 values ++ back := by
  rw [encode_eq_writeFields, encode_eq_writeFields, ← writeFields_between, Nat.add_zero]
  intro pair member
  have within := packed.within pair.1 (List.of_mem_zip member).1
  omega

-- A write that has stopped does not go on.
theorem foldl_stopped (pairs : List (UInt32 × Nat)) (data : ByteArray) :
    pairs.foldl (fun (data, going) (value, index) =>
      if going then
        match layout.write? data index value with
        | some data => (data, true)
        | none => (data, false)
      else (data, false)) (data, false) = (data, false) := by
  induction pairs with
  | nil => rfl
  | cons pair rest ih => exact ih

-- The induction is on the values that are left; the field without a word is one of theirs.
theorem foldl_stops {start : Nat} (count : start + values.length = layout.fields.length) {field : Field}
    (member : field ∈ layout.fields.drop start) (missing : data.size < field.wordPos + 4) :
    ((values.zipIdx start).foldl (fun (data, going) (value, index) =>
      if going then
        match layout.write? data index value with
        | some data => (data, true)
        | none => (data, false)
      else (data, false)) (data, true)).2 = false := by
  induction values generalizing start data with
  | nil =>
    rw [List.drop_eq_nil_of_le (by simpa using Nat.le_of_eq count.symm)] at member
    cases member
  | cons value rest ih =>
    rw [List.length_cons] at count
    have inside : start < layout.fields.length := by omega
    have written := write?_of_found (List.getElem?_eq_getElem inside) data value
    rw [List.drop_eq_getElem_cons inside] at member
    rw [List.zipIdx_cons, List.foldl_cons]
    by_cases room : (layout.fields[start]).wordPos + 4 ≤ data.size
    · rw [if_pos room] at written
      simp only [written, if_true]
      rcases List.mem_cons.mp member with rfl | later
      · omega
      · exact ih (by omega) later (by rw [Field.size_write]; exact missing)
    · rw [if_neg room] at written
      simp only [written, if_true]
      rw [foldl_stopped]

theorem writeAll_stops (count : values.length = layout.fields.length) {field : Field} (member : field ∈ layout.fields)
    (missing : data.size < field.wordPos + 4) : (layout.writeAll data values).2 = false :=
  foldl_stops (by omega) member missing

end Layout

namespace Schema

variable {α : Type} {schema : Schema α} {data : ByteArray} {pos : Nat} {records : List α}

-- Overwrites the records that start at `pos`, in the buffer itself.
def place (schema : Schema α) (data : ByteArray) (pos : Nat) : List α → ByteArray
  | [] => data
  | record :: rest =>
    schema.place (schema.layout.encode data pos (schema.toWords record)) (pos + schema.size) rest

@[simp]
theorem size_place (schema : Schema α) (data : ByteArray) (pos : Nat) (records : List α) :
    (schema.place data pos records).size = data.size := by
  induction records generalizing data pos with
  | nil => rfl
  | cons record rest ih => rw [place, ih, Layout.size_encode]

theorem put?_cons (lawful : schema.Lawful) (room : pos + schema.size ≤ data.size) (record : α) (rest : List α) :
    schema.put? data pos (record :: rest) =
      schema.put? (schema.layout.encode data pos (schema.toWords record)) (pos + schema.size) rest := by
  obtain ⟨front, chunk, back, rfl, rfl, size, found⟩ := exists_chunk room
  have written : schema.layout.writeAll chunk (schema.toWords record) =
      (schema.layout.encode chunk 0 (schema.toWords record), true) :=
    Layout.writeAll_eq lawful.packed (Nat.le_of_eq size.symm) (lawful.count record)
  have copied : copyAt? (front ++ chunk ++ back) front.size (schema.layout.encode chunk 0 (schema.toWords record)) =
      some (schema.layout.encode (front ++ chunk ++ back) front.size (schema.toWords record)) := by
    rw [lawful.packed.encode_between size]
    exact copyAt?_append (Layout.size_encode ..).symm back
  rw [put?, found]
  simp only [written, copied, guard, if_true, Option.bind_eq_bind, Option.bind_some]
  rfl

theorem put?_eq_place (lawful : schema.Lawful) (room : pos + records.length * schema.size ≤ data.size) :
    schema.put? data pos records = some (schema.place data pos records) := by
  induction records generalizing data pos with
  | nil => rfl
  | cons record rest ih =>
    rw [List.length_cons, Nat.add_mul, Nat.one_mul] at room
    rw [put?_cons lawful (by omega), place]
    exact ih (by rw [Layout.size_encode]; omega)

-- The first record shows it.
theorem put?_stops (count : ∀ record, (schema.toWords record).length = schema.layout.fields.length) {field : Field}
    (member : field ∈ schema.layout.fields) (missing : schema.size < field.wordPos + 4)
    (room : pos + schema.size ≤ data.size) (record : α) (rest : List α) :
    schema.put? data pos (record :: rest) = none := by
  obtain ⟨front, chunk, back, rfl, rfl, size, found⟩ := exists_chunk room
  have stopped : (schema.layout.writeAll chunk (schema.toWords record)).2 = false :=
    Layout.writeAll_stops (count record) member (by rw [size]; exact missing)
  rw [put?, found]
  simp only [stopped, guard, Bool.false_eq_true, if_false, Option.bind_eq_bind, Option.bind_some]
  rfl

end Schema
end CodeImage
