import CodeImage.Packed.Schema
import CodeImage.Proofs.Bytes

namespace CodeImage

namespace Field

-- The bits of two fields do not overlap.
def Apart (f g : Field) : Prop := f.offset + f.bits ≤ g.offset ∨ g.offset + g.bits ≤ f.offset

-- The field ends in the word in which it starts.
def Inside (f : Field) : Prop := f.shift + f.bits ≤ 32

-- What is left of a value that is stored in the field.
def cut (f : Field) (value : UInt32) : UInt32 := (value.toNat % 2 ^ f.bits).toUInt32

theorem Apart.symm {f g : Field} (apart : f.Apart g) : g.Apart f := Or.symm apart

theorem testBit_get (f : Field) (word i : Nat) :
    (f.get word).testBit i = (decide (i < f.bits) && word.testBit (i + f.shift)) := by
  change (word / 2 ^ f.shift % 2 ^ f.bits).testBit i = _
  rw [Nat.testBit_mod_two_pow, Nat.testBit_div_two_pow]

theorem testBit_put (f : Field) (word value i : Nat) :
    (f.put word value).testBit i =
      if f.shift ≤ i ∧ i < f.shift + f.bits then value.testBit (i - f.shift) else word.testBit i := by
  -- The word is its high part above the new value above its low part.
  have low : word % 2 ^ f.shift < 2 ^ f.shift := Nat.mod_lt _ (by positivity)
  have middle : value % 2 ^ f.bits < 2 ^ f.bits := Nat.mod_lt _ (by positivity)
  have inner : 2 ^ f.shift * (value % 2 ^ f.bits) + word % 2 ^ f.shift < 2 ^ (f.shift + f.bits) := by
    calc 2 ^ f.shift * (value % 2 ^ f.bits) + word % 2 ^ f.shift
        < 2 ^ f.shift * (value % 2 ^ f.bits) + 2 ^ f.shift := Nat.add_lt_add_left low _
      _ = 2 ^ f.shift * (value % 2 ^ f.bits + 1) := by ring
      _ ≤ 2 ^ f.shift * 2 ^ f.bits := Nat.mul_le_mul_left _ middle
      _ = 2 ^ (f.shift + f.bits) := (pow_add ..).symm
  have shape : f.put word value = 2 ^ (f.shift + f.bits) * (word / 2 ^ (f.shift + f.bits)) +
      (2 ^ f.shift * (value % 2 ^ f.bits) + word % 2 ^ f.shift) := by
    change word % 2 ^ f.shift + value % 2 ^ f.bits * 2 ^ f.shift +
      word / 2 ^ (f.shift + f.bits) * 2 ^ (f.shift + f.bits) = _
    ring
  rw [shape, Nat.testBit_two_pow_mul_add _ inner, Nat.testBit_two_pow_mul_add _ low,
    Nat.testBit_mod_two_pow, Nat.testBit_mod_two_pow, Nat.testBit_div_two_pow]
  by_cases below : i < f.shift
  · simp [below, show i < f.shift + f.bits by omega, show ¬ f.shift ≤ i by omega]
  · by_cases within : i < f.shift + f.bits
    · simp [below, within, show f.shift ≤ i by omega, show i - f.shift < f.bits by omega]
    · simp [within, show i - (f.shift + f.bits) + (f.shift + f.bits) = i by omega]

-- A stored word keeps the low 32 bits of a number.
theorem get_mod_word (f : Field) (inside : f.Inside) (word : Nat) : f.get (word % 256 ^ 4) = f.get word := by
  apply Nat.eq_of_testBit_eq
  intro i
  rw [testBit_get, testBit_get, show 256 ^ 4 = 2 ^ 32 by norm_num, Nat.testBit_mod_two_pow]
  unfold Inside at inside
  by_cases small : i < f.bits
  · simp [small, show i + f.shift < 32 by omega]
  · simp [small]

theorem get_put_self (f : Field) (word value : Nat) : f.get (f.put word value) = value % 2 ^ f.bits := by
  apply Nat.eq_of_testBit_eq
  intro i
  rw [testBit_get, testBit_put, Nat.testBit_mod_two_pow]
  by_cases small : i < f.bits
  · simp [small, show i + f.shift < f.shift + f.bits by omega]
  · simp [small]

theorem get_put_apart {f g : Field} (apart : f.shift + f.bits ≤ g.shift ∨ g.shift + g.bits ≤ f.shift)
    (word value : Nat) : g.get (f.put word value) = g.get word := by
  apply Nat.eq_of_testBit_eq
  intro i
  rw [testBit_get, testBit_get, testBit_put]
  by_cases small : i < g.bits
  · rw [if_neg (by omega)]
  · simp [small]

@[simp]
theorem size_write (f : Field) (data : ByteArray) (pos : Nat) (value : UInt32) :
    (f.write data pos value).size = data.size := size_setNat ..

theorem read_write_self {f : Field} (inside : f.Inside) {data : ByteArray} {pos : Nat}
    (room : pos + f.wordPos + 4 ≤ data.size) (value : UInt32) :
    f.read (f.write data pos value) pos = f.cut value := by
  rw [read, write, natAt_setNat _ room, get_mod_word f inside, get_put_self, cut]

theorem read_write_apart {f g : Field} (apart : f.Apart g) (inside : g.Inside) {data : ByteArray} {pos : Nat}
    (room : pos + f.wordPos + 4 ≤ data.size) (value : UInt32) :
    g.read (f.write data pos value) pos = g.read data pos := by
  rw [read, read, write]
  by_cases same : f.offset / 32 = g.offset / 32
  · have word : g.wordPos = f.wordPos := by rw [wordPos, wordPos, same]
    have shifts : f.shift + f.bits ≤ g.shift ∨ g.shift + g.bits ≤ f.shift := by
      unfold Apart at apart; unfold shift; omega
    rw [word, natAt_setNat _ room, get_mod_word g inside, get_put_apart shifts]
  · rw [natAt_setNat_of_disjoint]
    unfold wordPos; omega

theorem toNat_read_lt (f : Field) (data : ByteArray) (pos : Nat) : (f.read data pos).toNat < 2 ^ f.bits := by
  have small : f.get (natAt data (pos + f.wordPos) 4) < 2 ^ f.bits :=
    Nat.mod_lt _ (Nat.two_pow_pos f.bits)
  rw [read, toNat_toUInt32]
  exact Nat.lt_of_le_of_lt (Nat.mod_le _ _) small

theorem cut_of_fits {f : Field} {value : UInt32} (small : f.fits value = true) : f.cut value = value := by
  have bound : value.toNat < 2 ^ f.bits := by
    have le : value.toNat ≤ 2 ^ f.bits - 1 := of_decide_eq_true small
    have := Nat.one_le_two_pow (n := f.bits)
    omega
  apply UInt32.toNat_inj.mp
  rw [cut, toNat_toUInt32, Nat.mod_eq_of_lt bound]
  have := value.toNat_lt
  omega

end Field

namespace Layout

-- Every field ends in its word and before the record does, and no two fields overlap.
structure Packed (layout : Layout) : Prop where
  inside : ∀ f ∈ layout.fields, f.Inside
  within : ∀ f ∈ layout.fields, f.wordPos + 4 ≤ layout.byteSize
  apart : layout.fields.Pairwise Field.Apart

theorem offset_of_mem_place {f : Field} {start : Nat} {widths : List (String × Nat)}
    (member : f ∈ place start widths) :
    start ≤ f.offset ∧ f.offset + f.bits ≤ start + total ((place start widths).map (·.bits)) := by
  induction widths generalizing start with
  | nil => cases member
  | cons width rest ih =>
    rw [place] at member ⊢
    simp only [List.map_cons, total, List.foldr_cons]
    rcases List.mem_cons.mp member with rfl | later
    · exact ⟨Nat.le_refl _, by simp only; omega⟩
    · obtain ⟨low, high⟩ := ih later
      unfold total at high
      omega

theorem place_apart (start : Nat) (widths : List (String × Nat)) : (place start widths).Pairwise Field.Apart := by
  induction widths generalizing start with
  | nil => exact .nil
  | cons width rest ih =>
    refine .cons ?_ (ih _)
    intro f member
    exact Or.inl (offset_of_mem_place member).1

theorem place_inside {start : Nat} {widths : List (String × Nat)} (sound : firstFault start widths = none) :
    ∀ f ∈ place start widths, f.Inside := by
  induction widths generalizing start with
  | nil => intro f member; cases member
  | cons width rest ih =>
    obtain ⟨name, bits⟩ := width
    rw [firstFault] at sound
    split at sound
    · cases sound
    · split at sound
      · cases sound
      · next narrow straddling =>
        intro f member
        rcases List.mem_cons.mp member with rfl | later
        · unfold Field.Inside Field.shift
          simp only
          have := Nat.mod_lt start (show 0 < 32 by decide)
          omega
        · exact ih sound f later

theorem positive_of_mem_place {f : Field} {start : Nat} {widths : List (String × Nat)}
    (positive : ∀ w ∈ widths, 0 < w.2) (member : f ∈ place start widths) : 0 < f.bits := by
  induction widths generalizing start with
  | nil => cases member
  | cons width rest ih =>
    rcases List.mem_cons.mp member with rfl | later
    · exact positive width (List.mem_cons_self ..)
    · exact ih (fun w later => positive w (List.mem_cons_of_mem _ later)) later

theorem packed_ofWidths {widths : List (String × Nat)} (sound : firstFault 0 widths = none)
    (positive : ∀ w ∈ widths, 0 < w.2) : (ofWidths widths).Packed := by
  refine ⟨place_inside sound, ?_, place_apart 0 widths⟩
  intro f member
  have bounds := (offset_of_mem_place member).2
  have bits := positive_of_mem_place positive member
  change f.offset / 32 * 4 + 4 ≤ align4 ((total ((place 0 widths).map (·.bits)) + 7) / 8)
  unfold align4
  omega

-- Writing a list of fields, as `encode` does.
def writeFields (data : ByteArray) (pos : Nat) (pairs : List (Field × UInt32)) : ByteArray :=
  pairs.foldl (fun data (field, value) => field.write data pos value) data

theorem writeFields_cons (data : ByteArray) (pos : Nat) (pair : Field × UInt32) (rest : List (Field × UInt32)) :
    writeFields data pos (pair :: rest) = writeFields (pair.1.write data pos pair.2) pos rest := by
  rw [writeFields, writeFields, List.foldl_cons]

@[simp]
theorem size_writeFields (data : ByteArray) (pos : Nat) (pairs : List (Field × UInt32)) :
    (writeFields data pos pairs).size = data.size := by
  induction pairs generalizing data with
  | nil => rfl
  | cons pair rest ih => rw [writeFields_cons, ih, Field.size_write]

theorem read_writeFields_apart {g : Field} (inside : g.Inside) {data : ByteArray} {pos : Nat}
    {pairs : List (Field × UInt32)} (apart : ∀ pair ∈ pairs, pair.1.Apart g)
    (room : ∀ pair ∈ pairs, pos + pair.1.wordPos + 4 ≤ data.size) :
    g.read (writeFields data pos pairs) pos = g.read data pos := by
  induction pairs generalizing data with
  | nil => rfl
  | cons pair rest ih =>
    have first := Field.read_write_apart (apart pair (List.mem_cons_self ..)) inside
      (room pair (List.mem_cons_self ..)) pair.2
    rw [writeFields_cons, ih, first]
    · intro p member
      exact apart p (List.mem_cons_of_mem _ member)
    · intro p member
      simpa using room p (List.mem_cons_of_mem _ member)

theorem map_read_writeFields {fields : List Field} {values : List UInt32} {data : ByteArray} {pos : Nat}
    (count : values.length = fields.length) (inside : ∀ f ∈ fields, f.Inside)
    (apart : fields.Pairwise Field.Apart) (room : ∀ f ∈ fields, pos + f.wordPos + 4 ≤ data.size) :
    fields.map (·.read (writeFields data pos (fields.zip values)) pos) = fields.zipWith Field.cut values := by
  induction fields generalizing values data with
  | nil => rfl
  | cons f rest ih =>
    cases values with
    | nil => cases count
    | cons value values =>
      obtain ⟨first, later⟩ := List.pairwise_cons.mp apart
      have roomLater : ∀ g ∈ rest, pos + g.wordPos + 4 ≤ (f.write data pos value).size := by
        intro g member
        simpa using room g (List.mem_cons_of_mem _ member)
      -- The later writes leave the first field alone.
      have head : f.read (writeFields (f.write data pos value) pos (rest.zip values)) pos = f.cut value := by
        rw [read_writeFields_apart (inside f (List.mem_cons_self ..)),
          Field.read_write_self (inside f (List.mem_cons_self ..)) (room f (List.mem_cons_self ..))]
        · intro pair member
          exact (first pair.1 (List.of_mem_zip member).1).symm
        · intro pair member
          exact roomLater pair.1 (List.of_mem_zip member).1
      have tail := ih (Nat.succ.inj count) (fun g member => inside g (List.mem_cons_of_mem _ member)) later roomLater
      rw [List.zip_cons_cons, writeFields_cons, List.map_cons, List.zipWith_cons_cons, head, tail]

theorem encode_eq_writeFields (layout : Layout) (data : ByteArray) (pos : Nat) (values : List UInt32) :
    layout.encode data pos values = writeFields data pos (layout.fields.zip values) := by
  rw [encode, writeFields]

theorem decode_encode {layout : Layout} (packed : layout.Packed) {data : ByteArray} {pos : Nat}
    (room : pos + layout.byteSize ≤ data.size) {values : List UInt32}
    (count : values.length = layout.fields.length) :
    layout.decode (layout.encode data pos values) pos = layout.fields.zipWith Field.cut values := by
  have rooms : ∀ f ∈ layout.fields, pos + f.wordPos + 4 ≤ data.size := by
    intro f member
    have := packed.within f member
    omega
  rw [decode, encode_eq_writeFields, map_read_writeFields count packed.inside packed.apart rooms]

@[simp]
theorem size_encode (layout : Layout) (data : ByteArray) (pos : Nat) (values : List UInt32) :
    (layout.encode data pos values).size = data.size := by
  rw [encode_eq_writeFields, size_writeFields]

-- A record reads the same wherever its bytes stand.
theorem decode_of_holds {layout : Layout} (packed : layout.Packed) {data part : ByteArray} {pos : Nat}
    (holds : Holds data pos part) (size : layout.byteSize ≤ part.size) :
    layout.decode data pos = layout.decode part 0 := by
  apply List.map_congr_left
  intro f member
  have := packed.within f member
  rw [Field.read, Field.read, holds.natAt (by omega), Nat.zero_add]

end Layout

namespace Schema

variable {α : Type}

-- A kind of record whose values can be stored: the fields are well placed, and the words of a record give it back.
structure Lawful (schema : Schema α) : Prop where
  packed : schema.layout.Packed
  count : ∀ record, (schema.toWords record).length = schema.layout.fields.length
  ofWords_toWords : ∀ record, schema.ofWords (schema.toWords record) = record

-- Every field of the record has room for its value.
def Fits (schema : Schema α) (record : α) : Prop :=
  ∀ pair ∈ schema.layout.fields.zip (schema.toWords record), pair.1.fits pair.2 = true

-- What a record becomes when it is stored.
def cut (schema : Schema α) (record : α) : α :=
  schema.ofWords (schema.layout.fields.zipWith Field.cut (schema.toWords record))

theorem cut_of_fits {schema : Schema α} (lawful : schema.Lawful) {record : α} (fits : schema.Fits record) :
    schema.cut record = record := by
  have words : schema.layout.fields.zipWith Field.cut (schema.toWords record) = schema.toWords record := by
    apply List.ext_getElem
    · simp [lawful.count record]
    · intro i left right
      rw [List.getElem_zipWith]
      apply Field.cut_of_fits
      have inside : i < (schema.layout.fields.zip (schema.toWords record)).length := by
        simpa [lawful.count record] using right
      have pair := fits _ (List.getElem_mem inside)
      rwa [List.getElem_zip] at pair
  rw [cut, words, lawful.ofWords_toWords]

@[simp]
theorem size_encode (schema : Schema α) (record : α) : (schema.encode record).size = schema.size := by
  rw [encode, Layout.size_encode, size_zeros]

theorem decode_encode {schema : Schema α} (lawful : schema.Lawful) (record : α) :
    schema.decode (schema.encode record) 0 = schema.cut record := by
  have room : 0 + schema.layout.byteSize ≤ (zeros schema.size).size := by rw [size_zeros, Nat.zero_add, size]
  rw [decode, encode, Layout.decode_encode lawful.packed room (lawful.count record), cut]

theorem decode_of_holds {schema : Schema α} (lawful : schema.Lawful) {data : ByteArray} {pos : Nat} {record : α}
    (holds : Holds data pos (schema.encode record)) : schema.decode data pos = schema.cut record := by
  have size : schema.layout.byteSize ≤ (schema.encode record).size := Nat.le_of_eq (size_encode schema record).symm
  rw [← decode_encode lawful, decode, decode, Layout.decode_of_holds lawful.packed holds size]

-- The table built from a list of records, starting after `out`.
theorem encodeMany_eq_foldl (schema : Schema α) (records : Array α) :
    schema.encodeMany records =
      records.toList.foldl (fun out record => out ++ schema.encode record) ByteArray.empty := by
  rw [encodeMany, ← Array.foldl_toList]

theorem foldl_encode_spec (schema : Schema α) (out : ByteArray) (records : List α) :
    let table := records.foldl (fun out record => out ++ schema.encode record) out
    table.size = out.size + records.length * schema.size ∧ Holds table 0 out ∧
      ∀ i (inside : i < records.length), Holds table (out.size + i * schema.size) (schema.encode records[i]) := by
  induction records generalizing out with
  | nil => exact ⟨by simp, Holds.refl out, fun i inside => absurd inside (Nat.not_lt_zero i)⟩
  | cons record rest ih =>
    obtain ⟨size, start, stored⟩ := ih (out ++ schema.encode record)
    rw [ByteArray.size_append, size_encode] at size stored
    refine ⟨?_, start.inside_front (Holds.prefix_append ..), ?_⟩
    · rw [List.foldl_cons, size, List.length_cons, Nat.succ_mul]; omega
    · intro i inside
      cases i with
      | zero => simpa using start.inside_front (Holds.suffix_append ..)
      | succ i =>
        have later := stored i (by simpa using inside)
        rwa [Nat.add_assoc, Nat.add_comm schema.size, ← Nat.succ_mul] at later

@[simp]
theorem size_encodeMany (schema : Schema α) (records : Array α) :
    (schema.encodeMany records).size = records.size * schema.size := by
  rw [encodeMany_eq_foldl, (foldl_encode_spec schema ByteArray.empty records.toList).1]
  simp

theorem parseMany_encodeMany {schema : Schema α} (lawful : schema.Lawful) (positive : 0 < schema.size)
    (records : Array α) : schema.parseMany (schema.encodeMany records) = .ok (records.map schema.cut) := by
  obtain ⟨-, -, stored⟩ := foldl_encode_spec schema ByteArray.empty records.toList
  rw [parseMany, if_pos (by simp)]
  congr 1
  apply Array.ext
  · simp [Nat.mul_div_cancel _ positive]
  · intro i left right
    have inside : i < records.toList.length := by simpa using right
    have holds := stored i inside
    rw [ByteArray.size_empty, Nat.zero_add, ← encodeMany_eq_foldl] at holds
    simp [decode_of_holds lawful holds]

theorem parseMany_encodeMany_of_fits {schema : Schema α} (lawful : schema.Lawful) (positive : 0 < schema.size)
    {records : Array α} (fits : ∀ record ∈ records, schema.Fits record) :
    schema.parseMany (schema.encodeMany records) = .ok records := by
  rw [parseMany_encodeMany lawful positive]
  congr 1
  conv => rhs; rw [← Array.map_id records]
  apply Array.map_congr_left
  intro record member
  exact cut_of_fits lawful (fits record member)

end Schema
end CodeImage
