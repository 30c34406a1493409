import CodeImage.OffsetTable
import CodeImage.Proofs.Growth
import CodeImage.Proofs.Text
import Mathlib.Data.Nat.Digits.Lemmas

namespace CodeImage

namespace BigEndian

-- The number that digits to the base 256 spell, the most significant first.
def spelled (data : ByteArray) : Nat := Nat.ofDigits 256 (data.data.toList.reverse.map UInt8.toNat)

theorem toNat_eq_spelled (data : ByteArray) : toNat data = spelled data := by
  rw [toNat, Text.foldl_bytes, spelled, Nat.ofDigits_eq_foldr, List.foldr_map, List.foldr_reverse]
  congr 1
  funext n b
  rw [Nat.cast_id, Nat.mul_comm, Nat.add_comm]

theorem foldl_digits (n : Nat) (rest : List UInt8) :
    (digits n rest).foldl (fun n b => n * 256 + b.toNat) 0 = rest.foldl (fun n b => n * 256 + b.toNat) n := by
  fun_induction digits n rest with
  | case1 n rest small =>
    rw [List.foldl_cons, toNat_toUInt8, Nat.zero_mul, Nat.zero_add, Nat.mod_eq_of_lt small]
  | case2 n rest large ih =>
    rw [ih, List.foldl_cons, toNat_toUInt8, Nat.mod_mod, Nat.mul_comm, Nat.div_add_mod]

theorem toNat_ofNat (n : Nat) : toNat (ofNat n) = n := by
  rw [toNat, Text.foldl_bytes, ofNat, List.data_toByteArray]
  exact foldl_digits n []

theorem digits_eq {n : Nat} (positive : 0 < n) (rest : List UInt8) :
    digits n rest = (Nat.digits 256 n).reverse.map Nat.toUInt8 ++ rest := by
  fun_induction digits n rest with
  | case1 n rest small => rw [Nat.digits_of_lt 256 n (by omega) small]; rfl
  | case2 n rest large ih =>
    rw [ih (by omega), Nat.digits_def' (by decide) positive, List.reverse_cons, List.map_append, List.append_assoc]
    rfl

-- No digit is wasted, and zero is written as one digit.
theorem toList_ofNat (n : Nat) :
    (ofNat n).data.toList = if n = 0 then [0] else (Nat.digits 256 n).reverse.map Nat.toUInt8 := by
  rw [ofNat, List.data_toByteArray]
  split
  · next zero =>
    rw [zero, digits]
    rfl
  · next positive =>
    rw [digits_eq (by omega), List.append_nil]

end BigEndian

namespace OffsetTable

variable {table next : OffsetTable} {id : UInt32}

-- What was there stays where it was.
structure Extends (table next : OffsetTable) : Prop where
  storage : ∃ more, next.storage = table.storage ++ more
  entries : ∃ more, next.entries = table.entries ++ more

namespace Extends

theorem refl (table : OffsetTable) : table.Extends table :=
  ⟨⟨ByteArray.empty, ByteArray.append_empty.symm⟩, ⟨#[], Array.append_empty.symm⟩⟩

theorem trans {last : OffsetTable} (first : table.Extends next) (second : next.Extends last) : table.Extends last := by
  obtain ⟨⟨bytes, storage⟩, ⟨added, entries⟩⟩ := first
  obtain ⟨⟨moreBytes, laterStorage⟩, ⟨moreAdded, laterEntries⟩⟩ := second
  exact ⟨⟨bytes ++ moreBytes, by rw [laterStorage, storage, ByteArray.append_assoc]⟩,
    ⟨added ++ moreAdded, by rw [laterEntries, entries, Array.append_assoc]⟩⟩

theorem push (table : OffsetTable) (data : ByteArray) : table.Extends (table.push data).1 :=
  ⟨⟨data, rfl⟩, ⟨#[_], Array.push_eq_append ..⟩⟩

theorem size_storage_le (grown : table.Extends next) : table.storage.size ≤ next.storage.size := by
  obtain ⟨more, same⟩ := grown.storage
  rw [same, ByteArray.size_append]
  exact Nat.le_add_right ..

theorem size_le (grown : table.Extends next) : table.size ≤ next.size := by
  obtain ⟨more, same⟩ := grown.entries
  rw [size, size, same, Array.size_append]
  exact Nat.le_add_right ..

-- The bytes of an old entry are the same ones.
theorem get?_of_lt (grown : table.Extends next) (inside : table.InStorage) (old : id.toNat < table.size) :
    next.get? id = table.get? id := by
  obtain ⟨⟨bytes, storage⟩, ⟨added, entries⟩⟩ := grown
  have found : table.entries[id.toNat]? = some table.entries[id.toNat] := Array.getElem?_eq_getElem old
  have still : next.entries[id.toNat]? = some table.entries[id.toNat] := by
    rw [entries, Array.getElem?_append_left old, found]
  have slice : slice? table.storage table.entries[id.toNat].offset.toNat table.entries[id.toNat].length.toNat = some _ :=
    if_pos (inside _ (Array.getElem_mem old))
  rw [get?, get?, found, still, Option.bind_some, Option.bind_some, storage, slice, slice?_append _ slice]

end Extends

@[simp]
theorem size_push (table : OffsetTable) (data : ByteArray) : (table.push data).1.size = table.size + 1 :=
  Array.size_push _

@[simp]
theorem size_storage_push (table : OffsetTable) (data : ByteArray) :
    (table.push data).1.storage.size = table.storage.size + data.size := ByteArray.size_append

theorem get?_push_self (new : id.toNat = table.size) {data : ByteArray}
    (room : table.storage.size + data.size < 2 ^ 32) : (table.push data).1.get? id = some data := by
  have entry : (table.push data).1.entries[id.toNat]? =
      some ⟨table.storage.size.toUInt32, data.size.toUInt32⟩ := by
    rw [new]
    exact Array.getElem?_push_size
  rw [get?, entry, Option.bind_some, toNat_toUInt32_of_lt (by omega), toNat_toUInt32_of_lt (by omega)]
  exact slice?_eq_some_iff.mpr ⟨Holds.suffix_append .., rfl⟩

-- Adding one byte string after the other.
def pushAll (table : OffsetTable) (added : List ByteArray) : OffsetTable :=
  added.foldl (fun table data => (table.push data).1) table

theorem extends_pushAll (table : OffsetTable) (added : List ByteArray) : table.Extends (table.pushAll added) := by
  induction added generalizing table with
  | nil => exact .refl table
  | cons data rest ih => exact (Extends.push table data).trans (ih _)

theorem inStorage_pushAll (inside : table.InStorage) (added : List ByteArray) : (table.pushAll added).InStorage := by
  induction added generalizing table with
  | nil => exact inside
  | cons data rest ih => exact ih (inStorage_push inside data)

-- An entry that was added has the next number, and its bytes are found under it ever after.
theorem get?_pushAll_cons (inside : table.InStorage) {data : ByteArray} {later : List ByteArray}
    (reached : table.pushAll (data :: later) = next) (room : next.storage.size < 2 ^ 32) (few : next.size < 2 ^ 32) :
    (table.push data).2.toNat = table.size ∧ next.get? (table.push data).2 = some data := by
  have grown : (table.push data).1.Extends next := reached ▸ extends_pushAll _ later
  have storage := grown.size_storage_le
  have size := grown.size_le
  rw [size_storage_push] at storage
  rw [size_push] at size
  have number : (table.push data).2.toNat = table.size := toNat_toUInt32_of_lt (Nat.lt_trans size few)
  refine ⟨number, ?_⟩
  rw [grown.get?_of_lt (inStorage_push inside data) (by rw [size_push, number]; omega),
    get?_push_self number (by omega)]

end OffsetTable

namespace BigIntTable

variable {constants : BigIntTable} {id : UInt32}

-- The value of a constant as the stored bytes alone have it.
def stored (constants : BigIntTable) (id : UInt32) : Option Nat := (constants.table.get? id).map BigEndian.toNat

-- What is true of every table in use: as many values as entries, and a value that is known is the stored one.
structure Coherent (constants : BigIntTable) : Prop where
  known_size : constants.known.size = constants.size
  inside : constants.table.InStorage
  values : ∀ (id : UInt32) (value : Nat), constants.known[id.toNat]? = some (some value) →
    constants.stored id = some value

theorem coherent_ofTable {table : OffsetTable} (inside : table.InStorage) : (ofTable table).Coherent := by
  refine ⟨Array.size_replicate, inside, ?_⟩
  intro id value found
  rw [ofTable, Array.getElem?_replicate] at found
  split at found
  · cases found
  · cases found

-- What looking at a constant does to a table: nothing, or its value becomes known.
theorem get_fst_cases (constants : BigIntTable) (id : UInt32) :
    (constants.get id).1 = constants ∨ ∃ value, constants.stored id = some value ∧
      constants.known[id.toNat]? = some none ∧
      (constants.get id).1 = { constants with known := constants.known.setIfInBounds id.toNat (some value) } := by
  unfold get stored
  split
  · exact .inl rfl
  · next data unknown found => exact .inr ⟨BigEndian.toNat data, by rw [found, Option.map_some], unknown, rfl⟩
  · exact .inl rfl

-- A value that is not known is computed from the bytes.
theorem get_snd (constants : BigIntTable) (id : UInt32) :
    (constants.get id).2 = constants.known[id.toNat]?.bind fun known =>
      (constants.table.get? id).map fun data => known.getD (BigEndian.toNat data) := by
  unfold get
  cases constants.known[id.toNat]? with
  | none => rfl
  | some known =>
    cases constants.table.get? id with
    | none => cases known <;> rfl
    | some data => cases known <;> rfl

theorem push_eq (constants : BigIntTable) (value : Nat) :
    constants.push value = (⟨(constants.table.push (BigEndian.ofNat value)).1, constants.known.push (some value)⟩,
      (constants.table.push (BigEndian.ofNat value)).2) := rfl

namespace Coherent

-- It makes no difference whether a value is known.
theorem get_eq_stored (coherent : constants.Coherent) (id : UInt32) : (constants.get id).2 = constants.stored id := by
  rw [get_snd, stored]
  cases known : constants.known[id.toNat]? with
  | none =>
    have missing : constants.table.entries[id.toNat]? = none := by
      rw [Array.getElem?_eq_none_iff, coherent.known_size] at known
      exact Array.getElem?_eq_none known
    rw [OffsetTable.get?, missing]
    rfl
  | some value =>
    cases value with
    | none => rfl
    | some value =>
      have same := coherent.values id value known
      rw [stored] at same
      cases found : constants.table.get? id with
      | none => rfl
      | some data =>
        rw [found] at same
        exact same.symm

theorem isSome_get (coherent : constants.Coherent) (id : UInt32) :
    (constants.get id).2.isSome = decide (id.toNat < constants.size) := by
  rw [coherent.get_eq_stored, stored, Option.isSome_map, OffsetTable.isSome_get? coherent.inside]
  rfl

theorem get (coherent : constants.Coherent) (id : UInt32) : (constants.get id).1.Coherent := by
  rcases get_fst_cases constants id with same | ⟨value, spelled, -, next⟩
  · rw [same]
    exact coherent
  · rw [next]
    refine ⟨by simpa [size] using coherent.known_size, coherent.inside, ?_⟩
    intro other found known
    change constants.stored other = some found
    simp only [Array.getElem?_setIfInBounds] at known
    split at known
    · next here =>
      split at known
      · cases known
        rwa [UInt32.toNat_inj.mp here] at spelled
      · cases known
    · exact coherent.values other found known

theorem push (coherent : constants.Coherent) {value : Nat}
    (room : (constants.push value).1.table.storage.size < 2 ^ 32) : (constants.push value).1.Coherent := by
  rw [push_eq, OffsetTable.size_storage_push] at room
  rw [push_eq]
  refine ⟨?_, OffsetTable.inStorage_push coherent.inside _, ?_⟩
  · rw [Array.size_push, coherent.known_size, size, size, OffsetTable.size_push]
  · intro id found known
    simp only [Array.getElem?_push, coherent.known_size] at known
    rw [stored]
    split at known
    · next new =>
      cases known
      rw [OffsetTable.get?_push_self new room, Option.map_some, BigEndian.toNat_ofNat]
    · have old : id.toNat < constants.size := by
        have inside := (Array.getElem?_eq_some_iff.mp known).1
        rwa [coherent.known_size] at inside
      rw [(OffsetTable.Extends.push constants.table _).get?_of_lt coherent.inside old]
      exact coherent.values id found known

end Coherent

inductive Use where
  | push (value : Nat)
  | get (id : UInt32)

def use (constants : BigIntTable) : Use → BigIntTable
  | .push value => (constants.push value).1
  | .get id => (constants.get id).1

def run (constants : BigIntTable) (uses : List Use) : BigIntTable := uses.foldl use constants

theorem run_cons (constants : BigIntTable) (first : Use) (rest : List Use) :
    constants.run (first :: rest) = (constants.use first).run rest := rfl

-- The bytes that a use adds.
def Use.added : Use → Option ByteArray
  | .push value => some (BigEndian.ofNat value)
  | .get _ => none

-- Seen as a table of bytes, a table in use grows as such a table does.
theorem table_run (constants : BigIntTable) (uses : List Use) :
    (constants.run uses).table = constants.table.pushAll (uses.filterMap Use.added) := by
  induction uses generalizing constants with
  | nil => rfl
  | cons first rest ih =>
    rw [run_cons, ih]
    cases first with
    | push value => rfl
    | get id =>
      rw [use]
      rcases get_fst_cases constants id with same | ⟨_, -, -, same⟩
      · rw [same]
        rfl
      · rw [same]
        rfl

theorem extends_run (constants : BigIntTable) (uses : List Use) : constants.table.Extends (constants.run uses).table := by
  rw [table_run]
  exact OffsetTable.extends_pushAll ..

-- Nothing that is known is forgotten.
theorem known_use {i value : Nat} (known : constants.known[i]? = some (some value)) (u : Use) :
    (constants.use u).known[i]? = some (some value) := by
  have inside := (Array.getElem?_eq_some_iff.mp known).1
  cases u with
  | push added =>
    rw [use, push_eq, Array.getElem?_push, if_neg (Nat.ne_of_lt inside)]
    exact known
  | get id =>
    rw [use]
    rcases get_fst_cases constants id with same | ⟨_, -, unknown, next⟩
    · rwa [same]
    · have other : id.toNat ≠ i := by
        rintro rfl
        rw [unknown] at known
        cases known
      rw [next, Array.getElem?_setIfInBounds, if_neg other]
      exact known

theorem known_run {i value : Nat} (known : constants.known[i]? = some (some value)) (uses : List Use) :
    (constants.run uses).known[i]? = some (some value) := by
  induction uses generalizing constants with
  | nil => exact known
  | cons first rest ih => exact ih (known_use known first)

theorem Coherent.run (coherent : constants.Coherent) {uses : List Use}
    (room : (constants.run uses).table.storage.size < 2 ^ 32) : (constants.run uses).Coherent := by
  induction uses generalizing constants with
  | nil => exact coherent
  | cons first rest ih =>
    rw [run_cons] at room ⊢
    refine ih ?_ room
    have small := Nat.lt_of_le_of_lt (extends_run (constants.use first) rest).size_storage_le room
    cases first with
    | push value => exact coherent.push small
    | get id => exact coherent.get id

-- Looking at an old constant gives what it gave before.
theorem Coherent.get_of_extends {next : BigIntTable} (coherent : constants.Coherent) (later : next.Coherent)
    (grown : constants.table.Extends next.table) (old : id.toNat < constants.size) :
    (next.get id).2 = (constants.get id).2 := by
  rw [later.get_eq_stored, coherent.get_eq_stored, stored, stored, grown.get?_of_lt coherent.inside old]

-- A constant that was added has the next number, its value is known ever after, and its bytes are those of the value.
theorem Coherent.added {next : BigIntTable} (coherent : constants.Coherent) {value : Nat} {later : List Use}
    (reached : constants.run (.push value :: later) = next) (room : next.table.storage.size < 2 ^ 32)
    (few : next.size < 2 ^ 32) :
    (constants.push value).2.toNat = constants.size ∧
      next.known[(constants.push value).2.toNat]? = some (some value) ∧
      next.table.get? (constants.push value).2 = some (BigEndian.ofNat value) := by
  have path : constants.table.pushAll (BigEndian.ofNat value :: later.filterMap Use.added) = next.table := by
    rw [← reached, table_run]
    rfl
  obtain ⟨number, bytes⟩ := OffsetTable.get?_pushAll_cons coherent.inside path room few
  refine ⟨number, ?_, bytes⟩
  rw [← reached, run_cons]
  apply known_run
  rw [use, push_eq, number]
  change (constants.known.push (some value))[constants.size]? = _
  rw [← coherent.known_size, Array.getElem?_push_size]

-- Both kinds of tables only grow at the end, and nothing that was put in is lost. The bytes alone tell the values.
theorem tables_append_only (what : String) (storage : ByteArray) (entries : Array Extent) :
    (∀ table, OffsetTable.build what storage entries = .ok table ↔ table = ⟨storage, entries⟩ ∧
      ∀ entry ∈ entries, entry.offset.toNat + entry.length.toNat ≤ storage.size) ∧
    ∀ table, OffsetTable.build what storage entries = .ok table →
      (∀ (before later : List ByteArray) (now next : OffsetTable), table.pushAll before = now →
        now.pushAll later = next → next.storage.size < 2 ^ 32 → next.size < 2 ^ 32 →
        (∀ id, id.toNat < now.size → next.get? id = now.get? id) ∧
        (∀ data rest, later = data :: rest →
          (now.push data).2.toNat = now.size ∧ next.get? (now.push data).2 = some data) ∧
        ∀ id, (next.get? id).isSome ↔ id.toNat < next.size) ∧
      ∀ (before later : List Use) (now next : BigIntTable), (ofTable table).run before = now →
        now.run later = next → next.table.storage.size < 2 ^ 32 → next.size < 2 ^ 32 →
        (∀ id, id.toNat < now.size →
          next.table.get? id = now.table.get? id ∧ (next.get id).2 = (now.get id).2) ∧
        (∀ value rest, later = .push value :: rest → ∃ id data, (now.push value).2 = id ∧ id.toNat = now.size ∧
          next.known[id.toNat]? = some (some value) ∧ (next.get id).2 = some value ∧
          next.table.get? id = some data ∧ BigEndian.spelled data = value ∧
          data.data.toList = (if value = 0 then [0] else (Nat.digits 256 value).reverse.map Nat.toUInt8) ∧
          ((ofTable next.table).get id).2 = some value) ∧
        ∀ id, (next.get id).2 = (next.table.get? id).map BigEndian.spelled ∧
          ((next.get id).2.isSome ↔ id.toNat < next.size) := by
  refine ⟨?_, ?_⟩
  · intro table
    rw [OffsetTable.build_exact]
    constructor
    · rintro ⟨rfl, inside⟩
      exact ⟨rfl, inside⟩
    · rintro ⟨rfl, inside⟩
      exact ⟨rfl, inside⟩
  · intro table made
    have inside := (OffsetTable.build_exact.mp made).2
    refine ⟨?_, ?_⟩
    · rintro before later now next rfl reached room few
      have within := OffsetTable.inStorage_pushAll inside before
      have grown := reached ▸ OffsetTable.extends_pushAll _ later
      refine ⟨fun id old => grown.get?_of_lt within old, ?_, ?_⟩
      · rintro data rest rfl
        exact OffsetTable.get?_pushAll_cons within reached room few
      · intro id
        rw [OffsetTable.isSome_get? (reached ▸ OffsetTable.inStorage_pushAll within later), decide_eq_true_iff]
    · rintro before later now next rfl reached room few
      have grown := reached ▸ extends_run _ later
      have coherent := (coherent_ofTable inside).run (Nat.lt_of_le_of_lt grown.size_storage_le room)
      have last : next.Coherent := reached ▸ coherent.run (reached ▸ room)
      refine ⟨fun id old => ⟨grown.get?_of_lt coherent.inside old, coherent.get_of_extends last grown old⟩, ?_, ?_⟩
      · rintro value rest rfl
        obtain ⟨number, known, bytes⟩ := coherent.added reached room few
        have stored : next.stored _ = some value := last.values _ _ known
        refine ⟨_, _, rfl, number, known, ?_, bytes, ?_, BigEndian.toList_ofNat value, ?_⟩
        · rw [last.get_eq_stored, stored]
        · rw [← BigEndian.toNat_eq_spelled, BigEndian.toNat_ofNat]
        · rw [(coherent_ofTable last.inside).get_eq_stored]
          exact stored
      · intro id
        refine ⟨?_, ?_⟩
        · rw [last.get_eq_stored, stored, funext BigEndian.toNat_eq_spelled]
        · rw [last.isSome_get, decide_eq_true_iff]

-- Entries that overlap and an empty one at the end of the storage. Two numbers are added, one of them zero.
def sampleTable : OffsetTable := ⟨⟨#[1, 2, 3]⟩, #[⟨0, 2⟩, ⟨1, 2⟩, ⟨3, 0⟩]⟩

def sampleUsed : BigIntTable := (ofTable sampleTable).run [.get 1, .push 0, .get 2, .push 65537, .get 4]

theorem sampleUsed_size : sampleUsed.table.storage.size = 7 ∧ sampleUsed.size = 5 := by decide +kernel

theorem sample_tables_append_only :
    OffsetTable.build "regexp" sampleTable.storage sampleTable.entries = .ok sampleTable ∧
    (sampleTable.pushAll [⟨#[9, 8]⟩, ByteArray.empty]).get? 3 = some ⟨#[9, 8]⟩ ∧
    (sampleTable.pushAll [⟨#[9, 8]⟩, ByteArray.empty]).get? 1 = some ⟨#[2, 3]⟩ ∧
    sampleUsed.table.storage.size < 2 ^ 32 ∧ sampleUsed.size < 2 ^ 32 ∧
    (sampleUsed.get 1).2 = some 515 ∧ (sampleUsed.get 3).2 = some 0 ∧ (sampleUsed.get 5).2 = none ∧
    ((ofTable sampleUsed.table).get 4).2 = some 65537 ∧
    ∃ data, sampleUsed.table.get? 4 = some data ∧ data.data.toList = [1, 0, 1] := by
  have room : sampleUsed.table.storage.size < 2 ^ 32 := by rw [sampleUsed_size.1]; decide
  have few : sampleUsed.size < 2 ^ 32 := by rw [sampleUsed_size.2]; decide
  obtain ⟨accepted, grows⟩ := tables_append_only "regexp" sampleTable.storage sampleTable.entries
  have made := (accepted sampleTable).mpr ⟨rfl, by decide⟩
  obtain ⟨bytes, numbers⟩ := grows sampleTable made
  obtain ⟨old, new, -⟩ := bytes [] [⟨#[9, 8]⟩, ByteArray.empty] sampleTable _ rfl rfl (by decide) (by decide)
  obtain ⟨values, -, all⟩ := numbers [] _ (ofTable sampleTable) sampleUsed rfl rfl room few
  obtain ⟨-, first, -⟩ := numbers [.get 1] [.push 0, .get 2, .push 65537, .get 4] _ sampleUsed rfl rfl room few
  obtain ⟨-, second, -⟩ := numbers [.get 1, .push 0, .get 2] [.push 65537, .get 4] _ sampleUsed rfl rfl room few
  obtain ⟨_, _, rfl, -, -, zero, -⟩ := first 0 _ rfl
  obtain ⟨_, data, rfl, -, -, -, found, -, digits, alone⟩ := second 65537 _ rfl
  refine ⟨made, (new _ _ rfl).2, (old 1 (by decide)).trans (by decide), room, few, ?_, zero, ?_, alone, data, found, ?_⟩
  · rw [(values 1 (by decide)).2]
    decide
  · rw [← Option.not_isSome_iff_eq_none, (all 5).2, sampleUsed_size.2]
    decide
  · rw [digits]
    decide

end BigIntTable
end CodeImage
