import CodeImage.StringTable
import CodeImage.Proofs.Growth
import CodeImage.Proofs.RoundTrip
import CodeImage.Proofs.Text

namespace CodeImage

-- What lies behind the first of two byte strings lies in the second.
theorem slice?_append_right {a : ByteArray} {start : Nat} (behind : a.size ≤ start) (b : ByteArray) (len : Nat) :
    slice? (a ++ b) start len = slice? b (start - a.size) len := by
  cases found : slice? b (start - a.size) len with
  | some part =>
    rw [slice?_eq_some_iff] at found ⊢
    have holds := found.1.append_right a
    rw [Nat.add_sub_cancel' behind] at holds
    exact ⟨holds, found.2⟩
  | none =>
    unfold slice? at found ⊢
    rw [ite_eq_right_iff] at found ⊢
    intro room
    rw [ByteArray.size_append] at room
    exact absurd (found (by omega)) (by simp)

namespace StringPool

open StringTable (stored entryOf)

variable {pool : StringPool} {id : UInt32}

@[simp]
theorem size_storage (pool : StringPool) : pool.storage.size = pool.base.size + pool.appended.size :=
  ByteArray.size_append

theorem push_eq (pool : StringPool) (text : String) (kind : StringKind) :
    pool.push text kind = (⟨pool.base, pool.appended ++ stored text,
      pool.entries.push (entryOf text pool.storage.size), pool.kinds.push kind, pool.known.push (some text)⟩,
      pool.size.toUInt32) := by
  rw [size_storage]
  unfold push entryOf stored
  cases Text.isAscii text <;> rfl

@[simp]
theorem table_ofTable (table : StringTable) : (ofTable table).table = table := by
  simp [ofTable, StringPool.table, storage]

-- Seen as one table, a table in use grows as a table does.
theorem table_push (pool : StringPool) (text : String) (kind : StringKind) :
    (pool.push text kind).1.table = (pool.table.push text kind).1 := by
  rw [push_eq, StringTable.push_eq]
  simp [table, storage, ByteArray.append_assoc]

theorem size_push (pool : StringPool) (text : String) (kind : StringKind) :
    (pool.push text kind).1.size = pool.size + 1 := by
  rw [push_eq]
  exact Array.size_push _

theorem entry?_push_of_lt (old : id.toNat < pool.size) (text : String) (kind : StringKind) :
    StringPool.entry? (pool.push text kind).1 id = pool.entry? id := by
  have unchanged := @StringTable.entry?_push_of_lt pool.table id old text kind
  rw [← table_push] at unchanged
  exact unchanged

-- The text of a string as the stored bytes alone have it.
def decoded (pool : StringPool) (id : UInt32) : Option String :=
  (pool.entry? id).bind fun entry => (pool.bytes? id).map entry.read

-- No string lies partly in what was read and partly in what was added. An empty string may lie between them.
def Whole (pool : StringPool) : Prop :=
  ∀ entry ∈ pool.entries, entry.offset.toNat + entry.byteLength ≤ pool.base.size ∨
    pool.base.size ≤ entry.offset.toNat ∧ entry.offset.toNat + entry.byteLength ≤ pool.storage.size

namespace Whole

theorem inStorage (whole : pool.Whole) : pool.table.InStorage := by
  intro entry member
  have place := whole entry member
  rw [size_storage] at place
  simp only [StringTable.inStorage, table, size_storage, decide_eq_true_eq]
  omega

theorem of_entry? (whole : pool.Whole) {entry : StringEntry} (found : pool.entry? id = some entry) :
    entry.offset.toNat + entry.byteLength ≤ pool.base.size ∨
      pool.base.size ≤ entry.offset.toNat ∧ entry.offset.toNat + entry.byteLength ≤ pool.storage.size :=
  whole entry (Array.mem_of_getElem? found)

-- Looking into the buffer in which a string starts is looking into both of them.
theorem bytes?_eq (whole : pool.Whole) (id : UInt32) : pool.bytes? id = pool.table.bytes? id := by
  rw [bytes?, StringTable.bytes?]
  change (pool.entry? id).bind _ = (pool.entry? id).bind _
  cases found : pool.entry? id with
  | none => rfl
  | some entry =>
    have place := whole.of_entry? found
    simp only [Option.bind_some, table, storage]
    split
    · next behind => exact (slice?_append_right behind _ _).symm
    · next before =>
      have inside : entry.offset.toNat + entry.byteLength ≤ pool.base.size := by omega
      have slice : slice? pool.base entry.offset.toNat entry.byteLength = some _ := if_pos inside
      rw [slice, slice?_append _ slice]

theorem decoded_eq (whole : pool.Whole) (id : UInt32) : pool.decoded id = pool.table.get? id := by
  rw [decoded, whole.bytes?_eq, StringTable.get?_eq]
  rfl

theorem bytes?_push_of_lt (whole : pool.Whole) (old : id.toNat < pool.size) (text : String) (kind : StringKind) :
    (pool.push text kind).1.bytes? id = pool.bytes? id := by
  have found : pool.entry? id = some pool.entries[id.toNat] := Array.getElem?_eq_getElem old
  have place := whole.of_entry? found
  rw [size_storage] at place
  rw [bytes?, bytes?, entry?_push_of_lt old, found, Option.bind_some, Option.bind_some, push_eq]
  simp only
  split
  · next behind =>
    have slice : slice? pool.appended (pool.entries[id.toNat].offset.toNat - pool.base.size)
        pool.entries[id.toNat].byteLength = some _ := if_pos (by omega)
    rw [slice, slice?_append _ slice]
  · rfl

theorem decoded_push_of_lt (whole : pool.Whole) (old : id.toNat < pool.size) (text : String) (kind : StringKind) :
    (pool.push text kind).1.decoded id = pool.decoded id := by
  rw [decoded, decoded, entry?_push_of_lt old, whole.bytes?_push_of_lt old]

-- While its offset fits a word, a new string lies behind all that was there.
theorem push (whole : pool.Whole) (room : pool.storage.size < 0x100000000) (text : String) (kind : StringKind) :
    (pool.push text kind).1.Whole := by
  intro entry member
  rw [push_eq] at member ⊢
  simp only [size_storage, ByteArray.size_append] at room ⊢
  rcases Array.mem_push.mp member with old | rfl
  · have place := whole entry old
    rw [size_storage] at place
    omega
  · have inside := StringTable.inStorage_entryOf pool.storage text
    have offset : (entryOf text pool.storage.size).offset.toNat = pool.storage.size :=
      toNat_toUInt32_of_lt (by rw [size_storage]; exact room)
    simp only [StringTable.inStorage, decide_eq_true_eq, ByteArray.size_append, size_storage] at inside offset ⊢
    omega

end Whole

-- What is true of every table in use: as many kinds and texts as strings, and a text that is known is the stored one.
structure Coherent (pool : StringPool) : Prop where
  kinds_size : pool.kinds.size = pool.size
  known_size : pool.known.size = pool.size
  whole : pool.Whole
  texts : ∀ (id : UInt32) (text : String), pool.known[id.toNat]? = some (some text) → pool.decoded id = some text

theorem coherent_ofTable {table : StringTable} (inside : table.InStorage) (full : table.kinds.size = table.size) :
    (ofTable table).Coherent := by
  refine ⟨full, Array.size_replicate, ?_, ?_⟩
  · intro entry member
    have within := inside entry member
    simp only [StringTable.inStorage, decide_eq_true_eq] at within
    exact .inl within
  · intro id text found
    rw [ofTable, Array.getElem?_replicate] at found
    split at found
    · cases found
    · cases found

-- What looking at a string does to a table: nothing, or its text becomes known.
theorem get_fst_cases (pool : StringPool) (id : UInt32) :
    (pool.get id).1 = pool ∨ ∃ text, pool.decoded id = some text ∧
      pool.known[id.toNat]? = some none ∧
      (pool.get id).1 = { pool with known := pool.known.setIfInBounds id.toNat (some text) } := by
  unfold get decoded
  split
  · exact .inl rfl
  · exact .inl rfl
  · next unknown =>
    split
    · next entry data found bytes =>
      refine .inr ⟨entry.read data, ?_, unknown, rfl⟩
      rw [found, bytes, Option.bind_some, Option.map_some]
    · exact .inl rfl

-- A text that is not known is decoded.
theorem get_snd (pool : StringPool) (id : UInt32) :
    (pool.get id).2 = pool.known[id.toNat]?.bind fun text => text.or (pool.decoded id) := by
  unfold get decoded
  cases pool.known[id.toNat]? with
  | none => rfl
  | some known =>
    cases known with
    | some text => rfl
    | none =>
      cases pool.entry? id with
      | none => rfl
      | some entry =>
        cases pool.bytes? id with
        | none => rfl
        | some data => rfl

namespace Coherent

theorem get (coherent : pool.Coherent) (id : UInt32) : (pool.get id).1.Coherent := by
  rcases get_fst_cases pool id with same | ⟨text, decodes, -, next⟩
  · rw [same]
    exact coherent
  · rw [next]
    refine ⟨coherent.kinds_size, by simpa [size] using coherent.known_size, coherent.whole, ?_⟩
    intro other found known
    change pool.decoded other = some found
    simp only [Array.getElem?_setIfInBounds] at known
    split at known
    · next here =>
      split at known
      · cases known
        rw [UInt32.toNat_inj.mp here] at decodes
        exact decodes
      · cases known
    · exact coherent.texts other found known

theorem push (coherent : pool.Coherent) {text : String} {kind : StringKind}
    (room : (pool.push text kind).1.storage.size < 0x100000000) : (pool.push text kind).1.Coherent := by
  have size : pool.storage.size + (stored text).size < 0x100000000 := by
    rw [push_eq] at room
    simpa [Nat.add_assoc] using room
  have whole := coherent.whole.push (by omega) text kind
  refine ⟨?_, ?_, whole, ?_⟩
  · rw [size_push, push_eq]
    simpa using coherent.kinds_size
  · rw [size_push, push_eq]
    simpa using coherent.known_size
  · intro id found known
    rw [push_eq] at known
    simp only [Array.getElem?_push, coherent.known_size] at known
    split at known
    · next new =>
      -- The new string is read from the stored bytes as it was.
      cases known
      rw [whole.decoded_eq, table_push]
      exact StringTable.get?_push_self new size kind
    · have old : id.toNat < pool.size := by
        have inside := (Array.getElem?_eq_some_iff.mp known).1
        rwa [coherent.known_size] at inside
      rw [coherent.whole.decoded_push_of_lt old]
      exact coherent.texts id found known

end Coherent

inductive Use where
  | push (text : String) (kind : StringKind)
  | get (id : UInt32)

def use (pool : StringPool) : Use → StringPool
  | .push text kind => (pool.push text kind).1
  | .get id => (pool.get id).1

def run (pool : StringPool) (uses : List Use) : StringPool := uses.foldl use pool

theorem run_nil (pool : StringPool) : pool.run [] = pool := rfl

theorem run_cons (pool : StringPool) (first : Use) (rest : List Use) :
    pool.run (first :: rest) = (pool.use first).run rest := rfl

theorem run_append (pool : StringPool) (uses more : List Use) : pool.run (uses ++ more) = (pool.run uses).run more :=
  List.foldl_append

theorem size_storage_use (pool : StringPool) (u : Use) :
    (pool.use u).storage.size = pool.storage.size + match u with
      | .push text _ => (stored text).size
      | .get _ => 0 := by
  cases u with
  | push text kind => simp [use, push_eq, Nat.add_assoc]
  | get id =>
    rw [use]
    rcases get_fst_cases pool id with same | ⟨_, -, -, same⟩
    · rw [same]
      rfl
    · rw [same]
      rfl

theorem size_use (pool : StringPool) (u : Use) :
    (pool.use u).size = pool.size + match u with
      | .push .. => 1
      | .get _ => 0 := by
  cases u with
  | push text kind => exact size_push pool text kind
  | get id =>
    rw [use]
    rcases get_fst_cases pool id with same | ⟨_, -, -, same⟩
    · rw [same]
      rfl
    · rw [same]
      rfl

-- What was there stays there: a table only grows, and nothing that is known is forgotten.
structure Grown (pool next : StringPool) : Prop where
  storage : pool.storage.size ≤ next.storage.size
  size : pool.size ≤ next.size
  known : ∀ (i : Nat) (text : String), pool.known[i]? = some (some text) → next.known[i]? = some (some text)

theorem Grown.refl (pool : StringPool) : pool.Grown pool := ⟨Nat.le_refl _, Nat.le_refl _, fun _ _ known => known⟩

theorem Grown.trans {next last : StringPool} (first : pool.Grown next) (second : next.Grown last) : pool.Grown last :=
  ⟨Nat.le_trans first.storage second.storage, Nat.le_trans first.size second.size,
    fun i text known => second.known i text (first.known i text known)⟩

theorem grown_use (pool : StringPool) (u : Use) : pool.Grown (pool.use u) := by
  refine ⟨size_storage_use pool u ▸ Nat.le_add_right .., size_use pool u ▸ Nat.le_add_right .., ?_⟩
  intro i text known
  have inside := (Array.getElem?_eq_some_iff.mp known).1
  cases u with
  | push added kind =>
    rw [use, push_eq, Array.getElem?_push, if_neg (Nat.ne_of_lt inside)]
    exact known
  | get id =>
    rw [use]
    rcases get_fst_cases pool id with same | ⟨_, -, unknown, next⟩
    · rwa [same]
    · have other : id.toNat ≠ i := by
        rintro rfl
        rw [unknown] at known
        cases known
      rw [next, Array.getElem?_setIfInBounds, if_neg other]
      exact known

theorem grown_run (pool : StringPool) (uses : List Use) : pool.Grown (pool.run uses) := by
  induction uses generalizing pool with
  | nil => exact .refl pool
  | cons first rest ih => exact (grown_use pool first).trans (ih (pool.use first))

theorem Coherent.run (coherent : pool.Coherent) {uses : List Use}
    (room : (pool.run uses).storage.size < 0x100000000) : (pool.run uses).Coherent := by
  induction uses generalizing pool with
  | nil => exact coherent
  | cons first rest ih =>
    rw [run_cons] at room ⊢
    refine ih ?_ room
    have small := Nat.lt_of_le_of_lt (grown_run (pool.use first) rest).storage room
    cases first with
    | push text kind => exact coherent.push small
    | get id => exact coherent.get id

-- The string of the sample image, which has no room in a slot.
theorem wideStart_made :
    ofRecords (zeros 300) #[⟨0, 0, 255⟩] #[⟨0, 300⟩] #[⟨1, 1⟩] = .ok (ofTable Image.sample.strings) :=
  map_ok_iff.mpr ⟨_, StringTable.ofRecords_exact.mpr ⟨_, rfl, rfl, rfl, Image.sample_wellFormed.strings⟩, rfl⟩

theorem wideStart_storage : (ofTable Image.sample.strings).storage.size = 300 := by
  simp [ofTable, Image.sample]

end StringPool
end CodeImage
