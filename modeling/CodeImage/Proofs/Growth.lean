import CodeImage.Proofs.Parsed
import CodeImage.Proofs.Text

namespace CodeImage

-- The text that an entry makes of its bytes.
def StringEntry.read (entry : StringEntry) (data : ByteArray) : String :=
  if entry.isUtf16 then Text.ofUtf16 data else Text.ofUtf8 data

namespace StringTable

-- The bytes that a text takes in storage.
def stored (text : String) : ByteArray := if Text.isAscii text then text.toUTF8 else Text.toUtf16 text

-- The entry of a text that is stored from `offset` on.
def entryOf (text : String) (offset : Nat) : StringEntry :=
  ⟨!Text.isAscii text, offset.toUInt32,
    (if Text.isAscii text then (stored text).size else (stored text).size / 2).toUInt32⟩

theorem push_eq (table : StringTable) (text : String) (kind : StringKind) :
    table.push text kind = (⟨table.storage ++ stored text, table.entries.push (entryOf text table.storage.size),
      table.kinds.push kind⟩, table.size.toUInt32) := by
  unfold push entryOf stored
  cases Text.isAscii text <;> rfl

variable {table : StringTable} {id : UInt32}

-- An offset and a length that are cut to words only get smaller, so a new entry never leaves the storage.
theorem inStorage_entryOf (storage : ByteArray) (text : String) :
    inStorage (storage ++ stored text) (entryOf text storage.size) = true := by
  have offset : (storage.size.toUInt32).toNat ≤ storage.size := by
    rw [toNat_toUInt32]
    exact Nat.mod_le _ _
  have length (n : Nat) : n.toUInt32.toNat ≤ n := by
    rw [toNat_toUInt32]
    exact Nat.mod_le _ _
  cases ascii : Text.isAscii text with
  | true =>
    have := length (stored text).size
    simp [inStorage, entryOf, StringEntry.byteLength, ascii]
    omega
  | false =>
    have := length ((stored text).size / 2)
    simp [inStorage, entryOf, StringEntry.byteLength, ascii]
    omega

theorem inStorage_append {storage : ByteArray} {entry : StringEntry} (inside : inStorage storage entry = true)
    (more : ByteArray) : inStorage (storage ++ more) entry = true := by
  simp only [inStorage, decide_eq_true_eq, ByteArray.size_append] at inside ⊢
  omega

theorem inStorage_push (inside : table.InStorage) (text : String) (kind : StringKind) :
    (table.push text kind).1.InStorage := by
  intro entry member
  rw [push_eq] at member ⊢
  rcases Array.mem_push.mp member with old | rfl
  · exact inStorage_append (inside entry old) _
  · exact inStorage_entryOf table.storage text

@[simp]
theorem size_push (table : StringTable) (text : String) (kind : StringKind) :
    (table.push text kind).1.size = table.size + 1 := by
  rw [push_eq]
  exact Array.size_push _

theorem kinds_push (full : table.kinds.size = table.size) (text : String) (kind : StringKind) :
    (table.push text kind).1.kinds.size = (table.push text kind).1.size := by
  rw [size_push, push_eq, ← full]
  exact Array.size_push _

theorem kind?_push_of_lt (full : table.kinds.size = table.size) (old : id.toNat < table.size) (text : String)
    (kind : StringKind) : StringTable.kind? (table.push text kind).1 id = table.kind? id := by
  rw [push_eq, kind?, kind?]
  rw [← full] at old
  exact Array.getElem?_push_lt old ▸ (Array.getElem?_eq_getElem old).symm

theorem kind?_push_self (full : table.kinds.size = table.size) (new : id.toNat = table.size) (text : String)
    (kind : StringKind) : StringTable.kind? (table.push text kind).1 id = some kind := by
  rw [push_eq, kind?, new, ← full]
  exact Array.getElem?_push_size

theorem entry?_push_of_lt (old : id.toNat < table.size) (text : String) (kind : StringKind) :
    StringTable.entry? (table.push text kind).1 id = table.entry? id := by
  rw [push_eq, entry?, entry?]
  exact Array.getElem?_push_lt old ▸ (Array.getElem?_eq_getElem old).symm

theorem entry?_push_self (new : id.toNat = table.size) (text : String) (kind : StringKind) :
    StringTable.entry? (table.push text kind).1 id = some (entryOf text table.storage.size) := by
  rw [push_eq, entry?, new]
  exact Array.getElem?_push_size

-- What a string that lies in the storage holds.
theorem slice?_of_entry? (inside : table.InStorage) {entry : StringEntry} (found : table.entry? id = some entry) :
    ∃ data, slice? table.storage entry.offset.toNat entry.byteLength = some data := by
  have within := inside entry (Array.mem_of_getElem? found)
  refine ⟨_, if_pos ?_⟩
  simpa [inStorage] using within

theorem bytes?_push_of_lt (inside : table.InStorage) (old : id.toNat < table.size) (text : String)
    (kind : StringKind) : (table.push text kind).1.bytes? id = table.bytes? id := by
  have found : table.entry? id = some table.entries[id.toNat] := Array.getElem?_eq_getElem old
  obtain ⟨data, slice⟩ := slice?_of_entry? inside found
  rw [bytes?, bytes?, entry?_push_of_lt old, found, Option.bind_some, Option.bind_some, slice, push_eq]
  exact slice?_append _ slice

theorem get?_eq (table : StringTable) (id : UInt32) :
    table.get? id = (table.entry? id).bind fun entry =>
      (table.bytes? id).map fun data => if entry.isUtf16 then Text.ofUtf16 data else Text.ofUtf8 data := by
  unfold get? bytes?
  cases table.entry? id with
  | none => rfl
  | some entry => rfl

theorem get?_push_of_lt (inside : table.InStorage) (old : id.toNat < table.size) (text : String) (kind : StringKind) :
    (table.push text kind).1.get? id = table.get? id := by
  rw [get?_eq, get?_eq, entry?_push_of_lt old, bytes?_push_of_lt inside old]

theorem byteLength_entryOf {text : String} (small : (stored text).size < 0x100000000) (offset : Nat) :
    (entryOf text offset).byteLength = (stored text).size := by
  cases ascii : Text.isAscii text with
  | true => simp [entryOf, StringEntry.byteLength, ascii, Nat.mod_eq_of_lt small]
  | false =>
    have even : (stored text).size % 2 = 0 := by
      rw [stored, ascii]
      exact Text.size_toUtf16_even text
    have half : (stored text).size / 2 % 4294967296 = (stored text).size / 2 := Nat.mod_eq_of_lt (by omega)
    simp [entryOf, StringEntry.byteLength, ascii, half]
    omega

theorem read_stored (text : String) (offset : Nat) : (entryOf text offset).read (stored text) = text := by
  unfold entryOf StringEntry.read stored
  cases ascii : Text.isAscii text with
  | true => exact Text.ofUtf8_toUTF8 ascii
  | false => exact Text.ofUtf16_toUtf16 text

-- A string that was added is read from the stored bytes as it was.
theorem get?_push_self {text : String} (new : id.toNat = table.size)
    (room : table.storage.size + (stored text).size < 0x100000000) (kind : StringKind) :
    (table.push text kind).1.get? id = some text := by
  have offset : (entryOf text table.storage.size).offset.toNat = table.storage.size :=
    toNat_toUInt32_of_lt (by omega)
  have bytes : slice? (table.push text kind).1.storage (entryOf text table.storage.size).offset.toNat
      (entryOf text table.storage.size).byteLength = some (stored text) := by
    rw [offset, byteLength_entryOf (by omega), push_eq, slice?_eq_some_iff]
    exact ⟨Holds.suffix_append .., rfl⟩
  rw [get?, entry?_push_self new, Option.bind_some, bytes, Option.map_some]
  exact congrArg some (read_stored text table.storage.size)

-- A string that lies in the storage can be read.
theorem isSome_bytes? (inside : table.InStorage) (id : UInt32) : (table.bytes? id).isSome = decide (id.toNat < table.size) := by
  by_cases known : id.toNat < table.size
  · have found : table.entry? id = some table.entries[id.toNat] := Array.getElem?_eq_getElem known
    obtain ⟨data, slice⟩ := slice?_of_entry? inside found
    simp [bytes?, found, slice, known]
  · have missing : table.entry? id = none := Array.getElem?_eq_none (Nat.le_of_not_lt known)
    simp [bytes?, missing, known]

theorem isSome_get? (inside : table.InStorage) (id : UInt32) : (table.get? id).isSome = decide (id.toNat < table.size) := by
  rw [← isSome_bytes? inside, get?_eq]
  cases found : table.entry? id with
  | none => simp [bytes?, found]
  | some entry => simp

end StringTable

namespace OffsetTable

variable {table : OffsetTable}

theorem inStorage_push (inside : table.InStorage) (data : ByteArray) : (table.push data).1.InStorage := by
  intro entry member
  rcases Array.mem_push.mp member with old | rfl
  · have within := inside entry old
    simp only [push, ByteArray.size_append]
    omega
  · have offset := Nat.mod_le table.storage.size 0x100000000
    have length := Nat.mod_le data.size 0x100000000
    simp only [push, ByteArray.size_append, toNat_toUInt32]
    omega

-- An entry that lies in the storage can be read.
theorem isSome_get? (inside : table.InStorage) (id : UInt32) : (table.get? id).isSome = decide (id.toNat < table.size) := by
  by_cases known : id.toNat < table.size
  · have found : table.entries[id.toNat]? = some table.entries[id.toNat] := Array.getElem?_eq_getElem known
    have within := inside _ (Array.getElem_mem known)
    simp [get?, slice?, found, within, known]
  · have missing : table.entries[id.toNat]? = none := Array.getElem?_eq_none (Nat.le_of_not_lt known)
    simp [get?, missing, known]

end OffsetTable

namespace Image

variable {image : Image}

theorem text?_of_le {id : UInt32} (full : image.known.size = image.strings.size) (outside : image.strings.size ≤ id.toNat) :
    image.text? id = none := by
  rw [text?, Array.getElem?_eq_none (full ▸ outside)]

theorem Readable.isSome_text? (readable : image.Readable) (id : UInt32) :
    (image.text? id).isSome = decide (id.toNat < image.strings.size) := by
  have stored := StringTable.isSome_get? readable.strings id
  unfold text?
  split
  · next missing =>
    rw [Array.getElem?_eq_none_iff, readable.known] at missing
    rw [decide_eq_false (Nat.not_lt.mpr missing)]
    rfl
  · next text found =>
    have inside := (Array.getElem?_eq_some_iff.mp found).1
    rw [readable.known] at inside
    rw [decide_eq_true inside]
    rfl
  · exact stored

-- A text that is known is the stored one.
def Coherent (image : Image) : Prop :=
  ∀ (id : UInt32) (text : String), image.known[id.toNat]? = some (some text) → image.strings.get? id = some text

theorem coherent_of_unknown (unknown : image.known = Array.replicate image.strings.size none) : image.Coherent := by
  intro id text found
  rw [unknown, Array.getElem?_replicate] at found
  split at found
  · cases found
  · cases found

-- Then it makes no difference whether a text is known.
theorem Coherent.text?_eq (coherent : image.Coherent) (full : image.known.size = image.strings.size) (id : UInt32) :
    image.text? id = image.strings.get? id := by
  unfold text?
  split
  · next missing =>
    rw [Array.getElem?_eq_none_iff, full] at missing
    have absent : image.strings.entry? id = none := Array.getElem?_eq_none missing
    rw [StringTable.get?, absent, Option.bind_none]
  · next text found => exact (coherent id text found).symm
  · rfl

-- A string at the end of the table, with its text. Strings and identifiers are added alike.
def pushed (image : Image) (text : String) (kind : StringKind) (hashes : Array UInt32) : Image :=
  { image with
    strings := (image.strings.push text kind).1
    known := image.known.push (some text)
    identifierHashes := hashes }

theorem addString_eq (image : Image) (text : String) :
    (image.addString text).1 = image.pushed text .string image.identifierHashes := rfl

theorem addIdentifier_eq (image : Image) (text : String) (hash : UInt32) :
    (image.addIdentifier text hash).1 = image.pushed text .identifier (image.identifierHashes.push hash) := rfl

theorem text?_addString_of_lt {id : UInt32} (inside : image.strings.InStorage) (full : image.known.size = image.strings.size)
    (old : id.toNat < image.strings.size) (text : String) : (image.addString text).1.text? id = image.text? id := by
  have place : (image.known.push (some text))[id.toNat]? = image.known[id.toNat]? := by
    rw [Array.getElem?_push, if_neg (by omega)]
  simp only [addString_eq, pushed, text?, place, StringTable.get?_push_of_lt inside old]

theorem text?_addString_self (full : image.known.size = image.strings.size) (few : image.strings.size < 0x100000000)
    (text : String) : (image.addString text).1.text? image.strings.size.toUInt32 = some text := by
  have place : (image.known.push (some text))[image.strings.size.toUInt32.toNat]? = some (some text) := by
    rw [toNat_toUInt32_of_lt few, ← full, Array.getElem?_push_size]
  simp only [addString_eq, pushed, text?, place]

-- Several strings at once, as merging adds them.
def addStrings (image : Image) (texts : List String) : Image :=
  texts.foldl (fun image text => (image.addString text).1) image

@[simp]
theorem addStrings_nil (image : Image) : image.addStrings [] = image := rfl

@[simp]
theorem addStrings_cons (image : Image) (text : String) (texts : List String) :
    image.addStrings (text :: texts) = (image.addString text).1.addStrings texts := rfl

theorem Readable.pushed (readable : image.Readable) (text : String) (kind : StringKind) (hashes : Array UInt32) :
    (image.pushed text kind hashes).Readable := by
  refine ⟨StringTable.inStorage_push readable.strings text kind, StringTable.kinds_push readable.kinds text kind, ?_⟩
  simp only [Image.pushed, Array.size_push, readable.known, StringTable.size_push]

-- What adding strings leaves alone, and what it does to the table.
structure Extended (image : Image) (texts : List String) (next : Image) : Prop where
  functions : next.functions = image.functions
  bodies : next.bodies = image.bodies
  bigInts : next.bigInts = image.bigInts
  regExps : next.regExps = image.regExps
  size : next.strings.size = image.strings.size + texts.length
  readable : next.Readable
  text : image.strings.size + texts.length ≤ 0x100000000 → ∀ id, next.text? id =
    if id.toNat < image.strings.size then image.text? id else texts[id.toNat - image.strings.size]?
  entry : ∀ id, id.toNat < image.strings.size → next.strings.entry? id = image.strings.entry? id
  kept : ∀ id, id.toNat < image.strings.size → next.strings.kind? id = image.strings.kind? id
  kind : ∀ id, image.strings.size ≤ id.toNat → id.toNat < next.strings.size → next.strings.kind? id = some .string

theorem extended_addStrings (readable : image.Readable) (texts : List String) :
    image.Extended texts (image.addStrings texts) := by
  induction texts generalizing image with
  | nil =>
    refine ⟨rfl, rfl, rfl, rfl, rfl, readable, ?_, fun _ _ => rfl, fun _ _ => rfl, ?_⟩
    · intro _ id
      split
      · rfl
      · next outside => simpa using text?_of_le readable.known (Nat.le_of_not_lt outside)
    · intro id above below
      exact absurd below (Nat.not_lt.mpr above)
  | cons text rest ih =>
    have sizeNext : (image.addString text).1.strings.size = image.strings.size + 1 := StringTable.size_push ..
    have later : (image.addString text).1.Extended rest ((image.addString text).1.addStrings rest) :=
      ih (readable.pushed text .string image.identifierHashes)
    refine ⟨later.functions, later.bodies, later.bigInts, later.regExps, ?_, later.readable, ?_, ?_, ?_, ?_⟩
    · rw [addStrings_cons, later.size, sizeNext, List.length_cons]
      omega
    · intro few id
      rw [List.length_cons] at few
      have one : image.strings.size < 0x100000000 := by omega
      rw [addStrings_cons, later.text (by rw [sizeNext]; omega), sizeNext]
      by_cases old : id.toNat < image.strings.size
      · rw [if_pos (by omega), if_pos old, text?_addString_of_lt readable.strings readable.known old]
      · rw [if_neg old]
        by_cases new : id.toNat = image.strings.size
        · have self : id = image.strings.size.toUInt32 := by
            apply UInt32.toNat_inj.mp
            rw [toNat_toUInt32_of_lt one, new]
          rw [if_pos (by omega), self, text?_addString_self readable.known one, toNat_toUInt32_of_lt one]
          simp
        · rw [if_neg (by omega), show id.toNat - image.strings.size = id.toNat - (image.strings.size + 1) + 1 by omega]
          rfl
    · intro id old
      rw [addStrings_cons, later.entry id (by rw [sizeNext]; omega)]
      exact StringTable.entry?_push_of_lt old text .string
    · intro id old
      rw [addStrings_cons, later.kept id (by rw [sizeNext]; omega)]
      exact StringTable.kind?_push_of_lt readable.kinds old text .string
    · intro id above below
      by_cases new : id.toNat = image.strings.size
      · rw [addStrings_cons, later.kept id (by rw [sizeNext]; omega)]
        exact StringTable.kind?_push_self readable.kinds new text .string
      · exact later.kind id (by rw [sizeNext]; omega) below

end Image
end CodeImage
