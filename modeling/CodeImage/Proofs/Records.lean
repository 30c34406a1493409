import CodeImage.FunctionHeader
import CodeImage.Proofs.Packed

namespace CodeImage

namespace Schema

theorem smallHeader_lawful : smallHeader.Lawful :=
  ⟨Layout.packed_ofWidths (by decide) (by decide), fun _ => rfl, fun _ => rfl⟩

theorem largeHeader_lawful : largeHeader.Lawful :=
  ⟨Layout.packed_ofWidths (by decide) (by decide), fun _ => rfl, fun _ => rfl⟩

theorem kindRun_lawful : kindRun.Lawful :=
  ⟨Layout.packed_ofWidths (by decide) (by decide), fun _ => rfl, fun _ => rfl⟩

theorem identifierHash_lawful : identifierHash.Lawful :=
  ⟨Layout.packed_ofWidths (by decide) (by decide), fun _ => rfl, fun _ => rfl⟩

theorem stringSlot_lawful : stringSlot.Lawful :=
  ⟨Layout.packed_ofWidths (by decide) (by decide), fun _ => rfl, fun _ => rfl⟩

theorem extent_lawful : extent.Lawful :=
  ⟨Layout.packed_ofWidths (by decide) (by decide), fun _ => rfl, fun _ => rfl⟩

theorem functionSource_lawful : functionSource.Lawful :=
  ⟨Layout.packed_ofWidths (by decide) (by decide), fun _ => rfl, fun _ => rfl⟩

@[simp] theorem size_smallHeader : smallHeader.size = 16 := by decide
@[simp] theorem size_largeHeader : largeHeader.size = 32 := by decide
@[simp] theorem size_kindRun : kindRun.size = 4 := by decide
@[simp] theorem size_identifierHash : identifierHash.size = 4 := by decide
@[simp] theorem size_stringSlot : stringSlot.size = 4 := by decide
@[simp] theorem size_extent : extent.size = 8 := by decide
@[simp] theorem size_functionSource : functionSource.size = 8 := by decide

end Schema

namespace Field

theorem fits_iff (f : Field) (value : UInt32) : f.fits value = true ↔ value.toNat < 2 ^ f.bits := by
  have := Nat.one_le_two_pow (n := f.bits)
  change decide (value.toNat ≤ 2 ^ f.bits - 1) = true ↔ _
  rw [decide_eq_true_iff]
  omega

@[simp]
theorem fits_zero (f : Field) : f.fits 0 = true := by
  rw [fits_iff]
  exact Nat.two_pow_pos f.bits

-- A field of a whole word has room for every value.
theorem fits_of_word {f : Field} (wide : f.bits = 32) (value : UInt32) : f.fits value = true := by
  rw [fits_iff, wide]
  exact value.toNat_lt

end Field

namespace Schema

-- Records of whole words have room for every value.
theorem fits_of_words {α : Type} {schema : Schema α} (wide : ∀ f ∈ schema.layout.fields, f.bits = 32) (record : α) :
    schema.Fits record := by
  intro pair member
  exact Field.fits_of_word (wide pair.1 (List.of_mem_zip member).1) pair.2

theorem extent_fits (record : Extent) : extent.Fits record := fits_of_words (by decide) record

theorem functionSource_fits (record : FunctionSource) : functionSource.Fits record := fits_of_words (by decide) record

theorem identifierHash_fits (record : UInt32) : identifierHash.Fits record := fits_of_words (by decide) record

theorem kindRun_fits {record : KindRun} (count : record.count.toNat < 2 ^ 31) (kind : record.kind.toNat < 2) :
    kindRun.Fits record := by
  intro pair member
  have cases : pair = (⟨"count", 31, 0⟩, record.count) ∨ pair = (⟨"kind", 1, 31⟩, record.kind) := by
    simpa [kindRun, Layout.ofWidths, Layout.place] using member
  rcases cases with rfl | rfl
  · exact (Field.fits_iff _ _).mpr count
  · exact (Field.fits_iff _ _).mpr kind

theorem stringSlot_fits {record : StringSlot} (utf16 : record.isUtf16.toNat < 2)
    (offset : record.offset.toNat < 2 ^ 23) (length : record.length.toNat < 2 ^ 8) : stringSlot.Fits record := by
  intro pair member
  have cases : pair = (⟨"is_utf16", 1, 0⟩, record.isUtf16) ∨ pair = (⟨"offset", 23, 1⟩, record.offset) ∨
      pair = (⟨"length", 8, 24⟩, record.length) := by
    simpa [stringSlot, Layout.ofWidths, Layout.place] using member
  rcases cases with rfl | rfl | rfl
  · exact (Field.fits_iff _ _).mpr utf16
  · exact (Field.fits_iff _ _).mpr offset
  · exact (Field.fits_iff _ _).mpr length

end Schema

-- The cache indices of a stored header, which take a byte each.
def HeaderRecord.SmallCaches (record : HeaderRecord) : Prop :=
  record.readCacheIndex.toNat ≤ 255 ∧ record.writeCacheIndex.toNat ≤ 255

theorem Field.read_le_of_byte {f : Field} (byte : f.bits = 8) (data : ByteArray) (pos : Nat) :
    (f.read data pos).toNat ≤ 255 := by
  have small := f.toNat_read_lt data pos
  rw [byte] at small
  omega

theorem Schema.smallHeader_caches (data : ByteArray) (pos : Nat) : (smallHeader.decode data pos).SmallCaches :=
  ⟨Field.read_le_of_byte rfl data pos, Field.read_le_of_byte rfl data pos⟩

theorem Schema.largeHeader_caches (data : ByteArray) (pos : Nat) : (largeHeader.decode data pos).SmallCaches :=
  ⟨Field.read_le_of_byte rfl data pos, Field.read_le_of_byte rfl data pos⟩

namespace ProhibitInvoke

@[simp]
theorem ofBits?_toBits (p : ProhibitInvoke) : ofBits? p.toBits = some p := by cases p <;> decide

theorem toBits_lt (p : ProhibitInvoke) : p.toBits.toNat < 2 ^ 2 := by cases p <;> decide

end ProhibitInvoke

namespace FunctionHeader

theorem flag_lt (b : Bool) : (flag b).toNat < 2 ^ 1 := by cases b <;> decide

@[simp]
theorem flag_ne_zero (b : Bool) : (flag b != 0) = b := by cases b <;> decide

-- Fields of the function table without a limit on their values: flags and the two invocation bits.
theorem fits_of_limited {record : HeaderRecord} (nine : ∀ pair ∈
      (Schema.smallHeader.layout.fields.zip record.toWords).take sizedFields, pair.1.fits pair.2 = true)
    (prohibit : record.prohibitInvoke.toNat < 2 ^ 2) (strict : record.strictMode.toNat < 2 ^ 1)
    (handler : record.hasExceptionHandler.toNat < 2 ^ 1) (debug : record.hasDebugInfo.toNat < 2 ^ 1)
    (overflowed : record.overflowed.toNat < 2 ^ 1) : Schema.smallHeader.Fits record := by
  intro pair member
  have split : pair ∈ (Schema.smallHeader.layout.fields.zip record.toWords).take sizedFields ∨
      pair ∈ (Schema.smallHeader.layout.fields.zip record.toWords).drop sizedFields := by
    rw [← List.mem_append, List.take_append_drop]
    exact member
  rcases split with first | last
  · exact nine pair first
  · have cases : pair = (⟨"prohibit_invoke", 2, 120⟩, record.prohibitInvoke) ∨
        pair = (⟨"strict_mode", 1, 122⟩, record.strictMode) ∨
        pair = (⟨"has_exception_handler", 1, 123⟩, record.hasExceptionHandler) ∨
        pair = (⟨"has_debug_info", 1, 124⟩, record.hasDebugInfo) ∨
        pair = (⟨"overflowed", 1, 125⟩, record.overflowed) := by
      simpa [Schema.smallHeader, Schema.headerWidths, Layout.ofWidths, Layout.place, HeaderRecord.toWords,
        sizedFields] using last
    rcases cases with rfl | rfl | rfl | rfl | rfl
    · exact (Field.fits_iff _ _).mpr prohibit
    · exact (Field.fits_iff _ _).mpr strict
    · exact (Field.fits_iff _ _).mpr handler
    · exact (Field.fits_iff _ _).mpr debug
    · exact (Field.fits_iff _ _).mpr overflowed

theorem toSmall_fits {h : FunctionHeader} (fits : h.fitsSmall = true) : Schema.smallHeader.Fits h.toSmall := by
  apply fits_of_limited
  · intro pair member
    exact List.all_eq_true.mp fits pair member
  · exact h.prohibitInvoke.toBits_lt
  · exact flag_lt h.strictMode
  · exact flag_lt h.hasExceptionHandler
  · exact flag_lt h.hasDebugInfo
  · exact flag_lt false

theorem ofRecord_toRecord (h : FunctionHeader) : ofRecord h.toRecord = .ok h := by
  simp [ofRecord, toRecord]

-- The caches of a header are those of its record.
theorem caches_of_ofRecord {record : HeaderRecord} {h : FunctionHeader} (made : ofRecord record = .ok h) :
    h.readCacheIndex = record.readCacheIndex ∧ h.writeCacheIndex = record.writeCacheIndex := by
  unfold ofRecord at made
  split at made
  · cases made
  · cases made
    exact ⟨rfl, rfl⟩

theorem ofRecord_toSmall {h : FunctionHeader} (kept : h.overflowed = false) : ofRecord h.toSmall = .ok h := by
  have same : h.toSmall = h.toRecord := by simp [toSmall, toRecord, kept, flag]
  rw [same, ofRecord_toRecord]

-- The words that a stub takes over: those before the first one that does not fit.
def kept (h : FunctionHeader) : List UInt32 := (h.sized.takeWhile fun pair => pair.1.fits pair.2).map (·.2)

theorem fits_getD_takeWhile {pairs : List (Field × UInt32)} {i : Nat} {f : Field} {value : UInt32}
    (found : pairs[i]? = some (f, value)) :
    f.fits (((pairs.takeWhile fun pair => pair.1.fits pair.2).map (·.2)).getD i 0) = true := by
  induction pairs generalizing i with
  | nil => simp at found
  | cons pair rest ih =>
    cases fits : pair.1.fits pair.2 with
    | false => simp [fits]
    | true =>
      simp only [List.takeWhile_cons, fits, if_true, List.map_cons]
      cases i with
      | zero =>
        obtain rfl : pair = (f, value) := by simpa using found
        simpa using fits
      | succ i => simpa using ih (by simpa using found)

theorem fits_kept (h : FunctionHeader) (i : Nat) {f : Field} {value : UInt32} (found : h.sized[i]? = some (f, value)) :
    f.fits (h.kept.getD i 0) = true := fits_getD_takeWhile found

theorem kept_past (h : FunctionHeader) (i : Nat) (past : 9 ≤ i) : h.kept.getD i 0 = 0 := by
  have short : h.kept.length ≤ 9 := by
    rw [kept, List.length_map]
    exact (List.takeWhile_sublist _).length_le
  rw [List.getD_eq_getElem?_getD, List.getElem?_eq_none (by omega), Option.getD_none]

theorem toStub_fits (h : FunctionHeader) (place : UInt32) : Schema.smallHeader.Fits (h.toStub place) := by
  have low : (place &&& 0xffff).toNat < 2 ^ 25 := by
    rw [UInt32.toNat_and]
    exact Nat.lt_of_le_of_lt Nat.and_le_right (by decide)
  have high : (place >>> 16).toNat < 2 ^ 25 := by
    have := place.toNat_lt
    rw [UInt32.toNat_shiftRight, show (16 : UInt32).toNat % 32 = 16 from rfl, Nat.shiftRight_eq_div_pow]
    omega
  apply fits_of_limited
  · intro pair member
    have cases : pair = (⟨"offset", 25, 0⟩, place &&& 0xffff) ∨
        pair = (⟨"param_count", 7, 25⟩, (h.toStub place).paramCount) ∨
        pair = (⟨"bytecode_size_in_bytes", 15, 32⟩, (h.toStub place).codeSize) ∨
        pair = (⟨"function_name", 17, 47⟩, (h.toStub place).functionName) ∨
        pair = (⟨"info_offset", 25, 64⟩, place >>> 16) ∨
        pair = (⟨"frame_size", 7, 89⟩, (h.toStub place).frameSize) ∨
        pair = (⟨"environment_size", 8, 96⟩, (h.toStub place).environmentSize) ∨
        pair = (⟨"highest_read_cache_index", 8, 104⟩, (h.toStub place).readCacheIndex) ∨
        pair = (⟨"highest_write_cache_index", 8, 112⟩, (h.toStub place).writeCacheIndex) := by
      simpa [Schema.smallHeader, Schema.headerWidths, Layout.ofWidths, Layout.place, HeaderRecord.toWords,
        sizedFields, toStub] using member
    rcases cases with rfl | rfl | rfl | rfl | rfl | rfl | rfl | rfl | rfl
    · exact (Field.fits_iff _ _).mpr low
    · exact fits_kept h 1 rfl
    · exact fits_kept h 2 rfl
    · exact fits_kept h 3 rfl
    · exact (Field.fits_iff _ _).mpr high
    · exact fits_kept h 5 rfl
    · exact fits_kept h 6 rfl
    · exact fits_kept h 7 rfl
    · exact fits_kept h 8 rfl
  · rw [show (h.toStub place).prohibitInvoke = 0 from kept_past h 9 (by omega)]; decide
  · rw [show (h.toStub place).strictMode = 0 from kept_past h 10 (by omega)]; decide
  · rw [show (h.toStub place).hasExceptionHandler = 0 from kept_past h 11 (by omega)]; decide
  · rw [show (h.toStub place).hasDebugInfo = 0 from kept_past h 12 (by omega)]; decide
  · exact flag_lt true

-- The two halves of a place, put together again.
theorem largeOffset_toStub (h : FunctionHeader) (place : UInt32) : largeOffset (h.toStub place) = place := by
  change ((place >>> 16) <<< 16) ||| ((place &&& 0xffff) &&& 0xffff) = place
  apply UInt32.toNat_inj.mp
  apply Nat.eq_of_testBit_eq
  intro i
  have small := place.toNat_lt
  have mask : (0xffff : UInt32).toNat = 2 ^ 16 - 1 := by decide
  simp only [UInt32.toNat_or, UInt32.toNat_and, UInt32.toNat_shiftLeft, UInt32.toNat_shiftRight, mask,
    show (16 : UInt32).toNat % 32 = 16 from rfl, Nat.testBit_or, Nat.testBit_and, Nat.testBit_mod_two_pow,
    Nat.testBit_shiftLeft, Nat.testBit_shiftRight, Nat.testBit_two_pow_sub_one]
  by_cases low : i < 16
  · simp [low]
  · by_cases within : i < 32
    · simp [low, within, show 16 ≤ i by omega, show 16 + (i - 16) = i by omega]
    · have clear : place.toNat.testBit i = false :=
        Nat.testBit_lt_two_pow (Nat.lt_of_lt_of_le small (Nat.pow_le_pow_right (by decide) (by omega)))
      simp [low, within, clear]

-- The header that comes back from a file: stored in full, it keeps a byte of each cache index.
def stored (h : FunctionHeader) : FunctionHeader :=
  if h.overflowed then { h with readCacheIndex := h.readCacheIndex % 256, writeCacheIndex := h.writeCacheIndex % 256 }
  else h

theorem stored_of_small_caches {h : FunctionHeader} (read : h.readCacheIndex.toNat ≤ 255)
    (write : h.writeCacheIndex.toNat ≤ 255) : h.stored = h := by
  have cut : ∀ x : UInt32, x.toNat ≤ 255 → x % 256 = x := by
    intro x small
    apply UInt32.toNat_inj.mp
    rw [UInt32.toNat_mod, show (256 : UInt32).toNat = 256 from rfl, Nat.mod_eq_of_lt (by omega)]
  unfold stored
  split
  · rw [cut _ read, cut _ write]
  · rfl

theorem ofLarge_cut_toLarge {h : FunctionHeader} (out : h.overflowed = true) :
    ofLarge (Schema.largeHeader.cut h.toLarge) = .ok h.stored := by
  have word : ∀ (name : String) (offset : Nat) (x : UInt32), Field.cut ⟨name, 32, offset⟩ x = x :=
    fun name offset x => Field.cut_of_fits (Field.fits_of_word rfl x)
  have byte : ∀ (name : String) (offset : Nat) (x : UInt32), Field.cut ⟨name, 8, offset⟩ x = x % 256 := by
    intro name offset x
    apply UInt32.toNat_inj.mp
    rw [Field.cut, toNat_toUInt32, UInt32.toNat_mod, show (256 : UInt32).toNat = 2 ^ 8 from rfl]
    have := Nat.mod_lt x.toNat (show 0 < 2 ^ 8 by decide)
    exact Nat.mod_eq_of_lt (by change x.toNat % 2 ^ 8 < _; omega)
  have bits : ∀ (name : String) (offset : Nat) (p : ProhibitInvoke),
      Field.cut ⟨name, 2, offset⟩ p.toBits = p.toBits :=
    fun name offset p => Field.cut_of_fits ((Field.fits_iff _ _).mpr p.toBits_lt)
  have bit : ∀ (name : String) (offset : Nat) (b : Bool), Field.cut ⟨name, 1, offset⟩ (flag b) = flag b :=
    fun name offset b => Field.cut_of_fits ((Field.fits_iff _ _).mpr (flag_lt b))
  have record : Schema.largeHeader.cut h.toLarge =
      { h.toLarge with readCacheIndex := h.readCacheIndex % 256, writeCacheIndex := h.writeCacheIndex % 256 } := by
    simp [Schema.cut, Schema.largeHeader, Schema.headerWidths, Layout.ofWidths, Layout.place, HeaderRecord.toWords,
      HeaderRecord.ofWords, toLarge, toRecord, word, byte, bits, bit,
      show Field.cut ⟨"overflowed", 1, 245⟩ 0 = 0 from bit _ _ false]
  rw [record]
  simp [ofLarge, ofRecord, toLarge, toRecord, stored, out, Except.map]

end FunctionHeader
end CodeImage
