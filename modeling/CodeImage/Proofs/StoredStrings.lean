import CodeImage.Proofs.StringPool

-- With one string more in the overflow table than 23 bits number, the place of the last one is cut to zero, and its
-- slot names the first of them.

namespace CodeImage

-- The entries that have no room in a slot.
def StringEntry.Wide (entry : StringEntry) : Prop := 2 ^ 23 ≤ entry.offset.toNat ∨ 255 ≤ entry.length.toNat

instance (entry : StringEntry) : Decidable entry.Wide := inferInstanceAs (Decidable (_ ∨ _))

namespace StringTable

theorem isNarrow_eq_false_iff (entry : StringEntry) : isNarrow entry = false ↔ entry.Wide := by
  rw [← Bool.not_eq_true, isNarrow_iff, not_and_or, Nat.not_lt, Nat.not_lt]
  rfl

theorem not_isNarrow (entry : StringEntry) : (!isNarrow entry) = decide entry.Wide := by
  rw [Bool.eq_iff_iff, Bool.not_eq_true', isNarrow_eq_false_iff, decide_eq_true_iff]

-- A slot is marked exactly if its string has no room in it.
theorem length_slotOf_iff (place : Nat) (entry : StringEntry) :
    (slotOf place entry).length = overflowLength ↔ entry.Wide := by
  rw [← isNarrow_eq_false_iff]
  unfold slotOf
  cases narrow : isNarrow entry with
  | true => simpa using length_ne_of_isNarrow narrow
  | false => simp

-- Neighbouring runs differ in kind.
theorem isChain_consRun {kind : StringKind} {runs : List KindRun}
    (chain : runs.IsChain fun run next => run.kind ≠ next.kind) :
    (consRun kind runs).IsChain fun run next => run.kind ≠ next.kind := by
  cases runs with
  | nil => exact .singleton _
  | cons run rest =>
    rw [consRun]
    split
    · -- The first run only gets longer.
      cases rest with
      | nil => exact .singleton _
      | cons next rest =>
        rw [List.isChain_cons_cons] at chain ⊢
        exact chain
    · next other => exact .cons_cons (Ne.symm other) chain

theorem isChain_runsOf (kinds : List StringKind) : (runsOf kinds).IsChain fun run next => run.kind ≠ next.kind := by
  induction kinds with
  | nil => exact .nil
  | cons kind rest ih => exact isChain_consRun ih

theorem positive_consRun {kind : StringKind} {runs : List KindRun} (small : runTotal runs + 1 < 0x100000000)
    (positive : ∀ run ∈ runs, 0 < run.count.toNat) : ∀ run ∈ consRun kind runs, 0 < run.count.toNat := by
  cases runs with
  | nil =>
    intro run member
    obtain rfl := List.mem_singleton.mp member
    exact Nat.zero_lt_one
  | cons first rest =>
    rw [runTotal_cons] at small
    rw [List.forall_mem_cons] at positive
    rw [consRun]
    split
    · rw [List.forall_mem_cons]
      refine ⟨?_, positive.2⟩
      rw [UInt32.toNat_add, show (1 : UInt32).toNat = 1 from rfl]
      omega
    · rw [List.forall_mem_cons, List.forall_mem_cons]
      exact ⟨Nat.zero_lt_one, positive⟩

theorem positive_runsOf {kinds : List StringKind} (small : kinds.length < 0x100000000) :
    ∀ run ∈ runsOf kinds, 0 < run.count.toNat := by
  induction kinds with
  | nil =>
    intro run member
    cases member
  | cons kind rest ih =>
    rw [List.length_cons] at small
    have total := (@runsOf_spec rest (by omega)).1
    exact positive_consRun (total.symm ▸ small) (ih (by omega))

-- Slots that are resolved one by one, whatever their numbers are.
theorem resolveAll_of_forall {slots : List StringSlot} {overflow : Array Extent} {place : StringSlot → Extent}
    (each : ∀ slot ∈ slots, ∀ id, resolve overflow id slot = .ok (place slot)) :
    resolveAll slots.toArray overflow = .ok (slots.map place) := by
  have resolved : ∀ p ∈ slots.zipIdx, resolve overflow p.2 p.1 = .ok (place p.1) :=
    fun p member => each p.1 (List.fst_mem_of_mem_zipIdx member) p.2
  have places : slots.map place = slots.zipIdx.map fun p => place p.1 := by
    conv => lhs; rw [← List.zipIdx_map_fst 0 slots, List.map_map]
    rfl
  rw [places]
  exact mapM_ok_of_forall resolved

end StringTable

namespace StringPool

open StringTable (extentOf)

variable {pool : StringPool}

-- The strings that have no room in a slot, by number.
def promoted (pool : StringPool) : List StringEntry := pool.entries.toList.filter fun entry => entry.Wide

theorem length_promoted (pool : StringPool) : pool.promoted.length = pool.table.overflowCount := by
  rw [promoted, StringTable.overflowCount, List.countP_eq_length_filter]
  simp only [StringTable.not_isNarrow]
  rfl

theorem overflow_eq (pool : StringPool) : pool.table.encode.2.toList = pool.promoted.map extentOf := by
  rw [StringTable.encode_eq, StringTable.wideExtents, promoted]
  simp only [StringTable.not_isNarrow]
  rfl

def reopened (pool : StringPool) : Except ImageError StringPool := do
  let slots ← Schema.stringSlot.parseMany (Schema.stringSlot.encodeMany pool.table.encode.1)
  let overflow ← Schema.extent.parseMany (Schema.extent.encodeMany pool.table.encode.2)
  let runs ← Schema.kindRun.parseMany (Schema.kindRun.encodeMany pool.table.kindRuns)
  ofRecords pool.storage slots overflow runs

-- Only slots can be cut.
theorem reopened_eq (few : pool.kinds.size < 2 ^ 31) :
    pool.reopened = ofRecords pool.storage (pool.table.encode.1.map Schema.stringSlot.cut) pool.table.encode.2
      pool.table.kindRuns := by
  have runs : Schema.kindRun.parseMany (Schema.kindRun.encodeMany pool.table.kindRuns) = .ok pool.table.kindRuns :=
    StringTable.kindRuns_read few
  rw [reopened, Schema.parseMany_encodeMany Schema.stringSlot_lawful (by simp), ok_bind, Schema.extents_read, ok_bind,
    runs, ok_bind]

theorem Coherent.reopened_ok (coherent : pool.Coherent) (few : pool.size < 2 ^ 31)
    (small : pool.promoted.length ≤ 2 ^ 23) : pool.reopened = .ok (ofTable pool.table) := by
  rw [length_promoted] at small
  have slots : pool.table.encode.1.map Schema.stringSlot.cut = pool.table.encode.1 := by
    have read := StringTable.slots_read small
    rwa [Schema.parseMany_encodeMany Schema.stringSlot_lawful (by simp), Except.ok.injEq] at read
  have made : StringTable.ofRecords pool.storage pool.table.encode.1 pool.table.encode.2 pool.table.kindRuns =
      .ok pool.table :=
    StringTable.ofRecords_encode coherent.whole.inStorage coherent.kinds_size (Nat.lt_trans few (by decide))
      (Nat.lt_of_le_of_lt small (by decide))
  rw [reopened_eq (coherent.kinds_size ▸ few), slots, ofRecords, made]
  rfl

theorem Coherent.bytes?_ofTable (coherent : pool.Coherent) (id : UInt32) :
    (ofTable pool.table).bytes? id = pool.bytes? id := by
  have alone := coherent_ofTable coherent.whole.inStorage coherent.kinds_size
  rw [alone.whole.bytes?_eq, table_ofTable, coherent.whole.bytes?_eq]

-- The place that is left of a place in the overflow table.
theorem cut_slot (place : UInt32) :
    Schema.stringSlot.cut ⟨0, place, 255⟩ = ⟨0, (place.toNat % 2 ^ 23).toUInt32, 255⟩ := by
  have bit : Field.cut ⟨"is_utf16", 1, 0⟩ 0 = 0 := by decide
  have length : Field.cut ⟨"length", 8, 24⟩ 255 = 255 := by decide
  have offset : Field.cut ⟨"offset", 23, 1⟩ place = (place.toNat % 2 ^ 23).toUInt32 := rfl
  simp [Schema.cut, Schema.stringSlot, Layout.ofWidths, Layout.place, bit, length, offset]

-- Strings of 255 characters and behind them one of 256, all at the start of the storage. None has room in a slot.
def crowdEntries (n : Nat) : List StringEntry :=
  List.replicate n ⟨false, 0, 255⟩ ++ [⟨false, 0, 256⟩]

def crowdExtents (n : Nat) : List Extent := List.replicate n ⟨0, 255⟩ ++ [⟨0, 256⟩]

-- Slots for them in which the short ones share a place in the overflow table.
def crowdSlots (n : Nat) : List StringSlot := List.replicate n ⟨0, 0, 255⟩ ++ [⟨0, 1, 255⟩]

def crowdTable (n : Nat) : StringTable :=
  ⟨zeros 256, (crowdEntries n).toArray, (List.replicate (n + 1) .string).toArray⟩

theorem size_crowdTable (n : Nat) : (crowdTable n).entries.size = n + 1 := by simp [crowdTable, crowdEntries]

theorem mem_crowdEntries {n : Nat} {entry : StringEntry} (member : entry ∈ crowdEntries n) :
    entry = ⟨false, 0, 255⟩ ∨ entry = ⟨false, 0, 256⟩ := by
  rcases List.mem_append.mp member with front | back
  · exact .inl (List.eq_of_mem_replicate front)
  · exact .inr (List.mem_singleton.mp back)

theorem crowdTable_inStorage (n : Nat) : (crowdTable n).InStorage := by
  intro entry member
  change StringTable.inStorage (zeros 256) entry = true
  rcases mem_crowdEntries (List.mem_toArray.mp member) with rfl | rfl
  · simp [StringTable.inStorage, StringEntry.byteLength]
  · simp [StringTable.inStorage, StringEntry.byteLength]

theorem wideExtents_crowdEntries (n : Nat) : StringTable.wideExtents (crowdEntries n) = crowdExtents n := by
  have first : StringTable.isNarrow ⟨false, 0, 255⟩ = false := by decide
  have last : StringTable.isNarrow ⟨false, 0, 256⟩ = false := by decide
  simp [StringTable.wideExtents, crowdEntries, crowdExtents, first, last, extentOf]

-- The place that such a slot names.
def crowdPlace (slot : StringSlot) : Extent := if slot.offset = 0 then ⟨0, 255⟩ else ⟨0, 256⟩

theorem resolveAll_crowdSlots (n : Nat) :
    StringTable.resolveAll (crowdSlots n).toArray #[⟨0, 255⟩, ⟨0, 256⟩] = .ok (crowdExtents n) := by
  have each : ∀ slot ∈ crowdSlots n, ∀ id,
      StringTable.resolve #[⟨0, 255⟩, ⟨0, 256⟩] id slot = .ok (crowdPlace slot) := by
    intro slot member id
    rcases List.mem_append.mp member with front | back
    · obtain rfl := List.eq_of_mem_replicate front
      rfl
    · obtain rfl := List.mem_singleton.mp back
      rfl
  have places : (crowdSlots n).map crowdPlace = crowdExtents n := by
    simp [crowdSlots, crowdExtents, crowdPlace]
  rw [StringTable.resolveAll_of_forall each, places]

-- A file can hold these strings.
theorem crowd_made {n : Nat} (few : n + 1 < 0x100000000) :
    ofRecords (zeros 256) (crowdSlots n).toArray #[⟨0, 255⟩, ⟨0, 256⟩] #[⟨(n + 1).toUInt32, 0⟩] =
      .ok (ofTable (crowdTable n)) := by
  have kinds : StringTable.kindsOf #[⟨(n + 1).toUInt32, 0⟩] = List.replicate (n + 1) .string := by
    simp [StringTable.kindsOf, Nat.mod_eq_of_lt few, StringKind.ofBit]
  have entries : StringTable.entriesOf (crowdSlots n) (crowdExtents n) = crowdEntries n := by
    simp [StringTable.entriesOf, crowdSlots, crowdExtents, crowdEntries, List.zip_append]
  refine map_ok_iff.mpr ⟨crowdTable n, StringTable.ofRecords_exact.mpr ⟨crowdExtents n, resolveAll_crowdSlots n, ?_, ?_,
    crowdTable_inStorage n⟩, rfl⟩
  · rw [← StringTable.length_kindsOf, kinds]
    simp [crowdSlots]
  · rw [kinds, entries]
    rfl

-- What is left of their slots.
def crowdCut (n : Nat) : List StringSlot := (StringTable.slotsFrom 0 (crowdEntries n)).map Schema.stringSlot.cut

-- Every place is cut to one that belongs to a short string.
theorem resolve_crowdCut {n : Nat} (full : n = 2 ^ 23) {slot : StringSlot} (member : slot ∈ crowdCut n) :
    slot.isUtf16 = 0 ∧ ∀ id, StringTable.resolve (crowdExtents n).toArray id slot = .ok ⟨0, 255⟩ := by
  obtain ⟨whole, listed, rfl⟩ := List.mem_map.mp member
  obtain ⟨i, found⟩ := List.mem_iff_getElem?.mp listed
  rw [StringTable.getElem?_slotsFrom, Option.map_eq_some_iff] at found
  obtain ⟨entry, known, rfl⟩ := found
  have slot (place : Nat) : StringTable.slotOf place entry = ⟨0, place.toUInt32, 255⟩ := by
    rcases mem_crowdEntries (List.mem_of_getElem? known) with rfl | rfl
    · rfl
    · rfl
  rw [slot, cut_slot]
  refine ⟨rfl, ?_⟩
  intro id
  generalize 0 + StringTable.wideBefore (crowdEntries n) i = place
  have below : place.toUInt32.toNat % 2 ^ 23 < n := by omega
  have first : (crowdExtents n)[place.toUInt32.toNat % 2 ^ 23]? = some ⟨0, 255⟩ := by
    rw [crowdExtents, List.getElem?_append_left (by simpa using below), List.getElem?_replicate, if_pos below]
  have number : (place.toUInt32.toNat % 2 ^ 23).toUInt32.toNat = place.toUInt32.toNat % 2 ^ 23 :=
    toNat_toUInt32_of_lt (by omega)
  simp only [StringTable.resolve, overflowLength, if_true, number, List.getElem?_toArray, first]

theorem crowdCut_read {n : Nat} (full : n = 2 ^ 23) :
    ∃ back, StringTable.ofRecords (zeros 256) (crowdCut n).toArray (crowdExtents n).toArray (crowdTable n).kindRuns =
      .ok back := by
  have resolved : StringTable.resolveAll (crowdCut n).toArray (crowdExtents n).toArray =
      .ok ((crowdCut n).map fun _ => ⟨0, 255⟩) :=
    StringTable.resolveAll_of_forall fun slot member => (resolve_crowdCut full member).2
  refine ⟨_, StringTable.ofRecords_exact.mpr ⟨_, resolved, ?_, rfl, ?_⟩⟩
  · have kindCount : (crowdTable n).kinds.size = n + 1 := by simp [crowdTable]
    rw [← StringTable.length_kindsOf, StringTable.kindsOf_kindRuns (by rw [kindCount]; omega)]
    simp [crowdCut, crowdTable, crowdEntries]
  · intro entry member
    obtain ⟨i, found⟩ := List.mem_iff_getElem?.mp (List.mem_toArray.mp member)
    obtain ⟨slot, extent, slotAt, extentAt, rfl⟩ := StringTable.getElem?_entriesOf found
    rw [List.getElem?_map, slotAt] at extentAt
    cases extentAt
    rw [(resolve_crowdCut full (List.mem_of_getElem? slotAt)).1]
    simp [StringTable.inStorage, StringEntry.byteLength]

-- The last string loses a character.
theorem last_of_crowdCut {n : Nat} (full : n = 2 ^ 23) {back : StringTable}
    (made : StringTable.ofRecords (zeros 256) (crowdCut n).toArray (crowdExtents n).toArray (crowdTable n).kindRuns =
      .ok back) : back.entries[n]? ≠ (crowdTable n).entries[n]? := by
  have last : (crowdTable n).entries[n]? = some ⟨false, 0, 256⟩ := by simp [crowdTable, crowdEntries]
  rw [last]
  intro same
  obtain ⟨slot, extent, slotAt, resolved, entry⟩ := StringTable.entry_of_ofRecords made same
  have member : slot ∈ crowdCut n := List.mem_toArray.mp (Array.mem_of_getElem? slotAt)
  rw [(resolve_crowdCut full member).2, Except.ok.injEq] at resolved
  have length : (256 : UInt32) = extent.length := congrArg StringEntry.length entry
  rw [← resolved] at length
  exact absurd length (by decide)

theorem reopened_crowd {n : Nat} (full : n = 2 ^ 23) :
    ∃ back, (ofTable (crowdTable n)).reopened = .ok back ∧
      back.entry? n.toUInt32 ≠ StringPool.entry? (ofTable (crowdTable n)) n.toUInt32 := by
  have few : (ofTable (crowdTable n)).kinds.size < 2 ^ 31 := by
    simp only [ofTable, crowdTable, List.size_toArray, List.length_replicate]
    omega
  have storage : (ofTable (crowdTable n)).storage = zeros 256 := congrArg StringTable.storage (table_ofTable _)
  have slots : (crowdTable n).encode.1.map Schema.stringSlot.cut = (crowdCut n).toArray := by
    simp [StringTable.encode_eq, crowdTable, crowdCut]
  have overflow : (crowdTable n).encode.2 = (crowdExtents n).toArray := by
    simp [StringTable.encode_eq, crowdTable, wideExtents_crowdEntries]
  have number : n.toUInt32.toNat = n := toNat_toUInt32_of_lt (by omega)
  obtain ⟨back, made⟩ := crowdCut_read full
  refine ⟨ofTable back, ?_, ?_⟩
  · rw [reopened_eq few, storage, table_ofTable, slots, overflow, ofRecords, made]
    rfl
  · unfold entry?
    rw [number]
    exact last_of_crowdCut full made

theorem promoted_crowd (n : Nat) : (ofTable (crowdTable n)).promoted.length = n + 1 := by
  rw [length_promoted, table_ofTable, ← StringTable.length_wideExtents]
  simp [crowdTable, wideExtents_crowdEntries, crowdExtents]

theorem exists_lost {n : Nat} (full : n = 2 ^ 23) :
    ∃ storage slots overflow runs start, ofRecords storage slots overflow runs = .ok start ∧
      start.storage.size < 2 ^ 32 ∧ start.size < 2 ^ 31 ∧ start.promoted.length = 2 ^ 23 + 1 ∧
      ∃ back id, start.reopened = .ok back ∧ id.toNat < start.size ∧ back.entry? id ≠ start.entry? id := by
  obtain ⟨back, reopens, lost⟩ := reopened_crowd full
  have count : (ofTable (crowdTable n)).size = n + 1 := size_crowdTable n
  have number : n.toUInt32.toNat = n := toNat_toUInt32_of_lt (by omega)
  refine ⟨_, _, _, _, _, crowd_made (n := n) (by omega), ?_, ?_, ?_, back, n.toUInt32, reopens, ?_, lost⟩
  · simp [ofTable, crowdTable]
  · omega
  · rw [promoted_crowd, full]
  · omega

-- A table with at most 2 ^ 23 strings that have no room in a slot is read back from its records as it was. These
-- strings, and no others, are in the overflow table, by number, and the runs of kinds are as long as can be. With
-- one such string more a table may be read back with another string in the place of one of its own.
theorem records_restore :
    (∀ {storage slots overflow runs start pool} (uses : List Use), ofRecords storage slots overflow runs = .ok start →
      start.run uses = pool → pool.storage.size < 2 ^ 32 → pool.size < 2 ^ 31 → pool.promoted.length ≤ 2 ^ 23 →
      (∃ back, pool.reopened = .ok back ∧ back.size = pool.size ∧ ∀ id, back.entry? id = pool.entry? id ∧
        back.kind? id = pool.kind? id ∧ back.bytes? id = pool.bytes? id) ∧
      pool.table.encode.2.toList = pool.promoted.map StringTable.extentOf ∧
      (∀ (i : Nat) slot entry, pool.table.encode.1[i]? = some slot → pool.entries[i]? = some entry →
        (slot.length = overflowLength ↔ entry.Wide)) ∧
      (∀ run ∈ pool.table.kindRuns, 0 < run.count.toNat) ∧
      pool.table.kindRuns.toList.IsChain fun run next => run.kind ≠ next.kind) ∧
    (∃ storage slots overflow runs start, ofRecords storage slots overflow runs = .ok start ∧
      start.storage.size < 2 ^ 32 ∧ start.size < 2 ^ 31 ∧ start.promoted.length = 2 ^ 23 + 1 ∧
      ∃ back id, start.reopened = .ok back ∧ id.toNat < start.size ∧ back.entry? id ≠ start.entry? id) := by
  refine ⟨?_, exists_lost rfl⟩
  intro storage slots overflow runs start pool uses made reached room few small
  have coherent : pool.Coherent := by
    obtain ⟨table, read, rfl⟩ := map_ok_iff.mp made
    have first := coherent_ofTable (StringTable.inStorage_of_ofRecords read) (StringTable.size_of_ofRecords read).2.2
    rw [← reached] at room ⊢
    exact first.run room
  refine ⟨⟨_, coherent.reopened_ok few small, rfl, fun id => ⟨rfl, rfl, coherent.bytes?_ofTable id⟩⟩, overflow_eq pool,
    ?_, ?_, ?_⟩
  · intro i slot entry found known
    rw [StringTable.encode_eq, List.getElem?_toArray, StringTable.getElem?_slotsFrom, Array.getElem?_toList] at found
    change pool.entries[i]?.map _ = some slot at found
    rw [known, Option.map_some, Option.some.injEq] at found
    rw [← found]
    exact StringTable.length_slotOf_iff _ entry
  · intro run member
    rw [StringTable.kindRuns_eq] at member
    refine StringTable.positive_runsOf ?_ run (List.mem_toArray.mp member)
    rw [Array.length_toList, StringPool.table, coherent.kinds_size]
    exact Nat.lt_trans few (by decide)
  · rw [StringTable.kindRuns_eq]
    exact StringTable.isChain_runsOf _

-- The string of the sample image, and an empty one behind it that is of the other kind.
theorem sample_records_restore :
    ∃ pool back, (ofTable Image.sample.strings).run [.push "" .string] = pool ∧
      pool.promoted = [⟨false, 0, 300⟩] ∧ pool.reopened = .ok back ∧
      back.entry? 0 = some ⟨false, 0, 300⟩ ∧ back.kind? 1 = some .string ∧
      pool.table.encode.2.toList = [⟨0, 300⟩] := by
  obtain ⟨pool, reached⟩ : ∃ pool, (ofTable Image.sample.strings).run [.push "" .string] = pool := ⟨_, rfl⟩
  have room : pool.storage.size < 2 ^ 32 := by
    rw [← reached, run_cons, run_nil, size_storage_use, wideStart_storage]
    decide
  have entries : pool.entries = #[⟨false, 0, 300⟩, ⟨false, 300, 0⟩] := by
    rw [← reached, run_cons, run_nil, use, push_eq, wideStart_storage]
    decide
  have kinds : pool.kinds = #[.identifier, .string] := by
    rw [← reached, run_cons, run_nil, use, push_eq]
    rfl
  have promoted : pool.promoted = [⟨false, 0, 300⟩] := by
    rw [StringPool.promoted, entries]
    decide
  have few : pool.size < 2 ^ 31 := by
    rw [size, entries]
    decide
  obtain ⟨⟨back, reopens, -, same⟩, extents, -⟩ :=
    records_restore.1 _ wideStart_made reached room few (by rw [promoted]; decide)
  refine ⟨pool, back, reached, promoted, reopens, ?_, ?_, ?_⟩
  · rw [(same 0).1, entry?, entries]
    rfl
  · rw [(same 1).2.1, kind?, kinds]
    rfl
  · rw [extents, promoted]
    rfl

end StringPool
end CodeImage
