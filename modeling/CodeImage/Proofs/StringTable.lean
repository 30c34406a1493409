import CodeImage.StringTable
import CodeImage.OffsetTable
import CodeImage.Proofs.Outcome
import CodeImage.Proofs.Records

namespace CodeImage

namespace StringKind

@[simp]
theorem ofBit_toBit (kind : StringKind) : ofBit kind.toBit = kind := by cases kind <;> decide

theorem toBit_lt (kind : StringKind) : kind.toBit.toNat < 2 := by cases kind <;> decide

end StringKind

theorem Schema.extents_read (records : Array Extent) :
    Schema.extent.parseMany (Schema.extent.encodeMany records) = .ok records :=
  Schema.parseMany_encodeMany_of_fits Schema.extent_lawful (by simp) fun record _ => Schema.extent_fits record

namespace StringTable

-- The number of strings that need the overflow table.
def overflowCount (table : StringTable) : Nat := table.entries.toList.countP fun entry => !isNarrow entry

-- Every entry lies inside the storage.
def InStorage (table : StringTable) : Prop := ∀ entry ∈ table.entries, inStorage table.storage entry = true

def extentOf (entry : StringEntry) : Extent := ⟨entry.offset, entry.length⟩

theorem isNarrow_iff {entry : StringEntry} :
    isNarrow entry = true ↔ entry.offset.toNat < 0x800000 ∧ entry.length.toNat < 255 := by
  rw [isNarrow, Bool.and_eq_true, decide_eq_true_eq, decide_eq_true_eq, UInt32.lt_iff_toNat_lt]
  rfl

theorem length_ne_of_isNarrow {entry : StringEntry} (narrow : isNarrow entry = true) :
    entry.length ≠ overflowLength := by
  intro full
  have small := (isNarrow_iff.mp narrow).2
  rw [full] at small
  exact absurd small (by decide)

-- The slots of entries, when `used` entries of the overflow table are taken already.
def slotsFrom (used : Nat) : List StringEntry → List StringSlot
  | [] => []
  | entry :: rest =>
    if isNarrow entry then ⟨if entry.isUtf16 then 1 else 0, entry.offset, entry.length⟩ :: slotsFrom used rest
    else ⟨if entry.isUtf16 then 1 else 0, used.toUInt32, overflowLength⟩ :: slotsFrom (used + 1) rest

def wideExtents (entries : List StringEntry) : List Extent :=
  (entries.filter fun entry => !isNarrow entry).map extentOf

theorem wideExtents_narrow {entry : StringEntry} (narrow : isNarrow entry = true) (rest : List StringEntry) :
    wideExtents (entry :: rest) = wideExtents rest := by simp [wideExtents, narrow]

theorem wideExtents_wide {entry : StringEntry} (wide : isNarrow entry = false) (rest : List StringEntry) :
    wideExtents (entry :: rest) = extentOf entry :: wideExtents rest := by simp [wideExtents, wide]

theorem length_wideExtents (table : StringTable) : (wideExtents table.entries.toList).length = table.overflowCount := by
  rw [wideExtents, List.length_map, overflowCount, List.countP_eq_length_filter]

-- One step of `encode`.
def encodeStep (state : Array StringSlot × Array Extent) (entry : StringEntry) : Array StringSlot × Array Extent :=
  if isNarrow entry then (state.1.push ⟨if entry.isUtf16 then 1 else 0, entry.offset, entry.length⟩, state.2)
  else (state.1.push ⟨if entry.isUtf16 then 1 else 0, state.2.size.toUInt32, overflowLength⟩,
    state.2.push ⟨entry.offset, entry.length⟩)

theorem foldl_encodeStep (slots : Array StringSlot) (overflow : Array Extent) (entries : List StringEntry) :
    entries.foldl encodeStep (slots, overflow) =
      (slots ++ (slotsFrom overflow.size entries).toArray, overflow ++ (wideExtents entries).toArray) := by
  induction entries generalizing slots overflow with
  | nil => simp [slotsFrom, wideExtents]
  | cons entry rest ih =>
    cases narrow : isNarrow entry with
    | true => simp [encodeStep, slotsFrom, narrow, ih, wideExtents_narrow narrow]
    | false => simp [encodeStep, slotsFrom, narrow, ih, wideExtents_wide narrow, extentOf]

theorem encode_eq (table : StringTable) :
    table.encode = ((slotsFrom 0 table.entries.toList).toArray, (wideExtents table.entries.toList).toArray) := by
  have steps := foldl_encodeStep #[] #[] table.entries.toList
  rw [Array.empty_append, Array.empty_append, Array.size_empty] at steps
  rw [← steps, encode, ← Array.foldl_toList]
  rfl

@[simp]
theorem length_slotsFrom (used : Nat) (entries : List StringEntry) : (slotsFrom used entries).length = entries.length := by
  induction entries generalizing used with
  | nil => rfl
  | cons entry rest ih =>
    rw [slotsFrom]
    split <;> simp [ih]

-- The induction is on the entries; the extents in front are those of earlier strings.
theorem resolve_slotsFrom {entries : List StringEntry} {front : List Extent} (id : Nat)
    (small : front.length + (wideExtents entries).length < 0x100000000) :
    ((slotsFrom front.length entries).zipIdx id).mapM
        (fun (slot, id) => resolve (front ++ wideExtents entries).toArray id slot) =
      .ok (entries.map extentOf) := by
  induction entries generalizing front id with
  | nil => rfl
  | cons entry rest ih =>
    cases narrow : isNarrow entry with
    | true =>
      rw [wideExtents_narrow narrow] at small ⊢
      rw [slotsFrom, if_pos narrow, List.zipIdx_cons, List.map_cons]
      refine mapM_cons_ok ?_ (ih (id + 1) small)
      simp [resolve, length_ne_of_isNarrow narrow, extentOf]
    | false =>
      rw [wideExtents_wide narrow] at small ⊢
      have joined : front ++ extentOf entry :: wideExtents rest = (front ++ [extentOf entry]) ++ wideExtents rest := by
        simp
      have later := @ih (front ++ [extentOf entry]) (id + 1) (by simp at small ⊢; omega)
      rw [List.length_append, List.length_singleton, ← joined] at later
      have index : front.length.toUInt32.toNat = front.length := by
        rw [toNat_toUInt32_of_lt (by omega)]
      simp only [slotsFrom, narrow, Bool.false_eq_true, if_false, List.zipIdx_cons, List.map_cons]
      refine mapM_cons_ok ?_ later
      simp only [resolve, if_true, index]
      simp

-- The number of strings before a place that need the overflow table.
def wideBefore (entries : List StringEntry) (i : Nat) : Nat := (entries.take i).countP fun entry => !isNarrow entry

-- The slot of an entry, and for one without room in a slot the place that it has in the overflow table.
def slotOf (place : Nat) (entry : StringEntry) : StringSlot :=
  if isNarrow entry then ⟨if entry.isUtf16 then 1 else 0, entry.offset, entry.length⟩
  else ⟨if entry.isUtf16 then 1 else 0, place.toUInt32, overflowLength⟩

theorem wideBefore_cons_succ (entry : StringEntry) (rest : List StringEntry) (i : Nat) :
    wideBefore (entry :: rest) (i + 1) = wideBefore rest i + if isNarrow entry then 0 else 1 := by
  rw [wideBefore, List.take_succ_cons, List.countP_cons, wideBefore]
  cases isNarrow entry <;> rfl

theorem getElem?_slotsFrom (used : Nat) (entries : List StringEntry) (i : Nat) :
    (slotsFrom used entries)[i]? = entries[i]?.map (slotOf (used + wideBefore entries i)) := by
  induction entries generalizing used i with
  | nil => rfl
  | cons entry rest ih =>
    cases i with
    | zero =>
      rw [slotsFrom]
      cases narrow : isNarrow entry with
      | true => simp [slotOf, narrow]
      | false => simp [slotOf, narrow, wideBefore]
    | succ i =>
      rw [slotsFrom, wideBefore_cons_succ, List.getElem?_cons_succ]
      cases narrow : isNarrow entry with
      | true => simp [ih]
      | false => simp [ih, Nat.add_right_comm, ← Nat.add_assoc]

-- A string without room in a slot is found behind those before it that have none.
theorem getElem?_wideExtents {entries : List StringEntry} {i : Nat} {entry : StringEntry}
    (found : entries[i]? = some entry) (wide : isNarrow entry = false) :
    (wideExtents entries)[wideBefore entries i]? = some (extentOf entry) := by
  induction entries generalizing i with
  | nil => cases found
  | cons first rest ih =>
    cases i with
    | zero =>
      cases found
      rw [wideExtents_wide wide]
      simp [wideBefore]
    | succ i =>
      rw [List.getElem?_cons_succ] at found
      rw [wideBefore_cons_succ]
      cases narrow : isNarrow first with
      | true => simp [wideExtents_narrow narrow, ih found]
      | false => simp [wideExtents_wide narrow, ih found]

theorem wideBefore_lt {entries : List StringEntry} {i : Nat} {entry : StringEntry} (found : entries[i]? = some entry)
    (wide : isNarrow entry = false) : wideBefore entries i < (wideExtents entries).length := by
  have place := getElem?_wideExtents found wide
  exact (List.getElem?_eq_some_iff.mp place).1

-- Narrow slots fit by definition, and the others while their place takes 23 bits.
theorem slotOf_fits {place : Nat} {entry : StringEntry} (small : isNarrow entry = false → place < 0x800000) :
    Schema.stringSlot.Fits (slotOf place entry) := by
  have bit : ∀ b : Bool, (if b then (1 : UInt32) else 0).toNat < 2 := by decide
  unfold slotOf
  cases narrow : isNarrow entry with
  | true =>
    obtain ⟨offset, length⟩ := isNarrow_iff.mp narrow
    rw [if_pos rfl]
    exact Schema.stringSlot_fits (bit _) offset (Nat.lt_trans length (by decide))
  | false =>
    have room := small narrow
    rw [if_neg Bool.false_ne_true]
    refine Schema.stringSlot_fits (bit _) ?_ (show (255 : Nat) < 2 ^ 8 by decide)
    simp only [toNat_toUInt32]
    omega

theorem slotsFrom_fits {used : Nat} {entries : List StringEntry}
    (small : used + (wideExtents entries).length ≤ 0x800000) :
    ∀ slot ∈ slotsFrom used entries, Schema.stringSlot.Fits slot := by
  intro slot member
  obtain ⟨i, found⟩ := List.mem_iff_getElem?.mp member
  rw [getElem?_slotsFrom, Option.map_eq_some_iff] at found
  obtain ⟨entry, known, rfl⟩ := found
  apply slotOf_fits
  intro wide
  have before := wideBefore_lt known wide
  omega

def runsOf (kinds : List StringKind) : List KindRun := kinds.foldr consRun []

theorem kindRuns_eq (table : StringTable) : table.kindRuns = (runsOf table.kinds.toList).toArray := by
  rw [kindRuns, runsOf, ← Array.foldr_toList]

def runTotal (runs : List KindRun) : Nat := total (runs.map (·.count.toNat))

def expand (runs : List KindRun) : List StringKind :=
  runs.flatMap fun run => List.replicate run.count.toNat (.ofBit run.kind)

theorem runTotal_cons (run : KindRun) (runs : List KindRun) :
    runTotal (run :: runs) = run.count.toNat + runTotal runs := rfl

theorem expand_cons (run : KindRun) (runs : List KindRun) :
    expand (run :: runs) = List.replicate run.count.toNat (.ofBit run.kind) ++ expand runs := rfl

theorem consRun_spec {kind : StringKind} {runs : List KindRun} (small : runTotal runs + 1 < 0x100000000) :
    runTotal (consRun kind runs) = runTotal runs + 1 ∧ expand (consRun kind runs) = kind :: expand runs := by
  have one : (1 : UInt32).toNat = 1 := rfl
  cases runs with
  | nil => simp [consRun, runTotal, total, expand]
  | cons run rest =>
    rw [consRun, runTotal_cons] at *
    split
    · next same =>
      have count : (run.count + 1).toNat = run.count.toNat + 1 := by
        rw [UInt32.toNat_add, one]; omega
      rw [runTotal_cons, expand_cons, count, expand_cons, List.replicate_succ, same, StringKind.ofBit_toBit]
      exact ⟨by omega, rfl⟩
    · rw [runTotal_cons, runTotal_cons, expand_cons, one, StringKind.ofBit_toBit]
      exact ⟨by omega, rfl⟩

theorem runsOf_spec {kinds : List StringKind} (small : kinds.length < 0x100000000) :
    runTotal (runsOf kinds) = kinds.length ∧ expand (runsOf kinds) = kinds := by
  induction kinds with
  | nil => exact ⟨rfl, rfl⟩
  | cons kind rest ih =>
    rw [List.length_cons] at small
    obtain ⟨size, kindsBack⟩ := ih (by omega)
    have step := @consRun_spec kind (runsOf rest) (by omega)
    rw [size, kindsBack] at step
    exact step

theorem count_le_runTotal {run : KindRun} {runs : List KindRun} (member : run ∈ runs) :
    run.count.toNat ≤ runTotal runs := by
  induction runs with
  | nil => cases member
  | cons first rest ih =>
    rw [runTotal_cons]
    rcases List.mem_cons.mp member with rfl | later
    · omega
    · have := ih later
      omega

theorem kind_lt_of_mem_runsOf {run : KindRun} {kinds : List StringKind} (member : run ∈ runsOf kinds) :
    run.kind.toNat < 2 := by
  induction kinds generalizing run with
  | nil => cases member
  | cons kind rest ih =>
    change run ∈ consRun kind (runsOf rest) at member
    cases runs : runsOf rest with
    | nil =>
      rw [runs, consRun] at member
      obtain rfl := List.mem_singleton.mp member
      exact kind.toBit_lt
    | cons first others =>
      rw [runs] at ih
      rw [runs, consRun] at member
      split at member
      · rcases List.mem_cons.mp member with rfl | later
        · exact @ih first (List.mem_cons_self ..)
        · exact ih (List.mem_cons_of_mem _ later)
      · rcases List.mem_cons.mp member with rfl | later
        · exact kind.toBit_lt
        · exact ih later

theorem runsOf_fits {kinds : List StringKind} (small : kinds.length < 2 ^ 31) :
    ∀ run ∈ runsOf kinds, Schema.kindRun.Fits run := by
  intro run member
  have size := (@runsOf_spec kinds (by omega)).1
  have count := count_le_runTotal member
  exact Schema.kindRun_fits (by omega) (kind_lt_of_mem_runsOf member)

-- The entries that slots and extents make up.
def entriesOf (slots : List StringSlot) (extents : List Extent) : List StringEntry :=
  (slots.zip extents).map fun (slot, extent) => ⟨slot.isUtf16 != 0, extent.offset, extent.length⟩

theorem entriesOf_slotsFrom (used : Nat) (entries : List StringEntry) :
    entriesOf (slotsFrom used entries) (entries.map extentOf) = entries := by
  have bit : ∀ b : Bool, ((if b then (1 : UInt32) else 0) != 0) = b := by decide
  unfold entriesOf
  induction entries generalizing used with
  | nil => rfl
  | cons entry rest ih =>
    rw [slotsFrom]
    split <;> simp [extentOf, bit, ih]

theorem getElem?_entriesOf {slots : List StringSlot} {extents : List Extent} {i : Nat} {entry : StringEntry}
    (found : (entriesOf slots extents)[i]? = some entry) :
    ∃ slot extent, slots[i]? = some slot ∧ extents[i]? = some extent ∧
      entry = ⟨slot.isUtf16 != 0, extent.offset, extent.length⟩ := by
  rw [entriesOf, List.getElem?_map, Option.map_eq_some_iff] at found
  obtain ⟨⟨slot, extent⟩, parts, rfl⟩ := found
  rw [List.getElem?_zip_eq_some] at parts
  exact ⟨slot, extent, parts.1, parts.2, rfl⟩

theorem ofRecords_exact {storage : ByteArray} {slots : Array StringSlot} {overflow : Array Extent}
    {runs : Array KindRun} {table : StringTable} :
    ofRecords storage slots overflow runs = .ok table ↔ ∃ extents, resolveAll slots overflow = .ok extents ∧
      covered runs = slots.size ∧
      table = ⟨storage, (entriesOf slots.toList extents).toArray, (kindsOf runs).toArray⟩ ∧ table.InStorage := by
  have scan (entries : List StringEntry) : entries.findIdx? (fun entry => !inStorage storage entry) = none ↔
      InStorage ⟨storage, entries.toArray, (kindsOf runs).toArray⟩ := by
    rw [List.findIdx?_eq_none_iff]
    simp [InStorage]
  unfold ofRecords
  constructor
  · intro made
    split at made
    · cases made
    · next extents resolved =>
      split at made
      · cases made
      · next cover =>
        simp only at made
        split at made
        · cases made
        · next none =>
          cases made
          exact ⟨extents, resolved, not_not.mp cover, rfl, (scan _).mp none⟩
  · rintro ⟨extents, resolved, cover, rfl, inside⟩
    have none := (scan _).mpr inside
    unfold entriesOf at none
    rw [resolved]
    simp only [cover, ne_eq, not_true, if_false, none]
    rfl

-- The runs of a table say its kinds.
theorem kindsOf_kindRuns {table : StringTable} (few : table.kinds.size < 0x100000000) :
    kindsOf table.kindRuns = table.kinds.toList := by
  rw [kindsOf, kindRuns_eq]
  exact (runsOf_spec few).2

theorem ofRecords_encode {table : StringTable} (inside : table.InStorage) (full : table.kinds.size = table.size)
    (few : table.size < 0x100000000) (overflow : table.overflowCount < 0x100000000) :
    ofRecords table.storage table.encode.1 table.encode.2 table.kindRuns = .ok table := by
  have kindCount : table.kinds.size < 0x100000000 := full ▸ few
  have size := (runsOf_spec kindCount).1
  have resolved : resolveAll table.encode.1 table.encode.2 = .ok (table.entries.toList.map extentOf) := by
    rw [encode_eq, resolveAll]
    exact @resolve_slotsFrom table.entries.toList [] 0 (by rw [length_wideExtents]; simpa using overflow)
  have slots : table.encode.1.toList = slotsFrom 0 table.entries.toList := by rw [encode_eq]
  have coveredAll : covered table.kindRuns = table.encode.1.size := by
    rw [covered, kindRuns_eq, encode_eq]
    simpa [runTotal, full, StringTable.size] using size
  refine ofRecords_exact.mpr ⟨_, resolved, coveredAll, ?_, inside⟩
  rw [slots, kindsOf_kindRuns kindCount, entriesOf_slotsFrom]

-- The stored records of a table are read as they were, while every place in the overflow table takes 23 bits.
theorem slots_read {table : StringTable} (few : table.overflowCount ≤ 0x800000) :
    Schema.stringSlot.parseMany (Schema.stringSlot.encodeMany table.encode.1) = .ok table.encode.1 := by
  apply Schema.parseMany_encodeMany_of_fits Schema.stringSlot_lawful (by simp)
  intro slot member
  rw [encode_eq] at member
  refine slotsFrom_fits ?_ slot (List.mem_toArray.mp member)
  rw [length_wideExtents]
  omega

theorem kindRuns_read {table : StringTable} (few : table.kinds.size < 2 ^ 31) :
    Schema.kindRun.parseMany (Schema.kindRun.encodeMany table.kindRuns) = .ok table.kindRuns := by
  apply Schema.parseMany_encodeMany_of_fits Schema.kindRun_lawful (by simp)
  intro run member
  rw [kindRuns_eq] at member
  exact runsOf_fits few run (List.mem_toArray.mp member)

-- A table that was read lies in its storage.
theorem inStorage_of_ofRecords {storage : ByteArray} {slots : Array StringSlot} {overflow : Array Extent}
    {runs : Array KindRun} {table : StringTable} (made : ofRecords storage slots overflow runs = .ok table) :
    table.InStorage := by
  obtain ⟨_, -, -, -, inside⟩ := ofRecords_exact.mp made
  exact inside

theorem length_kindsOf (runs : Array KindRun) : (kindsOf runs).length = covered runs := by
  rw [kindsOf, covered, List.length_flatMap, total]
  simp only [List.length_replicate]
  rfl

-- A table that was read has an entry for every slot, and a kind for every entry.
theorem size_of_ofRecords {storage : ByteArray} {slots : Array StringSlot} {overflow : Array Extent}
    {runs : Array KindRun} {table : StringTable} (made : ofRecords storage slots overflow runs = .ok table) :
    table.size = slots.size ∧ table.kinds.toList = kindsOf runs ∧ table.kinds.size = table.size := by
  obtain ⟨extents, resolved, cover, rfl, -⟩ := ofRecords_exact.mp made
  have count : extents.length = slots.size := by
    have each := (mapM_ok_iff.mp resolved).length_eq
    rw [List.length_zipIdx, Array.length_toList] at each
    exact each.symm
  simp [size, entriesOf, count, length_kindsOf, cover]

-- What a string that was read owes to its slot and to the place that the slot names.
theorem entry_of_ofRecords {storage : ByteArray} {slots : Array StringSlot} {overflow : Array Extent}
    {runs : Array KindRun} {table : StringTable} (made : ofRecords storage slots overflow runs = .ok table) {i : Nat}
    {entry : StringEntry} (found : table.entries[i]? = some entry) :
    ∃ slot extent, slots[i]? = some slot ∧ resolve overflow i slot = .ok extent ∧
      entry = ⟨slot.isUtf16 != 0, extent.offset, extent.length⟩ := by
  obtain ⟨extents, resolved, -, rfl, -⟩ := ofRecords_exact.mp made
  obtain ⟨slot, extent, slotAt, extentAt, rfl⟩ := getElem?_entriesOf (by simpa using found)
  have numbered : slots.toList.zipIdx[i]? = some (slot, i) := by simp [List.getElem?_zipIdx, slotAt]
  have here := getElem?_of_forall₂ (mapM_ok_iff.mp resolved) numbered extentAt
  exact ⟨slot, extent, by simpa using slotAt, here, rfl⟩

end StringTable

namespace OffsetTable

-- Every entry lies inside the storage.
def InStorage (table : OffsetTable) : Prop :=
  ∀ entry ∈ table.entries, entry.offset.toNat + entry.length.toNat ≤ table.storage.size

theorem build_exact {what : String} {storage : ByteArray} {entries : Array Extent} {table : OffsetTable} :
    build what storage entries = .ok table ↔ table = ⟨storage, entries⟩ ∧ table.InStorage := by
  unfold build
  constructor
  · intro made
    split at made
    · cases made
    · next none =>
      cases made
      refine ⟨rfl, ?_⟩
      intro entry member
      rw [Array.findIdx?_eq_none_iff] at none
      simpa using none entry member
  · rintro ⟨rfl, inside⟩
    split
    · next id found =>
      obtain ⟨bound, outside, -⟩ := Array.findIdx?_eq_some_iff_getElem.mp found
      have within := inside entries[id] (Array.getElem_mem bound)
      simp only [decide_eq_true_eq] at outside
      simp only at within
      omega
    · rfl

end OffsetTable
end CodeImage
