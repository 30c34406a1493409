import CodeImage.Proofs.Selection
import CodeImage.Proofs.Session

namespace CodeImage

namespace IndexEntry

-- The order of an index.
def Before (a b : IndexEntry) : Prop := a.length < b.length ∨ a.length = b.length ∧ a.id < b.id

theorem Before.asymm {a b : IndexEntry} (before : a.Before b) : ¬ b.Before a := by
  rintro (shorter | ⟨same, lower⟩)
  · rcases before with before | ⟨same, -⟩ <;> omega
  · rcases before with before | ⟨-, before⟩
    · omega
    · exact absurd before (UInt32.lt_asymm lower)

end IndexEntry

-- In an ordered list the first hit is the least.
theorem find?_least {entries : List IndexEntry} (ordered : entries.Pairwise IndexEntry.Before) {p : IndexEntry → Bool}
    {entry : IndexEntry} :
    entries.find? p = some entry ↔
      entry ∈ entries ∧ p entry = true ∧ ∀ other ∈ entries, p other = true → other = entry ∨ entry.Before other := by
  induction entries with
  | nil => simp
  | cons first rest ih =>
    obtain ⟨least, later⟩ := List.pairwise_cons.mp ordered
    by_cases hit : p first = true
    · rw [List.find?_cons_of_pos hit, Option.some.injEq]
      constructor
      · rintro rfl
        refine ⟨List.mem_cons_self, hit, ?_⟩
        intro other member _
        rcases List.mem_cons.mp member with same | member
        · exact .inl same
        · exact .inr (least other member)
      · rintro ⟨member, -, minimal⟩
        rcases List.mem_cons.mp member with same | member
        · exact same.symm
        · rcases minimal first List.mem_cons_self hit with same | before
          · exact same
          · exact absurd (least entry member) before.asymm
    · rw [List.find?_cons_of_neg hit, ih later]
      constructor
      · rintro ⟨member, holds, minimal⟩
        refine ⟨List.mem_cons_of_mem _ member, holds, ?_⟩
        intro other listed wanted
        rcases List.mem_cons.mp listed with rfl | listed
        · exact absurd wanted hit
        · exact minimal other listed wanted
      · rintro ⟨member, holds, minimal⟩
        refine ⟨?_, holds, fun other listed => minimal other (List.mem_cons_of_mem _ listed)⟩
        rcases List.mem_cons.mp member with rfl | member
        · exact absurd holds hit
        · exact member

namespace StringIndex

variable {textOf : UInt32 → Option String} {index : StringIndex} {id : UInt32} {text : String}

-- The index lists the strings that have a text, in order.
structure Exact (textOf : UInt32 → Option String) (index : StringIndex) : Prop where
  listed : ∀ entry, entry ∈ index.entries ↔ ∃ text, textOf entry.id = some text ∧ entry.length = text.utf8ByteSize
  ordered : index.entries.Pairwise IndexEntry.Before

-- The string that a partial text stands for: of those that contain it the shortest, and of the shortest the first.
def Shortest (textOf : UInt32 → Option String) (needle : String) (id : UInt32) : Prop :=
  ∃ whole, textOf id = some whole ∧ Text.contains whole needle = true ∧
    ∀ other text, textOf other = some text → Text.contains text needle = true →
      whole.utf8ByteSize < text.utf8ByteSize ∨ whole.utf8ByteSize = text.utf8ByteSize ∧ id ≤ other

theorem mem_place {entry other : IndexEntry} {entries : List IndexEntry} :
    other ∈ place entry entries ↔ other = entry ∨ other ∈ entries := by
  induction entries with
  | nil => simp [place]
  | cons first rest ih =>
    rw [place]
    split
    · simp only [List.mem_cons, ih, or_left_comm]
    · simp only [List.mem_cons]

theorem pairwise_place {entry : IndexEntry} {entries : List IndexEntry} (ordered : entries.Pairwise IndexEntry.Before)
    (newest : ∀ other ∈ entries, other.id < entry.id) : (place entry entries).Pairwise IndexEntry.Before := by
  induction entries with
  | nil => exact List.pairwise_singleton _ _
  | cons first rest ih =>
    obtain ⟨least, later⟩ := List.pairwise_cons.mp ordered
    rw [place]
    split
    · next short =>
      refine .cons ?_ (ih later fun other member => newest other (List.mem_cons_of_mem _ member))
      intro other member
      rcases mem_place.mp member with rfl | member
      · rcases Nat.lt_or_eq_of_le short with shorter | same
        · exact .inl shorter
        · exact .inr ⟨same, newest first List.mem_cons_self⟩
      · exact least other member
    · next long =>
      refine .cons ?_ ordered
      intro other member
      rcases List.mem_cons.mp member with rfl | member
      · exact .inl (Nat.lt_of_not_le long)
      · rcases least other member with longer | ⟨same, -⟩
        · exact .inl (by omega)
        · exact .inl (by omega)

-- Sorting by length keeps the order of equally long strings.
theorem pairwise_mergeSort {entries : List IndexEntry} (aged : entries.Pairwise fun a b => a.id < b.id) :
    (entries.mergeSort fun a b => decide (a.length ≤ b.length)).Pairwise IndexEntry.Before := by
  have trans := @List.zipIdxLE_trans IndexEntry (fun a b => decide (a.length ≤ b.length)) (by simp; omega)
  have total := @List.zipIdxLE_total IndexEntry (fun a b => decide (a.length ≤ b.length)) (by simp; omega)
  have numbered := List.pairwise_mergeSort trans total entries.zipIdx
  have distinct : (entries.zipIdx.mergeSort (List.zipIdxLE fun a b => decide (a.length ≤ b.length))).Pairwise
      fun a b => a.2 ≠ b.2 := by
    refine ((List.mergeSort_perm _ _).pairwise_iff fun apart => apart.symm).mpr (List.pairwise_map.mp ?_)
    rw [List.zipIdx_map_snd]
    exact List.nodup_range'
  rw [← List.mergeSort_zipIdx, List.pairwise_map]
  refine (numbered.and distinct).imp_of_mem ?_
  rintro ⟨a, i⟩ ⟨b, j⟩ left right ⟨sorted, apart⟩
  obtain ⟨atFirst, first⟩ := List.getElem?_eq_some_iff.mp (List.mem_zipIdx_iff_getElem?.mp (List.mem_mergeSort.mp left))
  obtain ⟨atSecond, second⟩ := List.getElem?_eq_some_iff.mp (List.mem_zipIdx_iff_getElem?.mp (List.mem_mergeSort.mp right))
  simp only [List.zipIdxLE, decide_eq_true_eq] at sorted first second
  split at sorted
  · next short =>
    split at sorted
    · next long =>
      have place : i < j := Nat.lt_of_le_of_ne (by simpa using sorted) apart
      have older := List.pairwise_iff_getElem.mp aged i j atFirst atSecond place
      rw [first, second] at older
      exact .inr ⟨Nat.le_antisymm short long, older⟩
    · next long => exact .inl (Nat.lt_of_not_le long)
  · cases sorted

theorem exact_ofTexts {texts : List (UInt32 × String)} (aged : texts.Pairwise fun a b => a.1 < b.1)
    (listed : ∀ id text, (id, text) ∈ texts ↔ textOf id = some text) : (ofTexts texts).Exact textOf := by
  constructor
  · intro entry
    rw [ofTexts, List.mem_mergeSort, List.mem_map]
    constructor
    · rintro ⟨⟨id, text⟩, member, rfl⟩
      exact ⟨text, (listed id text).mp member, rfl⟩
    · rintro ⟨text, known, same⟩
      exact ⟨(entry.id, text), (listed _ _).mpr known, by simp [← same]⟩
  · exact pairwise_mergeSort (List.pairwise_map.mpr aged)

-- A string that comes after all others.
theorem Exact.insert {textOf' : UInt32 → Option String} (exact : index.Exact textOf)
    (newest : ∀ other whole, textOf other = some whole → other < id) (added : textOf' id = some text)
    (others : ∀ other, other ≠ id → textOf' other = textOf other) : (index.insert id text).Exact textOf' := by
  constructor
  · intro entry
    rw [StringIndex.insert, mem_place, exact.listed]
    constructor
    · rintro (rfl | ⟨whole, known, same⟩)
      · exact ⟨text, added, rfl⟩
      · exact ⟨whole, by rw [others _ (UInt32.ne_of_lt (newest _ _ known)), known], same⟩
    · rintro ⟨whole, known, same⟩
      by_cases last : entry.id = id
      · rw [last, added, Option.some.injEq] at known
        left
        cases entry
        simp_all
      · rw [others _ last] at known
        exact .inr ⟨whole, known, same⟩
  · refine pairwise_place exact.ordered ?_
    intro other member
    obtain ⟨whole, known, -⟩ := (exact.listed other).mp member
    exact newest _ _ known

theorem Exact.congr {textOf' : UInt32 → Option String} (exact : index.Exact textOf) (same : ∀ id, textOf' id = textOf id) :
    index.Exact textOf' := by
  rwa [funext same]

theorem exists_parts {whole needle : String} (contains : Text.contains whole needle = true) :
    ∃ before after : String, whole = before ++ needle ++ after := by
  obtain ⟨before, after, parts⟩ := Text.contains_iff.mp contains
  refine ⟨.ofList before, .ofList after, ?_⟩
  rw [← String.ofList_toList (s := whole), ← parts, String.ofList_append, String.ofList_append, String.ofList_toList]

theorem size_le_of_contains {whole needle : String} (contains : Text.contains whole needle = true) :
    needle.utf8ByteSize ≤ whole.utf8ByteSize := by
  obtain ⟨before, after, rfl⟩ := exists_parts contains
  rw [String.utf8ByteSize_append, String.utf8ByteSize_append]
  omega

-- An exact search finds the first string with the text.
theorem Exact.find?_iff (exact : index.Exact textOf) :
    index.find? textOf text = some id ↔ IsLeast {id | textOf id = some text} id := by
  rw [find?, Option.map_eq_some_iff]
  constructor
  · rintro ⟨entry, found, rfl⟩
    obtain ⟨-, holds, minimal⟩ := (find?_least exact.ordered).mp found
    simp only [Bool.and_eq_true, beq_iff_eq] at holds minimal
    refine ⟨holds.2, ?_⟩
    intro other known
    have listed := (exact.listed ⟨text.utf8ByteSize, other⟩).mpr ⟨text, known, rfl⟩
    rcases minimal _ listed ⟨rfl, known⟩ with same | shorter | ⟨-, before⟩
    · rw [← same]
      exact UInt32.le_refl _
    · simp only at shorter
      omega
    · exact UInt32.le_of_lt before
  · rintro ⟨known, minimal⟩
    refine ⟨⟨text.utf8ByteSize, id⟩, (find?_least exact.ordered).mpr ⟨?_, ?_, ?_⟩, rfl⟩
    · exact (exact.listed _).mpr ⟨text, known, rfl⟩
    · simpa using known
    · intro other _ holds
      simp only [Bool.and_eq_true, beq_iff_eq] at holds
      rcases UInt32.lt_or_eq_of_le (minimal holds.2) with before | same
      · exact .inr (.inr ⟨holds.1.symm, before⟩)
      · left
        cases other
        simp_all

-- A partial search finds the shortest string that contains the text.
theorem Exact.findPartial?_iff (exact : index.Exact textOf) :
    index.findPartial? textOf text = some id ↔ Shortest textOf text id := by
  rw [findPartial?, Option.map_eq_some_iff]
  constructor
  · rintro ⟨entry, found, rfl⟩
    obtain ⟨member, holds, minimal⟩ := (find?_least exact.ordered).mp found
    obtain ⟨whole, known, length⟩ := (exact.listed entry).mp member
    simp only [Bool.and_eq_true, decide_eq_true_eq] at holds minimal
    refine ⟨whole, known, by simpa [known] using holds.2, ?_⟩
    intro other text' known' contains
    have listed := (exact.listed ⟨text'.utf8ByteSize, other⟩).mpr ⟨text', known', rfl⟩
    rcases minimal _ listed ⟨size_le_of_contains contains, by simp [known', contains]⟩ with same | shorter | ⟨same, before⟩
    · right
      rw [← length, ← same]
      exact ⟨rfl, UInt32.le_refl _⟩
    · exact .inl (by rw [← length]; exact shorter)
    · exact .inr ⟨by rw [← length]; exact same, UInt32.le_of_lt before⟩
  · rintro ⟨whole, known, contains, minimal⟩
    refine ⟨⟨whole.utf8ByteSize, id⟩, (find?_least exact.ordered).mpr ⟨?_, ?_, ?_⟩, rfl⟩
    · exact (exact.listed _).mpr ⟨whole, known, rfl⟩
    · simp [known, contains, size_le_of_contains contains]
    · intro other member holds
      obtain ⟨text', known', length⟩ := (exact.listed other).mp member
      simp only [Bool.and_eq_true, decide_eq_true_eq, known', Option.any_some] at holds
      rcases minimal _ _ known' holds.2 with shorter | ⟨same, before⟩
      · exact .inr (.inl (by rw [length]; exact shorter))
      · rcases UInt32.lt_or_eq_of_le before with before | rfl
        · exact .inr (.inr ⟨by rw [length]; exact same, before⟩)
        · left
          cases other
          simp_all

end StringIndex

namespace Image

variable {image : Image}

theorem mem_texts_iff (full : image.known.size = image.strings.size) {id : UInt32} {text : String} :
    (id, text) ∈ image.texts ↔ image.text? id = some text := by
  simp only [texts, List.mem_filterMap, List.mem_range, Option.map_eq_some_iff, Prod.mk.injEq]
  constructor
  · rintro ⟨place, -, found, known, same, rfl⟩
    rw [← same]
    exact known
  · intro known
    have inside : id.toNat < image.strings.size := by
      by_contra outside
      rw [text?_of_le full (Nat.le_of_not_lt outside)] at known
      cases known
    have back : id.toNat.toUInt32 = id := by simp
    exact ⟨id.toNat, inside, text, by rw [back, known], back, rfl⟩

theorem pairwise_texts (few : image.strings.size ≤ 0x100000000) : image.texts.Pairwise fun a b => a.1 < b.1 := by
  refine List.Pairwise.filterMap _ ?_ (List.pairwise_lt_range.imp_of_mem fun _ last before => And.intro before last)
  rintro first second ⟨before, last⟩ ⟨id, text⟩ made ⟨id', text'⟩ made'
  obtain ⟨_, -, same⟩ := Option.map_eq_some_iff.mp made
  obtain ⟨_, -, same'⟩ := Option.map_eq_some_iff.mp made'
  cases same
  cases same'
  have bound := List.mem_range.mp last
  rw [UInt32.lt_iff_toNat_lt, toNat_toUInt32_of_lt (by omega), toNat_toUInt32_of_lt (by omega)]
  exact before

end Image

namespace Session

variable {image : Image} {added : List String} {session : Session}

theorem textWith_nil (full : image.known.size = image.strings.size) (id : UInt32) :
    textWith image [] id = image.text? id := by
  unfold textWith
  split
  · rfl
  · next outside =>
    rw [Image.text?_of_le full (Nat.le_of_not_lt outside)]
    rfl

theorem exact_start (full : image.known.size = image.strings.size) (few : image.strings.size ≤ 0x100000000) :
    (start image).index.Exact (textWith image []) :=
  (StringIndex.exact_ofTexts (Image.pairwise_texts few) fun _ _ => Image.mem_texts_iff full).congr (textWith_nil full)

theorem lt_of_textWith {id : UInt32} {text : String} (known : textWith image added id = some text) :
    id.toNat < image.strings.size + added.length := by
  unfold textWith at known
  split at known
  · omega
  · have inside := (List.getElem?_eq_some_iff.mp known).1
    omega

-- A new string is listed under the number that follows all others.
theorem exact_addString (tracks : Tracks image added session) (exact : session.index.Exact (textWith image added))
    (few : image.strings.size + added.length < 0x100000000) (text : String) :
    (session.addString text).1.index.Exact (textWith image (added ++ [text])) := by
  have number : (session.image.strings.size + session.pending.size).toUInt32.toNat = image.strings.size + added.length := by
    rw [tracks.size]
    exact toNat_toUInt32_of_lt few
  refine exact.insert ?_ ?_ ?_
  · intro other whole known
    rw [UInt32.lt_iff_toNat_lt, number]
    exact lt_of_textWith known
  · rw [textWith, number, if_neg (by omega), Nat.add_sub_cancel_left]
    simp
  · intro other apart
    unfold textWith
    split
    · rfl
    · next outside =>
      have elsewhere : other.toNat ≠ image.strings.size + added.length := by
        rw [← number]
        exact fun same => apart (UInt32.toNat_inj.mp same)
      rw [List.getElem?_append]
      split
      · rfl
      · rw [List.getElem?_eq_none (by rw [List.length_singleton]; omega), List.getElem?_eq_none (by omega)]

-- What one operation preserves.
theorem exact_effect (tracks : Tracks image added session) (exact : session.index.Exact (textWith image added))
    {operation : Operation} {next : Session} {reply : Reply} (effect : Effect session operation next reply)
    (few : image.strings.size + (added ++ operation.added).length < 0x100000000) :
    next.index.Exact (textWith image (added ++ operation.added)) := by
  cases effect with
  | added text =>
    rw [List.length_append] at few
    exact exact_addString tracks exact (by omega) text
  | @created spec _ _ _ =>
    have none : (Operation.createFunction spec).added = [] := rfl
    rw [none, List.append_nil]
    exact exact
  | @notCreated spec _ _ =>
    have none : (Operation.createFunction spec).added = [] := rfl
    rw [none, List.append_nil]
    exact exact
  | edited target _ _ _ =>
    rw [Operation.added_of_target target, List.append_nil]
    exact exact
  | notEdited target =>
    rw [Operation.added_of_target target, List.append_nil]
    exact exact

-- What a run preserves: the index lists the strings that the session shows.
theorem exact_run (readable : image.Readable) (operations : List Operation)
    (few : image.strings.size + (addedBy operations).length < 0x100000000) :
    ((start image).run operations).index.Exact ((start image).run operations).string? := by
  have listed : ((start image).run operations).index.Exact (textWith image (addedBy operations)) := by
    induction operations using List.reverseRecOn with
    | nil => exact exact_start readable.known (Nat.le_of_lt few)
    | append_singleton operations operation ih =>
      have last : addedBy [operation] = operation.added := List.append_nil _
      rw [addedBy_append, last] at few ⊢
      rw [run_snoc]
      have before : image.strings.size + (addedBy operations).length < 0x100000000 := by
        rw [List.length_append] at few
        omega
      exact exact_effect (tracks_run readable operations before) (ih before) (perform_effect _ operation) few
  exact listed.congr (tracks_run readable operations few).string

end Session
end CodeImage
