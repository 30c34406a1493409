import CodeImage.Proofs.Recognition

-- A string that contains a text of its own length is that text, so searching for the text first and for parts of
-- strings afterwards comes to the same as searching for parts at once.

namespace CodeImage

namespace StringIndex

variable {textOf : UInt32 → Option String} {index : StringIndex} {id : UInt32} {text : String}

theorem contains_self (text : String) : Text.contains text text = true :=
  Text.contains_iff.mpr (List.infix_refl _)

theorem eq_of_contains {whole needle : String} (contains : Text.contains whole needle = true)
    (size : whole.utf8ByteSize = needle.utf8ByteSize) : whole = needle := by
  obtain ⟨before, after, rfl⟩ := exists_parts contains
  rw [String.utf8ByteSize_append, String.utf8ByteSize_append] at size
  have front : before = "" := String.utf8ByteSize_eq_zero_iff.mp (by omega)
  have back : after = "" := String.utf8ByteSize_eq_zero_iff.mp (by omega)
  rw [front, back, String.empty_append, String.append_empty]

theorem Exact.find?_none_iff (exact : index.Exact textOf) :
    index.find? textOf text = none ↔ ∀ id, textOf id ≠ some text := by
  rw [find?, Option.map_eq_none_iff, List.find?_eq_none]
  constructor
  · intro missed id known
    have listed := (exact.listed ⟨text.utf8ByteSize, id⟩).mpr ⟨text, known, rfl⟩
    apply missed _ listed
    simp [known]
  · intro unknown entry _ hit
    simp only [Bool.and_eq_true, beq_iff_eq] at hit
    exact unknown entry.id hit.2

theorem Exact.findPartial?_none_iff (exact : index.Exact textOf) :
    index.findPartial? textOf text = none ↔ ∀ id whole, textOf id = some whole → Text.contains whole text = false := by
  rw [findPartial?, Option.map_eq_none_iff, List.find?_eq_none]
  constructor
  · intro missed id whole known
    have listed := (exact.listed ⟨whole.utf8ByteSize, id⟩).mpr ⟨whole, known, rfl⟩
    by_contra contains
    rw [Bool.not_eq_false] at contains
    apply missed _ listed
    simp [known, contains, size_le_of_contains contains]
  · intro unknown entry _ hit
    rw [Bool.and_eq_true] at hit
    obtain ⟨whole, known, contains⟩ := (Option.any_eq_true _ _).mp hit.2
    rw [unknown entry.id whole known] at contains
    cases contains

-- The first string with the text is the shortest that contains it.
theorem Exact.findPartial?_of_find? (exact : index.Exact textOf) (found : index.find? textOf text = some id) :
    index.findPartial? textOf text = some id := by
  obtain ⟨known, least⟩ := exact.find?_iff.mp found
  refine exact.findPartial?_iff.mpr ⟨text, known, contains_self text, ?_⟩
  intro other whole known' contains
  rcases Nat.lt_or_eq_of_le (size_le_of_contains contains) with longer | same
  · exact .inl longer
  · obtain rfl := eq_of_contains contains same.symm
    exact .inr ⟨rfl, least known'⟩

theorem Exact.resolve?_eq (exact : index.Exact textOf) (text : String) :
    index.resolve? textOf text = index.findPartial? textOf text := by
  unfold resolve?
  cases found : index.find? textOf text with
  | none => rfl
  | some id => rw [exact.findPartial?_of_find? found, Option.some_or]

end StringIndex

namespace Session

variable {image : Image} {added : List String}

-- Every number below the total has a text, and no other.
theorem isSome_textWith (readable : image.Readable) (id : UInt32) :
    (textWith image added id).isSome = decide (id.toNat < image.strings.size + added.length) := by
  unfold textWith
  split
  · next table =>
    rw [readable.isSome_text?, decide_eq_true table]
    exact (decide_eq_true (Nat.lt_add_right _ table)).symm
  · next outside =>
    by_cases last : id.toNat < image.strings.size + added.length
    · rw [List.getElem?_eq_getElem (by omega), decide_eq_true last, Option.isSome_some]
    · rw [List.getElem?_eq_none (by omega), decide_eq_false last, Option.isSome_none]

-- What the searches for a text give, in terms of the strings that are there.
structure Searches (session : Session) (text : String) : Prop where
  found : ∀ id, session.findString? text = some id ↔ IsLeast {id | session.string? id = some text} id
  notFound : session.findString? text = none ↔ ∀ id, session.string? id ≠ some text
  foundPart : ∀ id, session.findPartialString? text = some id ↔ StringIndex.Shortest session.string? text id
  notFoundPart : session.findPartialString? text = none ↔
    ∀ id whole, session.string? id = some whole → Text.contains whole text = false
  resolved : session.resolveString? text = session.findPartialString? text

theorem searches_of_exact {session : Session} (exact : session.index.Exact session.string?) (text : String) :
    session.Searches text :=
  ⟨fun _ => exact.find?_iff, exact.find?_none_iff, fun _ => exact.findPartial?_iff, exact.findPartial?_none_iff,
    exact.resolve?_eq text⟩

-- Whatever was added to a session and created in it, searches are exact over all of its strings.
theorem lookup_exact (readable : image.Readable) (operations : List Operation)
    (few : image.strings.size + (addedBy operations).length < 2 ^ 32) :
    let session := (start image).run operations
    -- The strings are those of the image and those added since, whether they are in the table by now or wait.
    session.image.strings.size + session.pending.size = image.strings.size + (addedBy operations).length ∧
    (∀ id, session.string? id = textWith image (addedBy operations) id) ∧
    (∀ id, (session.string? id).isSome = decide (id.toNat < session.image.strings.size + session.pending.size)) ∧
    ∀ text, session.Searches text := by
  have tracks := tracks_run readable operations few
  refine ⟨tracks.size, tracks.string, ?_, searches_of_exact (exact_run readable operations few)⟩
  intro id
  rw [tracks.string, isSome_textWith readable, tracks.size]

-- Of the two strings that are added one has moved into the table when the function is created, and the other waits.
def sampleGrowth : List Operation := [.addString "target", .createFunction { name := 4 }, .addString "get"]

def sampleTexts : List String := ["f", "f", "get", "getter", "target", "get"]

theorem sample_lookup :
    let session := (start sampleTwins).run sampleGrowth
    session.image.strings.size = 5 ∧ session.pending = #["get"] ∧ session.findString? "get" = some 2 ∧
      session.findPartialString? "arg" = some 4 ∧ session.resolveString? "arg" = some 4 ∧
      session.findString? "arg" = none := by
  have few : sampleTwins.strings.size + (addedBy sampleGrowth).length < 2 ^ 32 := by decide +kernel
  obtain ⟨-, -, numbered, searches⟩ := lookup_exact sampleTwins_wellFormed.toReadable sampleGrowth few
  have table : ((start sampleTwins).run sampleGrowth).image.strings.size = 5 := by decide +kernel
  have waiting : ((start sampleTwins).run sampleGrowth).pending = #["get"] := by decide +kernel
  have texts : ∀ id < 6, ((start sampleTwins).run sampleGrowth).string? id.toUInt32 =
      sampleTexts[id]? := by decide +kernel
  have all {id : UInt32} {text : String} (known : ((start sampleTwins).run sampleGrowth).string? id = some text) :
      id.toNat < 6 ∧ sampleTexts[id.toNat]? = some text := by
    have bound := numbered id
    rw [known, table, waiting] at bound
    have small : id.toNat < 6 := by simpa using bound
    have here := texts id.toNat small
    rw [Nat.toUInt32_eq, UInt32.ofNat_toNat, known] at here
    exact ⟨small, here.symm⟩
  have part : ((start sampleTwins).run sampleGrowth).findPartialString? "arg" = some 4 := by
    refine ((searches "arg").foundPart 4).mpr ⟨"target", texts 4 (by decide), by decide +kernel, ?_⟩
    intro other whole known contains
    obtain ⟨small, here⟩ := all known
    have only : ∀ id < 6, ∀ whole ∈ sampleTexts[id]?,
        Text.contains whole "arg" = true → id = 4 ∧ whole = "target" := by decide +kernel
    obtain ⟨place, rfl⟩ := only _ small whole here contains
    exact .inr ⟨rfl, UInt32.le_iff_toNat_le.mpr (Nat.le_of_eq place.symm)⟩
  refine ⟨table, waiting, ?_, part, (searches "arg").resolved.trans part, ?_⟩
  · refine ((searches "get").found 2).mpr ⟨texts 2 (by decide), ?_⟩
    intro other known
    obtain ⟨small, here⟩ := all known
    have later : ∀ id < 6, sampleTexts[id]? = some "get" → 2 ≤ id := by decide
    exact UInt32.le_iff_toNat_le.mpr (later _ small here)
  · refine (searches "arg").notFound.mpr ?_
    intro id known
    obtain ⟨small, here⟩ := all known
    have none : ∀ id < 6, sampleTexts[id]? ≠ some "arg" := by decide
    exact none _ small here

end Session
end CodeImage
