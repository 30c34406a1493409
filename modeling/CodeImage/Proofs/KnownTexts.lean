import CodeImage.Proofs.Reachable

namespace CodeImage

namespace Image

variable {image next : Image}

def InWords (image : Image) : Prop :=
  image.strings.storage.size < 0x100000000 ∧ image.strings.size ≤ 0x100000000

-- `Readable` counts the texts that are known. Here they are also the stored ones, unless an offset was cut to a word.
structure Truthful (image : Image) : Prop extends image.Readable where
  coherent : image.InWords → image.Coherent

theorem truthful_of_finish {tables : Tables} {region : Region} (readable : image.Readable)
    (finished : tables.finish region = .ok image) : image.Truthful := by
  obtain ⟨_, _, _, _, -, -, -, rfl⟩ := Tables.finish_exact.mp finished
  exact ⟨readable, fun _ => coherent_of_unknown rfl⟩

theorem truthful_of_fetch {data : ByteArray} {options : ReadOptions} (fetched : (fetch options).eval data = .ok image) :
    image.Truthful := by
  obtain ⟨header, table, tables, streamed⟩ := fetch_exact.mp fetched
  exact truthful_of_finish (wellFormed_of_fetch fetched).toReadable streamed.finished

namespace Truthful

theorem of_eq (truthful : image.Truthful) (strings : next.strings = image.strings) (known : next.known = image.known) :
    next.Truthful := by
  refine ⟨⟨?_, ?_, ?_⟩, ?_⟩
  · rw [strings]
    exact truthful.strings
  · rw [strings]
    exact truthful.kinds
  · rw [strings, known]
    exact truthful.known
  · unfold InWords Coherent
    rw [strings, known]
    exact truthful.coherent

theorem pushed (truthful : image.Truthful) (text : String) (kind : StringKind) (hashes : Array UInt32) :
    (image.pushed text kind hashes).Truthful := by
  refine ⟨truthful.toReadable.pushed text kind hashes, ?_⟩
  rintro ⟨bytes, count⟩ id found known
  change (image.strings.push text kind).1.storage.size < _ at bytes
  change (image.strings.push text kind).1.size ≤ _ at count
  change (image.known.push (some text))[id.toNat]? = _ at known
  change (image.strings.push text kind).1.get? id = some found
  rw [StringTable.push_eq, ByteArray.size_append] at bytes
  rw [StringTable.size_push] at count
  rw [Array.getElem?_push, truthful.known] at known
  split at known
  · next new =>
    cases known
    exact StringTable.get?_push_self new bytes kind
  · have old : id.toNat < image.strings.size := by
      rw [← truthful.known]
      exact (Array.getElem?_eq_some_iff.mp known).1
    rw [StringTable.get?_push_of_lt truthful.strings old]
    exact truthful.coherent ⟨by omega, by omega⟩ id found known

theorem addStrings (truthful : image.Truthful) (texts : List String) : (image.addStrings texts).Truthful := by
  induction texts generalizing image with
  | nil => exact truthful
  | cons text rest ih => exact ih (truthful.pushed text .string image.identifierHashes)

theorem addFunction (truthful : image.Truthful) {spec : FuncSpec} {id : UInt32}
    (made : image.addFunction spec = .ok (next, id)) : next.Truthful := by
  obtain ⟨-, code, -, -, rfl⟩ := addFunction_exact.mp made
  exact truthful.of_eq rfl rfl

theorem addAlias (truthful : image.Truthful) {other name id : UInt32}
    (made : image.addAlias other name = .ok (next, id)) : next.Truthful := by
  obtain ⟨func, -, -, rfl⟩ := addAlias_exact.mp made
  exact truthful.of_eq rfl rfl

end Truthful
end Image

namespace Session

variable {session : Session}

theorem truthful_mergeStrings (truthful : session.image.Truthful) : session.mergeStrings.image.Truthful := by
  rw [mergeStrings_eq]
  exact truthful.addStrings _

theorem truthful_effect {next : Session} {operation : Operation} {reply : Reply} (truthful : session.image.Truthful)
    (effect : Effect session operation next reply) : next.image.Truthful := by
  cases effect with
  | added text => exact truthful
  | created made => exact (truthful_mergeStrings truthful).addFunction made
  | notCreated _ => exact truthful_mergeStrings truthful
  | edited => exact truthful
  | notEdited _ => exact truthful

theorem truthful_run {image : Image} (truthful : image.Truthful) (operations : List Operation) :
    ((start image).run operations).image.Truthful := by
  induction operations using List.reverseRecOn with
  | nil => exact truthful
  | append_singleton operations operation ih =>
    rw [run_snoc]
    exact truthful_effect ih (perform_effect _ operation)

theorem truthful_commit (truthful : session.image.Truthful) : session.commit.Truthful := by
  obtain ⟨strings, known⟩ := foldl_commitEdit_strings session.edits session.mergeStrings.image
  exact (truthful_mergeStrings truthful).of_eq strings known

end Session

namespace Image

variable {image : Image}

theorem Reachable.truthful (reached : image.Reachable) : image.Truthful := by
  induction reached with
  | parsed read =>
    obtain ⟨header, table, tables, parsed⟩ := parse_exact.mp read
    exact truthful_of_finish parsed.wellFormed.1.toReadable parsed.finished
  | streamed read => exact truthful_of_fetch ((Transfer.result_exact read _).mp rfl)
  | chunked read => exact truthful_of_fetch (parseChunks_exact.mp read)
  | built globalCodeIndex debugInfo =>
    exact ⟨(Reachable.built globalCodeIndex debugInfo).wellFormed.toReadable, fun _ => coherent_of_unknown rfl⟩
  | addString _ text truthful => exact truthful.pushed text _ _
  | addIdentifier _ text hash truthful => exact truthful.pushed text _ _
  | addBigInt _ value truthful => exact truthful.of_eq rfl rfl
  | addRegExp _ compiled truthful => exact truthful.of_eq rfl rfl
  | addBody _ body truthful => exact truthful.of_eq rfl rfl
  | addFunction _ made truthful => exact truthful.addFunction made
  | addAlias _ made truthful => exact truthful.addAlias made
  | committed _ operations truthful => exact Session.truthful_commit (Session.truthful_run truthful operations)

-- What fits into a file is counted by words.
theorem inWords_of_serves {plan : FilePlan} {version : Option UInt32} (serves : plan.Serves image version) :
    image.InWords := by
  have storage := SegmentTable.size_lt serves.segments .stringStorage
  have count : image.strings.size < 2 ^ 30 := serves.size_strings
  rw [Segment.size, serves.describes.counts, Writer.elements, Segment.stride] at storage
  exact ⟨by omega, by omega⟩

-- Reading what was written restores the image. Its texts are read again if those that it knows are the stored ones, as
-- they are however the image came about.
theorem parse_write_restored {file : ByteArray} (good : image.WellFormed) (caches : image.SmallCaches)
    (few : image.strings.overflowCount ≤ 2 ^ 23) (written : image.write = .ok file) :
    (∃ back, (∀ options, parse file options = .ok back) ∧ image.Restored back ∧
      (image.Coherent → ∀ id, back.text? id = image.text? id)) ∧
    (image.Reachable → image.Coherent) := by
  obtain ⟨plan, serves, rfl⟩ := write_exact.mp written
  have words := inWords_of_serves serves
  refine ⟨⟨plan.reread image, serves.parse_signed good few, serves.restored caches, ?_⟩, ?_⟩
  · intro coherent id
    have unknown : (plan.reread image).Coherent := coherent_of_unknown rfl
    rw [coherent.text?_eq good.known, unknown.text?_eq Array.size_replicate]
    rfl
  · intro reached
    exact reached.truthful.coherent words

theorem sampleBuilt_written : ∃ file, sampleBuilt.write = .ok file := by
  have done : sampleBuilt.write.toBool = true := by decide +kernel
  exact exists_of_toBool done

-- A string without room in a slot, and one whose text was known before it was stored.
theorem sample_restored :
    (∃ file back, sample.write = .ok file ∧ (∀ options, parse file options = .ok back) ∧ sample.Restored back) ∧
    ∃ file back, sampleBuilt.write = .ok file ∧ (∀ options, parse file options = .ok back) ∧
      sampleBuilt.Restored back ∧ back.text? 0 = some "main" := by
  constructor
  · obtain ⟨file, written⟩ := sample_written
    obtain ⟨⟨back, parsed, restored, -⟩, -⟩ := parse_write_restored sample_wellFormed sample_smallCaches sample_few written
    exact ⟨file, back, written, parsed, restored⟩
  · obtain ⟨file, written⟩ := sampleBuilt_written
    have caches : sampleBuilt.SmallCaches := by unfold SmallCaches; decide +kernel
    have few : sampleBuilt.strings.overflowCount ≤ 2 ^ 23 := by decide +kernel
    obtain ⟨⟨back, parsed, restored, texts⟩, coherent⟩ :=
      parse_write_restored sampleBuilt_reachable.wellFormed caches few written
    refine ⟨file, back, written, parsed, restored, ?_⟩
    rw [texts (coherent sampleBuilt_reachable)]
    rfl

end Image
end CodeImage
