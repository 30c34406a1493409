import CodeImage.Patch.Session
import CodeImage.Proofs.Growth
import CodeImage.Proofs.RoundTrip

-- One relation says what every operation does, and what holds of all runs follows from it.

namespace CodeImage

-- What adding a function does, if it can be added.
theorem Image.addFunction_exact {image next : Image} {spec : FuncSpec} {id : UInt32} :
    image.addFunction spec = .ok (next, id) ↔
      (image.text? spec.name).isSome = true ∧ ∃ code, FuncSpec.encoded spec = .ok code ∧
        id = image.functions.size.toUInt32 ∧
        next = { image with
          bodies := image.bodies.push ⟨code, spec.jumpTables⟩
          functions := image.functions.push
            ⟨FuncSpec.header spec code.size, image.bodies.size.toUInt32, spec.handlers, spec.debug⟩ } := by
  unfold addFunction
  cases image.text? spec.name with
  | none => simp
  | some text =>
    cases FuncSpec.encoded spec with
    | error e => simp
    | ok code => simp [eq_comm, and_comm]

theorem Image.addAlias_exact {image next : Image} {other name id : UInt32} :
    image.addAlias other name = .ok (next, id) ↔
      ∃ func, image.function other = .ok func ∧ id = image.functions.size.toUInt32 ∧
        next = { image with
          functions := image.functions.push { func with header := { func.header with functionName := name } } } := by
  unfold addAlias
  cases image.function other with
  | error e => simp
  | ok func => simp [eq_comm, and_comm]

namespace Session

-- What a session can be asked to do.
inductive Operation where
  | addString (text : String)
  | createFunction (spec : FuncSpec)
  | replaceBytes (id : UInt32) (start stop : Nat) (data : ByteArray)
  | insertBytes (id : UInt32) (start : Nat) (data : ByteArray)
  | removeBytes (id : UInt32) (start stop : Nat)
  | replaceInstructions (id : UInt32) (start stop : Nat) (insns : List Instruction)

-- The function whose code an operation edits.
def Operation.target? : Operation → Option UInt32
  | .addString _ | .createFunction _ => none
  | .replaceBytes id .. | .insertBytes id .. | .removeBytes id .. | .replaceInstructions id .. => some id

def Operation.added : Operation → List String
  | .addString text => [text]
  | _ => []

theorem Operation.added_of_target {operation : Operation} {id : UInt32} (target : operation.target? = some id) :
    operation.added = [] := by
  cases operation with
  | addString text => cases target
  | createFunction spec => cases target
  | replaceBytes | insertBytes | removeBytes | replaceInstructions => rfl

-- The texts that operations add, in order.
def addedBy (operations : List Operation) : List String := operations.flatMap Operation.added

-- The number that an operation gives out, or why it fails.
abbrev Reply := Except PatchError (Option UInt32)

-- The reply to an edit gives out no number.
def replied (done : Done Unit) : Session × Reply := (done.1, done.2.map fun _ => none)

def perform (session : Session) : Operation → Session × Reply
  | .addString text => ((session.addString text).1, .ok (some (session.addString text).2))
  | .createFunction spec => ((session.createFunction spec).1, (session.createFunction spec).2.map some)
  | .replaceBytes id start stop data => replied (session.replaceBytes id start stop data)
  | .insertBytes id start data => replied (session.insertBytes id start data)
  | .removeBytes id start stop => replied (session.removeBytes id start stop)
  | .replaceInstructions id start stop insns => replied (session.replaceInstructions id start stop insns)

def run (session : Session) (operations : List Operation) : Session :=
  operations.foldl (fun session operation => (session.perform operation).1) session

theorem run_append (session : Session) (first second : List Operation) :
    session.run (first ++ second) = (session.run first).run second := List.foldl_append

theorem run_snoc (session : Session) (operations : List Operation) (operation : Operation) :
    session.run (operations ++ [operation]) = ((session.run operations).perform operation).1 := run_append ..

theorem addedBy_append (first second : List Operation) :
    addedBy (first ++ second) = addedBy first ++ addedBy second := List.flatMap_append

-- All that an operation can do to a session, and the reply that goes with it.
inductive Effect (session : Session) : Operation → Session → Reply → Prop where
  | added (text : String) :
      Effect session (.addString text) (session.addString text).1 (.ok (some (session.addString text).2))
  | created {spec : FuncSpec} {image : Image} {id : UInt32}
      (made : session.mergeStrings.image.addFunction spec = .ok (image, id)) :
      Effect session (.createFunction spec)
        { session.mergeStrings with image, created := session.created.push id } (.ok (some id))
  | notCreated {spec : FuncSpec} {e : ImageError} (refused : session.mergeStrings.image.addFunction spec = .error e) :
      Effect session (.createFunction spec) session.mergeStrings (.error (.image e))
  | edited {operation : Operation} {id : UInt32} {start stop : Nat} {old value : Rope}
      (target : operation.target? = some id) (known : session.code id = .ok old) (ordered : start ≤ stop)
      (inside : stop ≤ old.size) :
      Effect session operation { session with edits := session.edits.put id (old.replace start stop value) } (.ok none)
  | notEdited {operation : Operation} {id : UInt32} {e : PatchError} (target : operation.target? = some id) :
      Effect session operation session (.error e)

section Given

variable {α β : Type} {session : Session} {next : α → Done β}

@[simp]
theorem given_ok (a : α) : session.given (.ok a) next = next a := rfl

@[simp]
theorem given_error (e : PatchError) : session.given (.error e) next = (session, .error e) := rfl

theorem given_done {found : Except PatchError α} {after : Session} {b : β} :
    session.given found next = (after, .ok b) ↔ ∃ a, found = .ok a ∧ next a = (after, .ok b) := by
  cases found with
  | error e => simp
  | ok a => simp

end Given

theorem liftImage_ok_iff {α : Type} {result : Except ImageError α} {a : α} :
    liftImage result = .ok a ↔ result = .ok a := by
  unfold liftImage
  cases result with
  | error e => simp [Except.mapError]
  | ok b => simp [Except.mapError]

-- All that an edit of a function can come to: it has new code, or there is an error and nothing has changed.
inductive EditOutcome (session : Session) (id : UInt32) : Done Unit → Prop where
  | edited {start stop : Nat} {old value : Rope} (known : session.code id = .ok old) (ordered : start ≤ stop)
      (inside : stop ≤ old.size) :
      EditOutcome session id ({ session with edits := session.edits.put id (old.replace start stop value) }, .ok ())
  | failed (e : PatchError) : EditOutcome session id (session, .error e)

theorem outcome_given {α : Type} {session : Session} {id : UInt32} {found : Except PatchError α} {next : α → Done Unit}
    (outcome : ∀ a, found = .ok a → EditOutcome session id (next a)) : EditOutcome session id (session.given found next) := by
  cases found with
  | error e => exact .failed e
  | ok a => exact outcome a rfl

theorem checkRange_ok_iff {start stop length : Nat} : checkRange start stop length = .ok () ↔ start ≤ stop ∧ stop ≤ length := by
  simp [checkRange]

theorem outcome_edit (session : Session) (id : UInt32) (start stop : Nat) (value : Rope) :
    EditOutcome session id (session.edit id start stop value) := by
  refine outcome_given fun old known => outcome_given fun _ range => ?_
  obtain ⟨ordered, inside⟩ := checkRange_ok_iff.mp range
  exact .edited known ordered inside

theorem outcome_replaceInstructions (session : Session) (id : UInt32) (start stop : Nat) (insns : List Instruction) :
    EditOutcome session id (session.replaceInstructions id start stop insns) :=
  outcome_given fun _ _ => outcome_given fun data _ => outcome_edit session id start stop (.leaf data)

theorem EditOutcome.ends {session : Session} {id : UInt32} {done : Done Unit} (outcome : EditOutcome session id done) :
    (∃ e, done = (session, .error e)) ∨ ∃ next, done = (next, .ok ()) := by
  cases outcome with
  | edited known ordered inside => exact .inr ⟨_, rfl⟩
  | failed e => exact .inl ⟨e, rfl⟩

theorem edit_exact {session next : Session} {id : UInt32} {start stop : Nat} {value : Rope} :
    session.edit id start stop value = (next, .ok ()) ↔
      ∃ old, session.code id = .ok old ∧ start ≤ stop ∧ stop ≤ old.size ∧
        next = { session with edits := session.edits.put id (old.replace start stop value) } := by
  rw [edit, given_done]
  constructor
  · rintro ⟨old, known, more⟩
    obtain ⟨_, range, done⟩ := given_done.mp more
    obtain ⟨ordered, inside⟩ := checkRange_ok_iff.mp range
    cases done
    exact ⟨old, known, ordered, inside, rfl⟩
  · rintro ⟨old, known, ordered, inside, rfl⟩
    exact ⟨old, known, given_done.mpr ⟨(), checkRange_ok_iff.mpr ⟨ordered, inside⟩, rfl⟩⟩

theorem replaceInstructions_exact {session next : Session} {id : UInt32} {start stop : Nat} {insns : List Instruction} :
    session.replaceInstructions id start stop insns = (next, .ok ()) ↔
      (∃ func, session.image.function id = .ok func) ∧
        ∃ data, Instruction.encodeAll insns = .ok data ∧ session.edit id start stop (.leaf data) = (next, .ok ()) := by
  simp only [replaceInstructions, given_done, liftImage_ok_iff, replaceBytes, exists_and_right]

theorem effect_replied {session : Session} {operation : Operation} {id : UInt32} (target : operation.target? = some id)
    {done : Done Unit} (outcome : EditOutcome session id done) : Effect session operation (replied done).1 (replied done).2 := by
  cases outcome with
  | edited known ordered inside => exact .edited target known ordered inside
  | failed e => exact .notEdited target

theorem perform_effect (session : Session) (operation : Operation) :
    Effect session operation (session.perform operation).1 (session.perform operation).2 := by
  cases operation with
  | addString text => exact .added text
  | createFunction spec =>
    cases made : session.mergeStrings.image.addFunction spec with
    | error e =>
      simp only [perform, createFunction, made]
      exact .notCreated made
    | ok result =>
      simp only [perform, createFunction, made]
      exact .created made
  | replaceBytes | insertBytes | removeBytes => exact effect_replied rfl (outcome_edit ..)
  | replaceInstructions => exact effect_replied rfl (outcome_replaceInstructions ..)

-- Merging adds the pending strings to the image.
theorem mergeStrings_eq (session : Session) :
    session.mergeStrings =
      { session with image := session.image.addStrings session.pending.toList, pending := #[] } := by
  rw [mergeStrings, Image.addStrings, Array.foldl_toList]

theorem extended_mergeStrings {session : Session} (readable : session.image.Readable) :
    session.image.Extended session.pending.toList session.mergeStrings.image := by
  rw [mergeStrings_eq]
  exact Image.extended_addStrings readable _

-- A pending string is seen under the number that it has after merging.
theorem string?_mergeStrings {session : Session} (readable : session.image.Readable)
    (few : session.image.strings.size + session.pending.size ≤ 0x100000000) (id : UInt32) :
    session.mergeStrings.string? id = session.string? id := by
  obtain ⟨-, -, -, -, size, -, text, -⟩ := extended_mergeStrings readable
  have pending : session.mergeStrings.pending = #[] := rfl
  rw [Array.length_toList] at size
  have shown := text (by simpa using few) id
  rw [Array.getElem?_toList] at shown
  unfold string?
  rw [pending, size, shown]
  by_cases table : id.toNat < session.image.strings.size
  · simp [table, Nat.not_le.mpr table, Nat.not_le.mpr (Nat.lt_add_right session.pending.size table)]
  · have beyond : session.image.strings.size ≤ id.toNat := Nat.le_of_not_lt table
    by_cases waiting : id.toNat < session.image.strings.size + session.pending.size
    · simp [table, beyond, Nat.not_le.mpr waiting]
    · have last : session.image.strings.size + session.pending.size ≤ id.toNat := Nat.le_of_not_lt waiting
      simp [beyond, last, Nat.le_sub_of_add_le' last]

theorem code_mergeStrings {session : Session} (readable : session.image.Readable) (id : UInt32) :
    session.mergeStrings.code id = session.code id := by
  obtain ⟨functions, bodies, -⟩ := extended_mergeStrings readable
  have same : session.mergeStrings.image.bodyOf id = session.image.bodyOf id := by
    simp only [Image.bodyOf, Image.function, functions, bodies]
  have edits : session.mergeStrings.edits = session.edits := rfl
  rw [code, code, edits, same]

-- What is seen of a session, but for the strings that wait.
structure SameView (before after : Session) : Prop where
  code : ∀ id, after.code id = before.code id
  functions : after.image.functions = before.image.functions
  edits : after.edits = before.edits
  created : after.created = before.created
  string : ∀ id, after.string? id = before.string? id

theorem sameView_of_error {session next : Session} {operation : Operation} {e : PatchError}
    (effect : Effect session operation next (.error e)) (readable : session.image.Readable)
    (few : session.image.strings.size + session.pending.size ≤ 0x100000000) : session.SameView next := by
  cases effect with
  | notCreated _ =>
    exact ⟨code_mergeStrings readable, (extended_mergeStrings readable).functions, rfl, rfl,
      string?_mergeStrings readable few⟩
  | notEdited _ => exact ⟨fun _ => rfl, rfl, rfl, rfl, fun _ => rfl⟩

-- The text of a string once `added` have joined the strings of an image.
def textWith (image : Image) (added : List String) (id : UInt32) : Option String :=
  if id.toNat < image.strings.size then image.text? id else added[id.toNat - image.strings.size]?

theorem textWith_append {image : Image} {added : List String} {id : UInt32} {text : String}
    (found : textWith image added id = some text) (more : List String) :
    textWith image (added ++ more) id = some text := by
  unfold textWith at found ⊢
  split at found
  · next old => rwa [if_pos old]
  · next new =>
    rw [if_neg new, List.getElem?_append_left (List.getElem?_eq_some_iff.mp found).1]
    exact found

-- A session over `image` to which `added` have been added: the strings that it shows, and the kinds of those that
-- are in its table already.
structure Tracks (image : Image) (added : List String) (session : Session) : Prop where
  readable : session.image.Readable
  size : session.image.strings.size + session.pending.size = image.strings.size + added.length
  grown : image.strings.size ≤ session.image.strings.size
  string : ∀ id, session.string? id = textWith image added id
  kind : ∀ id, image.strings.size ≤ id.toNat → id.toNat < session.image.strings.size →
    session.image.strings.kind? id = some .string

theorem tracks_start {image : Image} (readable : image.Readable) : Tracks image [] (start image) := by
  refine ⟨readable, rfl, Nat.le_refl _, ?_, fun id above below => absurd below (Nat.not_lt.mpr above)⟩
  intro id
  by_cases table : id.toNat < image.strings.size
  · simp [string?, start, textWith, table]
  · simp [string?, start, textWith, table, Nat.le_of_not_lt table]

namespace Tracks

variable {image : Image} {added : List String} {session : Session}

theorem merged (tracks : Tracks image added session) (few : image.strings.size + added.length < 0x100000000) :
    Tracks image added session.mergeStrings := by
  obtain ⟨readable, size, grown, string, kind⟩ := tracks
  have extended := extended_mergeStrings readable
  have count : session.mergeStrings.image.strings.size = session.image.strings.size + session.pending.size := by
    rw [extended.size, Array.length_toList]
  have pending : session.mergeStrings.pending = #[] := rfl
  refine ⟨extended.readable, ?_, by omega, ?_, ?_⟩
  · rw [count, pending]
    simpa using size
  · intro id
    rw [string?_mergeStrings readable (by omega), string]
  · intro id above below
    by_cases old : id.toNat < session.image.strings.size
    · rw [extended.kept id old]
      exact kind id above old
    · exact extended.kind id (by omega) below

theorem addString (tracks : Tracks image added session) (few : image.strings.size + added.length < 0x100000000)
    (text : String) : Tracks image (added ++ [text]) (session.addString text).1 := by
  obtain ⟨readable, size, grown, string, kind⟩ := tracks
  refine ⟨readable, ?_, grown, ?_, kind⟩
  · simp only [Session.addString, Array.size_push, List.length_append, List.length_singleton]
    omega
  · intro id
    have before := string id
    have image' : (session.addString text).1.image = session.image := rfl
    have pending' : (session.addString text).1.pending = session.pending.push text := rfl
    rw [string?, image', pending']
    unfold string? at before
    unfold textWith at before ⊢
    by_cases table : id.toNat < session.image.strings.size
    · rw [if_neg (Nat.not_le.mpr table)] at before ⊢
      rw [before]
      split
      · rfl
      · rw [List.getElem?_append_left (by omega)]
    · have outside : ¬ id.toNat < image.strings.size := by omega
      rw [if_pos (Nat.le_of_not_lt table), if_neg outside] at before ⊢
      -- The new string follows the pending ones here and the added ones there.
      rw [Array.getElem?_push, List.getElem?_append]
      by_cases last : id.toNat - session.image.strings.size = session.pending.size
      · rw [if_pos last, if_neg (by omega)]
        simp [show id.toNat - image.strings.size - added.length = 0 by omega]
      · rw [if_neg last, before]
        split
        · rfl
        · next beyond =>
          rw [List.getElem?_eq_none (Nat.le_of_not_lt beyond),
            List.getElem?_eq_none (by rw [List.length_singleton]; omega)]

-- What one operation preserves.
theorem effect (tracks : Tracks image added session) {operation : Operation} {next : Session} {reply : Reply}
    (effect : Effect session operation next reply)
    (few : image.strings.size + (added ++ operation.added).length < 0x100000000) :
    Tracks image (added ++ operation.added) next := by
  rw [List.length_append] at few
  cases effect with
  | added text => exact tracks.addString (by omega) text
  | @created spec _ _ made =>
    have none : (Operation.createFunction spec).added = [] := rfl
    rw [none, List.append_nil]
    obtain ⟨readable, size, grown, string, kind⟩ := tracks.merged (by omega)
    obtain ⟨-, code, -, -, rfl⟩ := Image.addFunction_exact.mp made
    exact ⟨⟨readable.strings, readable.kinds, readable.known⟩, size, grown, string, kind⟩
  | @notCreated spec _ _ =>
    have none : (Operation.createFunction spec).added = [] := rfl
    rw [none, List.append_nil]
    exact tracks.merged (by omega)
  | edited target _ _ _ =>
    rw [Operation.added_of_target target, List.append_nil]
    exact ⟨tracks.readable, tracks.size, tracks.grown, tracks.string, tracks.kind⟩
  | notEdited target =>
    rw [Operation.added_of_target target, List.append_nil]
    exact tracks

end Tracks

-- What a run preserves. Of the image it needs no more than strings that can be read.
theorem tracks_run {image : Image} (readable : image.Readable) (operations : List Operation)
    (few : image.strings.size + (addedBy operations).length < 0x100000000) :
    Tracks image (addedBy operations) ((start image).run operations) := by
  induction operations using List.reverseRecOn with
  | nil => exact tracks_start readable
  | append_singleton operations operation ih =>
    have last : addedBy [operation] = operation.added := List.append_nil _
    rw [addedBy_append, last] at few ⊢
    rw [run_snoc]
    rw [List.length_append] at few
    exact (ih (by omega)).effect (perform_effect _ operation) (by rw [List.length_append]; omega)

theorem foldl_commitEdit_strings (edits : Edits) (image : Image) :
    (edits.foldl commitEdit image).strings = image.strings ∧
      (edits.foldl commitEdit image).known = image.known := by
  induction edits generalizing image with
  | nil => exact ⟨rfl, rfl⟩
  | cons edit rest ih => exact ih (commitEdit image edit)

-- Committing shows the strings of the session.
theorem Tracks.commit {image : Image} {added : List String} {session : Session} (tracks : Tracks image added session)
    (few : image.strings.size + added.length < 0x100000000) :
    (∀ id, session.commit.text? id = textWith image added id) ∧
      ∀ id, image.strings.size ≤ id.toNat → id.toNat < image.strings.size + added.length →
        session.commit.strings.kind? id = some .string := by
  obtain ⟨readable, size, grown, string, kind⟩ := tracks.merged few
  obtain ⟨strings, known⟩ := foldl_commitEdit_strings session.edits session.mergeStrings.image
  have pending : session.mergeStrings.pending.size = 0 := rfl
  rw [pending, Nat.add_zero] at size
  have shown (id : UInt32) : session.commit.text? id = session.mergeStrings.image.text? id := by
    rw [Session.commit, Image.text?, Image.text?, strings, known]
  constructor
  · intro id
    rw [shown, ← string id, string?]
    split
    · next beyond =>
      rw [Image.text?_of_le readable.known beyond]
      exact (Array.getElem?_eq_none (by omega)).symm
    · rfl
  · intro id above below
    rw [Session.commit, strings]
    exact kind id above (by omega)

-- Numbers of strings are final, and operations that fail are not seen.
theorem string_numbers_final {image : Image} (good : image.WellFormed) (operations : List Operation)
    (few : image.strings.size + (addedBy operations).length < 2 ^ 32) :
    -- A string that is added gets the number after all others, whatever its text. From then on the session shows the
    -- text under this number, and the table holds it there after a commit.
    (∀ before text after, operations = before ++ .addString text :: after → ∃ id : UInt32,
      (((start image).run before).perform (.addString text)).2 = .ok (some id) ∧
      id.toNat = image.strings.size + (addedBy before).length ∧
      (∀ middle rest, after = middle ++ rest →
        ((start image).run (before ++ .addString text :: middle)).string? id = some text) ∧
      ((start image).run operations).commit.text? id = some text ∧
      ((start image).run operations).commit.strings.kind? id = some .string) ∧
    -- Every other number keeps its text.
    (∀ before after id text, operations = before ++ after → ((start image).run before).string? id = some text →
      ((start image).run operations).string? id = some text ∧
      ((start image).run operations).commit.text? id = some text) ∧
    -- An operation that fails leaves what is seen as it was.
    (∀ before operation after e, operations = before ++ operation :: after →
      (((start image).run before).perform operation).2 = .error e →
      ((start image).run before).SameView (((start image).run before).perform operation).1) := by
  have bound (first second : List Operation) (split : operations = first ++ second) :
      image.strings.size + (addedBy first).length < 0x100000000 := by
    rw [split, addedBy_append, List.length_append] at few
    omega
  have whole := tracks_run good.toReadable operations few
  refine ⟨?_, ?_, ?_⟩
  · intro before text after split
    have tracks := tracks_run good.toReadable before (bound _ _ split)
    have next : (image.strings.size + (addedBy before).length).toUInt32.toNat =
        image.strings.size + (addedBy before).length := toNat_toUInt32_of_lt (bound _ _ split)
    -- The text stands at its place among the added ones, whatever follows.
    have place (middle : List Operation) : textWith image (addedBy (before ++ .addString text :: middle))
        (image.strings.size + (addedBy before).length).toUInt32 = some text := by
      rw [textWith, next, if_neg (by omega), Nat.add_sub_cancel_left, addedBy_append]
      simp [addedBy, Operation.added]
    refine ⟨(image.strings.size + (addedBy before).length).toUInt32, ?_, next, ?_, ?_, ?_⟩
    · simp only [perform, Session.addString, tracks.size]
    · intro middle rest follow
      have here := tracks_run good.toReadable (before ++ .addString text :: middle) (bound _ rest (by simp [split, follow]))
      rw [here.string, place]
    · rw [(whole.commit few).1, split, place]
    · refine (whole.commit few).2 _ (by omega) ?_
      rw [next, split, addedBy_append]
      simp [addedBy, Operation.added]
  · intro before after id text split shown
    have kept : textWith image (addedBy operations) id = some text := by
      rw [(tracks_run good.toReadable before (bound _ _ split)).string] at shown
      rw [split, addedBy_append]
      exact textWith_append shown _
    exact ⟨by rw [whole.string, kept], by rw [(whole.commit few).1, kept]⟩
  · intro before operation after e split failed
    have tracks := tracks_run good.toReadable before (bound _ _ split)
    have effect := perform_effect ((start image).run before) operation
    rw [failed] at effect
    exact sameView_of_error effect tracks.readable (by have := tracks.size; have := bound _ _ split; omega)

-- A text that is added twice, a function that cannot be created in between, and an edit out of range at the end.
def sampleOperations : List Operation :=
  [.addString "a", .createFunction { name := 9 }, .addString "a", .removeBytes 0 2 7]

theorem sample_numbers_final :
    let session := (start Image.sample).run sampleOperations
    ∃ first second : UInt32, first.toNat = 1 ∧ second.toNat = 2 ∧
      session.string? first = some "a" ∧ session.string? second = some "a" ∧
      session.commit.text? first = some "a" ∧ session.commit.strings.kind? second = some .string ∧
      ∃ e, (((start Image.sample).run (sampleOperations.take 3)).perform (.removeBytes 0 2 7)).2 = .error e ∧
        ((start Image.sample).run (sampleOperations.take 3)).SameView session := by
  have few : Image.sample.strings.size + (addedBy sampleOperations).length < 2 ^ 32 := by decide
  obtain ⟨added, -, failed⟩ := string_numbers_final Image.sample_wellFormed sampleOperations few
  obtain ⟨first, -, number, shown, committed, -⟩ := added [] "a" _ rfl
  obtain ⟨second, -, number', shown', -, kind'⟩ := added (sampleOperations.take 2) "a" _ rfl
  have refused : (((start Image.sample).run (sampleOperations.take 3)).perform (.removeBytes 0 2 7)).2 =
      .error (.invalidRange 2 7 3) := by rfl
  exact ⟨first, second, number, number', shown _ [] (List.append_nil _).symm, shown' _ [] (List.append_nil _).symm,
    committed, kind', _, refused, failed _ _ [] _ rfl refused⟩

end Session
end CodeImage
