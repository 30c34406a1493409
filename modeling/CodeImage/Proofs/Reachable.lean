import CodeImage.Proofs.InPlace
import CodeImage.Proofs.Patched
import CodeImage.Proofs.Streamed

namespace CodeImage

namespace Image

-- All ways to come by an image. A builder starts with an image that has nothing but the two settings.
inductive Reachable : Image → Prop where
  | parsed {data : ByteArray} {options : ReadOptions} {image : Image} (read : parse data options = .ok image) :
      Reachable image
  | streamed {chunks : List ByteArray} {options : ReadOptions} {moves : List Move} {image : Image}
      (read : ((Transfer.start (fetch options) chunks).run moves).result? = some (.ok image)) : Reachable image
  | chunked {chunks : List ByteArray} {options : ReadOptions} {image : Image}
      (read : parseChunks chunks options = .ok image) : Reachable image
  | built (globalCodeIndex : UInt32) (debugInfo : Option ByteArray) : Reachable { globalCodeIndex, debugInfo }
  | addString {image : Image} (before : Reachable image) (text : String) : Reachable (image.addString text).1
  | addIdentifier {image : Image} (before : Reachable image) (text : String) (hash : UInt32) :
      Reachable (image.addIdentifier text hash).1
  | addBigInt {image : Image} (before : Reachable image) (value : Nat) : Reachable (image.addBigInt value).1
  | addRegExp {image : Image} (before : Reachable image) (compiled : ByteArray) : Reachable (image.addRegExp compiled).1
  | addBody {image : Image} (before : Reachable image) (body : Body) : Reachable (image.addBody body).1
  | addFunction {image next : Image} (before : Reachable image) {spec : FuncSpec} {id : UInt32}
      (made : image.addFunction spec = .ok (next, id)) : Reachable next
  | addAlias {image next : Image} (before : Reachable image) {other name id : UInt32}
      (made : image.addAlias other name = .ok (next, id)) : Reachable next
  | committed {image : Image} (before : Reachable image) (operations : List Session.Operation) :
      Reachable ((Session.start image).run operations).commit

namespace WellFormed

variable {image next : Image}

theorem pushed (good : image.WellFormed) (text : String) (kind : StringKind) (hashes : Array UInt32) :
    (image.pushed text kind hashes).WellFormed :=
  ⟨good.toReadable.pushed text kind hashes, good.bodies, good.bigInts, good.regExps⟩

theorem addBigInt (good : image.WellFormed) (value : Nat) : (image.addBigInt value).1.WellFormed :=
  ⟨⟨good.strings, good.kinds, good.known⟩, good.bodies, OffsetTable.inStorage_push good.bigInts _, good.regExps⟩

theorem addRegExp (good : image.WellFormed) (compiled : ByteArray) : (image.addRegExp compiled).1.WellFormed :=
  ⟨⟨good.strings, good.kinds, good.known⟩, good.bodies, good.bigInts, OffsetTable.inStorage_push good.regExps _⟩

theorem addBody (good : image.WellFormed) (body : Body) : (image.addBody body).1.WellFormed := by
  refine ⟨⟨good.strings, good.kinds, good.known⟩, ?_, good.bigInts, good.regExps⟩
  intro func member
  have old := good.bodies func member
  have size : (image.addBody body).1.bodies.size = image.bodies.size + 1 := Array.size_push _
  omega

-- A function that refers to a body may join the others.
theorem push (good : image.WellFormed) (func : Func) (inside : func.body.toNat < image.bodies.size) :
    { image with functions := image.functions.push func }.WellFormed := by
  refine ⟨⟨good.strings, good.kinds, good.known⟩, ?_, good.bigInts, good.regExps⟩
  intro other member
  rcases Array.mem_push.mp member with old | rfl
  · exact good.bodies other old
  · exact inside

theorem addFunction (good : image.WellFormed) {spec : FuncSpec} {id : UInt32}
    (made : image.addFunction spec = .ok (next, id)) : next.WellFormed := by
  obtain ⟨-, code, -, -, rfl⟩ := addFunction_exact.mp made
  have size : (image.addBody ⟨code, spec.jumpTables⟩).1.bodies.size = image.bodies.size + 1 := Array.size_push _
  have cut : image.bodies.size.toUInt32.toNat ≤ image.bodies.size := by
    rw [toNat_toUInt32]
    exact Nat.mod_le _ _
  refine (good.addBody ⟨code, spec.jumpTables⟩).push ⟨_, image.bodies.size.toUInt32, spec.handlers, spec.debug⟩ ?_
  rw [size]
  exact Nat.lt_succ_of_le cut

theorem addAlias (good : image.WellFormed) {other name id : UInt32}
    (made : image.addAlias other name = .ok (next, id)) : next.WellFormed := by
  obtain ⟨func, found, -, rfl⟩ := addAlias_exact.mp made
  exact good.push _ (good.bodies func (Array.mem_of_getElem? (function_ok_iff.mp found)))

end WellFormed

-- What is read from a stream is decoded as in a complete file.
theorem wellFormed_of_fetch {data : ByteArray} {options : ReadOptions} {image : Image}
    (fetched : (fetch options).eval data = .ok image) : image.WellFormed := by
  obtain ⟨header, table, tables, streamed⟩ := fetch_exact.mp fetched
  obtain ⟨parts, read, decoded⟩ := streamed.tables_ok
  refine ((Tables.decode_exact.mp decoded).wellFormed (SegmentTable.size_named ?_) streamed.finished).1
  intro part member
  obtain ⟨p, placed, ranged⟩ := exists_of_forall₂_right (mapM_ok_iff.mp read) part member
  obtain ⟨-, size⟩ := slice?_eq_some_iff.mp (Fetch.range_ok_iff.mp ranged)
  have bounds := (SegmentTable.bounds_of_place (SegmentTable.ofHeader_ok_iff.mp streamed.table_ok)).2.2 p placed
  omega

end Image

namespace Session

-- A session whose edits are of functions that there are, each once.
structure Ready (session : Session) : Prop where
  good : session.image.WellFormed
  sorted : session.edits.Sorted
  known : ∀ edit ∈ session.edits, edit.1.toNat < session.image.functions.size

theorem ready_start {image : Image} (good : image.WellFormed) : (start image).Ready :=
  ⟨good, List.Pairwise.nil, fun _ member => absurd member List.not_mem_nil⟩

theorem Ready.mergeStrings {session : Session} (ready : session.Ready) : session.mergeStrings.Ready := by
  obtain ⟨functions, bodies, bigInts, regExps, -, readable, -⟩ := extended_mergeStrings ready.good.toReadable
  refine ⟨⟨readable, ?_, ?_, ?_⟩, ready.sorted, ?_⟩
  · rw [functions, bodies]
    exact ready.good.bodies
  · rw [bigInts]
    exact ready.good.bigInts
  · rw [regExps]
    exact ready.good.regExps
  · rw [functions]
    exact ready.known

theorem Ready.effect {session next : Session} {operation : Operation} {reply : Reply} (ready : session.Ready)
    (effect : Effect session operation next reply) : next.Ready := by
  cases effect with
  | added text => exact ⟨ready.good, ready.sorted, ready.known⟩
  | created made =>
    have merged := ready.mergeStrings
    refine ⟨merged.good.addFunction made, merged.sorted, ?_⟩
    obtain ⟨-, code, -, -, rfl⟩ := Image.addFunction_exact.mp made
    intro edit member
    exact Nat.lt_of_lt_of_le (merged.known edit member) (by simp)
  | notCreated _ => exact ready.mergeStrings
  | edited target known ordered inside =>
    refine ⟨ready.good, Edits.sorted_put ready.sorted _ _, ?_⟩
    intro edit member
    rcases Edits.mem_put member with rfl | old
    · exact lt_of_code ready.known known
    · exact ready.known edit old
  | notEdited _ => exact ready

theorem ready_run {image : Image} (good : image.WellFormed) (operations : List Operation) :
    ((start image).run operations).Ready := by
  induction operations using List.reverseRecOn with
  | nil => exact ready_start good
  | append_singleton operations operation ih =>
    rw [run_snoc]
    exact ih.effect (perform_effect _ operation)

theorem Ready.commit {session : Session} (ready : session.Ready) : session.commit.WellFormed := by
  have merged := ready.mergeStrings
  exact (committed_foldl merged.sorted merged.good.bodies).wellFormed merged.good

-- The function of an edit and the body that it had are looked up.
def commitEdit? (image : Image) (edit : UInt32 × Rope) : Option Image := do
  let func ← image.functions[edit.1.toNat]?
  let body ← image.bodies[func.body.toNat]?
  let (image, number) := image.addBody ⟨edit.2.toBytes, body.jumpTables⟩
  return image.modifyFunction edit.1 fun func => func.withCode number edit.2.toBytes.size

def commit? (session : Session) : Option Image := session.edits.foldlM commitEdit? session.mergeStrings.image

theorem commitEdit?_eq {image : Image} (inside : ∀ func ∈ image.functions, func.body.toNat < image.bodies.size)
    {edit : UInt32 × Rope} (known : edit.1.toNat < image.functions.size) :
    commitEdit? image edit = some (commitEdit image edit) := by
  have found := Array.getElem?_eq_getElem known
  have old := Array.getElem?_eq_getElem (inside _ (Array.getElem_mem known))
  have tables := jumpTables_bodyOf found
  rw [old, Option.bind_some] at tables
  simp only [commitEdit?, found, old, Option.bind_eq_bind, Option.bind_some, ← tables]
  rfl

theorem foldlM_commitEdit? {image : Image} {edits : Edits}
    (inside : ∀ func ∈ image.functions, func.body.toNat < image.bodies.size)
    (known : ∀ edit ∈ edits, edit.1.toNat < image.functions.size) :
    edits.foldlM commitEdit? image = some (edits.foldl commitEdit image) := by
  induction edits generalizing image with
  | nil => rfl
  | cons edit rest ih =>
    obtain ⟨first, others⟩ := List.forall_mem_cons.mp known
    have size : (commitEdit image edit).functions.size = image.functions.size := Array.size_modify
    rw [List.foldlM_cons, commitEdit?_eq inside first, Option.bind_eq_bind, Option.bind_some, List.foldl_cons]
    exact ih (bodies_commitEdit inside edit) (by rw [size]; exact others)

theorem Ready.commit? {session : Session} (ready : session.Ready) : session.commit? = some session.commit := by
  have merged := ready.mergeStrings
  exact foldlM_commitEdit? merged.good.bodies merged.known

end Session

theorem Image.Reachable.wellFormed {image : Image} (reached : image.Reachable) : image.WellFormed := by
  induction reached with
  | parsed read =>
    obtain ⟨header, table, tables, parsed⟩ := parse_exact.mp read
    exact parsed.wellFormed.1
  | streamed read => exact wellFormed_of_fetch ((Transfer.result_exact read _).mp rfl)
  | chunked read => exact wellFormed_of_fetch (parseChunks_exact.mp read)
  | built =>
    refine ⟨⟨?_, rfl, rfl⟩, ?_, ?_, ?_⟩
    · intro entry member
      cases Array.not_mem_empty entry member
    · intro func member
      cases Array.not_mem_empty func member
    · intro entry member
      cases Array.not_mem_empty entry member
    · intro entry member
      cases Array.not_mem_empty entry member
  | addString _ text good => exact good.pushed text _ _
  | addIdentifier _ text hash good => exact good.pushed text _ _
  | addBigInt _ value good => exact good.addBigInt value
  | addRegExp _ compiled good => exact good.addRegExp compiled
  | addBody _ body good => exact good.addBody body
  | addFunction _ made good => exact good.addFunction made
  | addAlias _ made good => exact good.addAlias made
  | committed _ operations good => exact (Session.ready_run good operations).commit

section Overflow

variable {α β : Type} {x : Except ImageError α}

-- A computation that fails only because something is too large.
def OnlyOverflow (x : Except ImageError α) : Prop := ∀ e, x = .error e → ∃ what size, e = .segmentOverflow what size

theorem onlyOverflow_ok (a : α) : OnlyOverflow (.ok a) := fun _ failed => nomatch failed

theorem onlyOverflow_bind {f : α → Except ImageError β} (first : OnlyOverflow x) (later : ∀ a, OnlyOverflow (f a)) :
    OnlyOverflow (x >>= f) := by
  intro e failed
  cases x with
  | error e' =>
    cases failed
    exact first e rfl
  | ok a => exact later a e failed

theorem onlyOverflow_toWord (what : String) (n : Nat) : OnlyOverflow (toWord what n) := by
  intro e failed
  unfold toWord at failed
  split at failed
  · cases failed
  · cases failed
    exact ⟨what, n, rfl⟩

theorem onlyOverflow_place (header : Header) (cursor : Nat) (segments : List Segment) :
    OnlyOverflow (SegmentTable.place header cursor segments) := by
  induction segments generalizing cursor with
  | nil => exact onlyOverflow_ok _
  | cons segment rest ih =>
    intro e failed
    rw [SegmentTable.place] at failed
    split at failed
    · cases failed
      exact ⟨_, _, rfl⟩
    · split at failed
      · next later =>
        cases failed
        exact ih _ e later
      · cases failed

theorem onlyOverflow_ofHeader (header : Header) : OnlyOverflow (SegmentTable.ofHeader header) := by
  intro e failed
  rw [SegmentTable.ofHeader] at failed
  split at failed
  · next placing =>
    cases failed
    exact onlyOverflow_place _ _ _ e placing
  · cases failed

theorem onlyOverflow_placeTrailers (offset : Nat) (ps : List Placement) :
    OnlyOverflow (Placement.placeTrailers offset ps) := by
  induction ps generalizing offset with
  | nil => exact onlyOverflow_ok _
  | cons p rest ih =>
    intro e failed
    rw [Placement.placeTrailers] at failed
    split at failed
    · next large =>
      cases failed
      exact onlyOverflow_toWord _ _ e large
    · split at failed
      · next later =>
        cases failed
        exact ih _ e later
      · cases failed

theorem onlyOverflow_settle (start : Nat) (ps : List Placement) : OnlyOverflow (Placement.settle start ps) := by
  fun_induction Placement.settle start ps with
  | case1 ps e failed =>
    intro _ same
    cases same
    exact onlyOverflow_placeTrailers _ _ e failed
  | case2 ps placed stop _ _ => exact onlyOverflow_ok _
  | case3 ps placed stop _ _ _ ih => exact ih

-- Bodies that are there are placed unless they are too large.
theorem onlyOverflow_placeBodies {image : Image} {functions : List Func}
    (inside : ∀ func ∈ functions, func.body.toNat < image.bodies.size) (id offset : Nat)
    (starts : Array (Option UInt32)) : OnlyOverflow (Placement.placeBodies image functions id offset starts) := by
  induction functions generalizing id offset starts with
  | nil => exact onlyOverflow_ok _
  | cons func rest ih =>
    obtain ⟨first, others⟩ := List.forall_mem_cons.mp inside
    rw [placeBodies_cons image func rest id offset starts (Array.getElem?_eq_getElem first)]
    refine onlyOverflow_bind ?_ fun start => onlyOverflow_bind (onlyOverflow_toWord _ _) fun size =>
      onlyOverflow_bind (ih others _ _ _) fun placed => onlyOverflow_ok _
    unfold startFor
    split
    · exact onlyOverflow_ok _
    · exact onlyOverflow_toWord _ _

theorem onlyOverflow_header (image : Image) (version : Option UInt32) : OnlyOverflow (Writer.header image version) := by
  unfold Writer.header
  iterate 15 refine onlyOverflow_bind (onlyOverflow_toWord _ _) fun _ => ?_
  exact onlyOverflow_ok _

end Overflow

namespace Image

variable {image : Image}

theorem WellFormed.onlyOverflow_write (good : image.WellFormed) (version : Option UInt32) :
    OnlyOverflow (image.write version) := by
  rw [write_eq]
  refine onlyOverflow_bind (onlyOverflow_header image version) fun header =>
    onlyOverflow_bind (onlyOverflow_ofHeader header) fun table => onlyOverflow_bind ?_ fun placed =>
    onlyOverflow_bind ?_ fun debug => onlyOverflow_bind (onlyOverflow_toWord _ _) fun length => onlyOverflow_ok _
  · refine onlyOverflow_bind (onlyOverflow_placeBodies ?_ _ _ _) fun bodies => onlyOverflow_settle _ _
    intro func member
    exact good.bodies func (Array.mem_toList_iff.mp member)
  · unfold Writer.debugOffset
    split
    · exact onlyOverflow_toWord _ _
    · exact onlyOverflow_ok _

theorem isSome_kind? (full : image.strings.kinds.size = image.strings.size) (id : UInt32) :
    (image.strings.kind? id).isSome = decide (id.toNat < image.strings.size) := by
  rw [StringTable.kind?, Bool.eq_iff_iff, decide_eq_true_iff, isSome_getElem?, full]

-- A text that is not known is decoded by the entry at its number, without a look at how many entries there are.
def lookText? (image : Image) (id : UInt32) : Option (Option String) :=
  match image.known[id.toNat]? with
  | none => some none
  | some (some text) => some (some text)
  | some none => image.strings.entries[id.toNat]?.map fun entry => (image.strings.bytes? id).map entry.read

theorem Readable.lookText?_eq (readable : image.Readable) (id : UInt32) : image.lookText? id = some (image.text? id) := by
  unfold lookText? text?
  cases place : image.known[id.toNat]? with
  | none => rfl
  | some known =>
    cases known with
    | some text => rfl
    | none =>
      have inside := (Array.getElem?_eq_some_iff.mp place).1
      rw [readable.known] at inside
      have found : image.strings.entry? id = some image.strings.entries[id.toNat] := Array.getElem?_eq_getElem inside
      simp only [StringTable.get?_eq, found, Option.bind_some, Array.getElem?_eq_getElem inside, Option.map_some]
      rfl

theorem WellFormed.isSome_bigInt? (good : image.WellFormed) (id : UInt32) :
    (image.bigInt? id).isSome = decide (id.toNat < image.bigInts.size) := by
  rw [bigInt?, Option.isSome_map, OffsetTable.isSome_get? good.bigInts]

theorem WellFormed.bodyOf (good : image.WellFormed) {id : UInt32} (known : id.toNat < image.functions.size) :
    ∃ body, image.bodyOf id = .ok body := by
  have inside := good.bodies _ (Array.getElem_mem known)
  refine ⟨image.bodies[image.functions[id.toNat].body.toNat], ?_⟩
  simp only [Image.bodyOf, Image.function, Array.getElem?_eq_getElem known, Array.getElem?_eq_getElem inside]

-- The errors of a reference to something that is not there.
def Missing (image : Image) : ImageError → Prop
  | .stringIndex id => image.strings.size ≤ id.toNat
  | .functionIndex id => image.functions.size ≤ id.toNat
  | .bigIntIndex id => image.bigInts.size ≤ id.toNat
  | _ => False

theorem WellFormed.missing_of_typedOperand (good : image.WellFormed) {role : OperandRole} {operand : Operand}
    {e : ImageError} (failed : image.typedOperand role operand = .error e) : image.Missing e := by
  unfold typedOperand at failed
  split at failed
  · next id index =>
    have shown := good.isSome_text? id
    unfold Image.text at failed
    cases found : image.text? id with
    | some text =>
      rw [found] at failed
      cases failed
    | none =>
      rw [found] at failed shown
      cases failed
      exact Nat.le_of_not_lt (of_decide_eq_false shown.symm)
  · next id index =>
    unfold Image.function at failed
    cases found : image.functions[id.toNat]? with
    | some func =>
      rw [found] at failed
      cases failed
    | none =>
      rw [found] at failed
      cases failed
      exact Array.getElem?_eq_none_iff.mp found
  · next id index =>
    have shown := good.isSome_bigInt? id
    cases found : image.bigInt? id with
    | some value =>
      rw [found] at failed
      cases failed
    | none =>
      rw [found] at failed shown
      cases failed
      exact Nat.le_of_not_lt (of_decide_eq_false shown.symm)
  · cases failed

theorem WellFormed.missing_of_typedOperands (good : image.WellFormed) {insn : Instruction} {e : ImageError}
    (failed : image.typedOperands insn = .error e) : image.Missing e := by
  obtain ⟨⟨operand, index⟩, -, here⟩ := exists_of_mapM_error failed
  exact good.missing_of_typedOperand here

-- Nothing is read beyond the input, and a reachable image holds everything that it refers to.
theorem reachable_in_range :
    -- Reading looks at no byte that is not there, whatever the bytes are.
    (∀ data options, parse? data options = inRange (parse data options)) ∧
    -- A string table that is read has one kind for each entry.
    (∀ storage slots overflow runs table, StringTable.ofRecords storage slots overflow runs = .ok table →
      table.size = slots.size ∧ table.kinds.toList = StringTable.kindsOf runs ∧ table.kinds.size = table.size) ∧
    ∀ image : Image, image.Reachable →
      image.WellFormed ∧
      -- It has one kind and one place for a text for each string, in memory and in a file.
      image.strings.kinds.size = image.strings.size ∧ image.known.size = image.strings.size ∧
      (image.strings.size < 2 ^ 32 → (StringTable.kindsOf image.strings.kindRuns).length = image.strings.size) ∧
      -- Every number of a table can be looked up, and no other number.
      (∀ id : UInt32, (image.strings.kind? id).isSome = decide (id.toNat < image.strings.size) ∧
        (image.strings.bytes? id).isSome = decide (id.toNat < image.strings.size) ∧
        (image.text? id).isSome = decide (id.toNat < image.strings.size) ∧
        image.lookText? id = some (image.text? id) ∧
        (image.bigInt? id).isSome = decide (id.toNat < image.bigInts.size) ∧
        (image.regExps.get? id).isSome = decide (id.toNat < image.regExps.size)) ∧
      -- Every function has code, and decoding it looks at no byte beyond it.
      (∀ id : UInt32, id.toNat < image.functions.size → ∃ body, image.bodyOf id = .ok body ∧
        Instruction.decodeAll? body.code = some (Instruction.decodeAll body.code)) ∧
      -- An operand fails to resolve only if it refers to something that is not there.
      (∀ insn e, image.typedOperands insn = .error e → image.Missing e) ∧
      -- Whatever a session has done, its commit finds the functions and bodies that it edits.
      (∀ operations, ((Session.start image).run operations).commit? =
        some ((Session.start image).run operations).commit) ∧
      -- Writing puts every part inside the file, and fails only because something is too large.
      ∀ version, image.writeInPlace? version = inRange (image.write version) ∧
        ∀ e, image.write version = .error e → ∃ what size, e = .segmentOverflow what size := by
  refine ⟨parse?_eq, fun _ _ _ _ _ made => StringTable.size_of_ofRecords made, ?_⟩
  intro image reached
  have good := reached.wellFormed
  refine ⟨good, good.kinds, good.known, ?_, ?_, ?_, ?_, ?_, ?_⟩
  · intro few
    rw [StringTable.kindsOf_kindRuns (good.kinds ▸ few), Array.length_toList, good.kinds]
  · intro id
    exact ⟨isSome_kind? good.kinds id, StringTable.isSome_bytes? good.strings id, good.isSome_text? id,
      good.lookText?_eq id, good.isSome_bigInt? id, OffsetTable.isSome_get? good.regExps id⟩
  · intro id known
    obtain ⟨body, found⟩ := good.bodyOf known
    exact ⟨body, found, Instruction.decodeAll?_eq body.code⟩
  · intro insn e failed
    exact good.missing_of_typedOperands failed
  · intro operations
    exact (Session.ready_run good operations).commit?
  · intro version
    exact ⟨writeInPlace?_eq image version, good.onlyOverflow_write version⟩

def sampleNamed : Image := (({} : Image).addString "main").1

def sampleSpec : FuncSpec := { name := 0, code := .inr ⟨#[0, 1, 2]⟩ }

-- One function, with the string that names it.
def sampleBuilt : Image :=
  { sampleNamed with
    bodies := #[⟨⟨#[0, 1, 2]⟩, none⟩]
    functions := #[⟨FuncSpec.header sampleSpec 3, 0, none, none⟩] }

theorem sampleBuilt_reachable : sampleBuilt.Reachable :=
  @Reachable.addFunction sampleNamed sampleBuilt (.addString (.built 0 none) "main") sampleSpec 0 rfl

-- A file that is read, and a function that is built and then patched with edits that fail.
theorem sample_in_range :
    (∃ file back, sample.write = .ok file ∧ parse? file {} = some (.ok back) ∧ back.WellFormed) ∧
    sampleNamed.addFunction sampleSpec = .ok (sampleBuilt, 0) ∧
    let session := (Session.start (sampleBuilt.addBigInt 7).1).run Session.sampleOperations
    let image := session.commit
    session.commit? = some image ∧ image.WellFormed ∧
    (image.text? 2).isSome = true ∧ (image.strings.bytes? 3).isSome = false ∧ (image.bigInt? 0).isSome = true ∧
    (∃ body, image.bodyOf 0 = .ok body ∧ Instruction.decodeAll? body.code = some (Instruction.decodeAll body.code)) ∧
    (image.writeInPlace? none).isSome = true := by
  obtain ⟨reading, -, inside⟩ := reachable_in_range
  refine ⟨?_, rfl, ?_⟩
  · obtain ⟨file, written⟩ := sample_written
    obtain ⟨plan, serves, rfl⟩ := write_exact.mp written
    have parsed := serves.parse_signed sample_wellFormed sample_few {}
    refine ⟨_, _, written, ?_, (inside _ (.parsed parsed)).1⟩
    rw [reading, parsed]
    rfl
  · have before : (sampleBuilt.addBigInt 7).1.Reachable := .addBigInt sampleBuilt_reachable 7
    obtain ⟨good, -, -, -, lookup, decoding, -, -, writing⟩ := inside _ (.committed before Session.sampleOperations)
    have committing := (inside _ before).2.2.2.2.2.2.2.1 Session.sampleOperations
    refine ⟨committing, good, ?_, ?_, ?_, decoding 0 (by decide +kernel), ?_⟩
    · rw [(lookup 2).2.2.1]
      decide +kernel
    · rw [(lookup 3).2.1]
      decide +kernel
    · rw [(lookup 0).2.2.2.2.1]
      decide +kernel
    · rw [(writing none).1]
      rfl

end Image
end CodeImage
