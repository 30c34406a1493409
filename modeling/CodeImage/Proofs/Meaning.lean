import CodeImage.Proofs.RoundTrip

namespace CodeImage

-- A header without what a writer computes anew: the places, and the flags that say how it is stored.
def FunctionHeader.lasting (header : FunctionHeader) : FunctionHeader :=
  { header with
    offset := 0, codeSize := 0, infoOffset := 0
    hasExceptionHandler := false, hasDebugInfo := false, overflowed := false }

-- Functions of two images that mean the same. Their bodies have the same contents and may have other numbers.
structure Func.Alike (left right : Image) (func func' : Func) : Prop where
  header : func.header.lasting = func'.header.lasting
  handlers : func.handlers = func'.handlers
  debug : func.debug = func'.debug
  body : left.bodies[func.body.toNat]? = right.bodies[func'.body.toNat]?

-- Functions `i` and `j` share a body in the one image exactly when they do in the other.
def SameSharing (functions functions' : List Func) : Prop :=
  ∀ (i j : Nat) (a b a' b' : Func), functions[i]? = some a → functions[j]? = some b →
    functions'[i]? = some a' → functions'[j]? = some b' → (a.body = b.body ↔ a'.body = b'.body)

-- Images that mean the same.
structure Image.Alike (left right : Image) : Prop where
  version : left.version = right.version
  sourceHash : left.sourceHash = right.sourceHash
  globalCodeIndex : left.globalCodeIndex = right.globalCodeIndex
  segmentId : left.segmentId = right.segmentId
  options : left.options = right.options
  stringStorage : left.strings.storage = right.strings.storage
  stringEntries : left.strings.entries = right.strings.entries
  stringKinds : left.strings.kinds = right.strings.kinds
  identifierHashes : left.identifierHashes = right.identifierHashes
  bigInts : left.bigInts = right.bigInts
  regExps : left.regExps = right.regExps
  arrayBuffer : left.arrayBuffer = right.arrayBuffer
  objectKeyBuffer : left.objectKeyBuffer = right.objectKeyBuffer
  objectValueBuffer : left.objectValueBuffer = right.objectValueBuffer
  cjsModules : left.cjsModules = right.cjsModules
  functionSources : left.functionSources = right.functionSources
  debugInfo : left.debugInfo = right.debugInfo
  functions : List.Forall₂ (Func.Alike left right) left.functions.toList right.functions.toList
  sharing : SameSharing left.functions.toList right.functions.toList

variable {left right : Image}

theorem Func.Alike.placedHeader {func func' : Func} (alike : Func.Alike left right func func') (start : UInt32)
    (body : Body) : placedHeader func start body = placedHeader func' start body := by
  obtain ⟨header, handlers, debug, -⟩ := alike
  have rebuilt (f : Func) : CodeImage.placedHeader f start body =
      { f.header.lasting with
        offset := start, codeSize := body.code.size.toUInt32
        hasExceptionHandler := f.handlers.isSome, hasDebugInfo := f.debug.isSome } := rfl
  rw [rebuilt, rebuilt, header, handlers, debug]

theorem Func.Alike.sizeOfTrailer {func func' : Func} (alike : Func.Alike left right func func') :
    Placement.sizeOfTrailer func = Placement.sizeOfTrailer func' := by
  simp only [Placement.sizeOfTrailer, alike.handlers, alike.debug]

theorem SameSharing.tail {func func' : Func} {rest rest' : List Func}
    (sharing : SameSharing (func :: rest) (func' :: rest')) : SameSharing rest rest' := by
  intro i j a b a' b' here there here' there'
  exact sharing (i + 1) (j + 1) a b a' b' here there here' there'

theorem SameSharing.head {func func' : Func} {rest rest' : List Func}
    (sharing : SameSharing (func :: rest) (func' :: rest')) {i : Nat} {a a' : Func} (here : rest[i]? = some a)
    (here' : rest'[i]? = some a') : a.body = func.body ↔ a'.body = func'.body :=
  sharing (i + 1) 0 a func a' func' here rfl here' rfl

-- Two arrays of places know the same about the bodies of corresponding functions.
def SameKnown (functions functions' : List Func) (starts starts' : Array (Option UInt32)) : Prop :=
  ∀ (i : Nat) (a a' : Func), functions[i]? = some a → functions'[i]? = some a' →
    knownIn starts a.body = knownIn starts' a'.body

-- Placing a body keeps that, since the same functions are concerned on both sides.
theorem SameKnown.place {func func' : Func} {rest rest' : List Func} {starts starts' : Array (Option UInt32)}
    (known : SameKnown (func :: rest) (func' :: rest') starts starts')
    (sharing : SameSharing (func :: rest) (func' :: rest')) (start : UInt32)
    (inside : func.body.toNat < starts.size) (inside' : func'.body.toNat < starts'.size) :
    SameKnown rest rest' (starts.setIfInBounds func.body.toNat (some start))
      (starts'.setIfInBounds func'.body.toNat (some start)) := by
  intro i a a' here here'
  have shared := sharing.head here here'
  rw [knownIn_setIfInBounds start inside, knownIn_setIfInBounds start inside']
  by_cases same : a.body = func.body
  · rw [same, shared.mp same, Function.update_self, Function.update_self]
  · rw [Function.update_of_ne same, Function.update_of_ne fun same' => same (shared.mpr same')]
    exact known (i + 1) a a' here here'

theorem placeBodies_alike {functions functions' : List Func}
    (alike : List.Forall₂ (Func.Alike left right) functions functions') (sharing : SameSharing functions functions')
    {id offset : Nat} {starts starts' : Array (Option UInt32)} (known : SameKnown functions functions' starts starts')
    (size : starts.size = left.bodies.size) (size' : starts'.size = right.bodies.size) :
    Placement.placeBodies left functions id offset starts = Placement.placeBodies right functions' id offset starts' := by
  induction alike generalizing id offset starts starts' with
  | nil => rfl
  | @cons func func' rest rest' first _ ih =>
    have here := known 0 func func' rfl rfl
    cases found : left.bodies[func.body.toNat]? with
    | none =>
      have found' := first.body.symm.trans found
      simp only [Placement.placeBodies, found, found']
    | some body =>
      have found' := first.body.symm.trans found
      have inside : func.body.toNat < starts.size := by
        rw [size]
        exact (Array.getElem?_eq_some_iff.mp found).1
      have inside' : func'.body.toNat < starts'.size := by
        rw [size']
        exact (Array.getElem?_eq_some_iff.mp found').1
      -- Whatever the place of the body, what remains is placed alike.
      have later (start : UInt32) (next : Nat) := @ih sharing.tail (id + 1) next
        (starts.setIfInBounds func.body.toNat (some start)) (starts'.setIfInBounds func'.body.toNat (some start))
        (known.place sharing start inside inside') (by simpa using size) (by simpa using size')
      rw [placeBodies_cons left func rest id offset starts found,
        placeBodies_cons right func' rest' id offset starts' found']
      simp only [here, later, first.placedHeader, first.sizeOfTrailer]

namespace Image.Alike

theorem plan (alike : left.Alike right) (codeStart : Nat) :
    Placement.plan left codeStart = Placement.plan right codeStart := by
  have nothing : SameKnown left.functions.toList right.functions.toList
      (Array.replicate left.bodies.size none) (Array.replicate right.bodies.size none) := by
    intro i a a' _ _
    simp only [knownIn, Array.getElem?_replicate]
    split <;> split <;> rfl
  dsimp only [Placement.plan]
  rw [placeBodies_alike alike.functions alike.sharing nothing Array.size_replicate Array.size_replicate]

theorem strings (alike : left.Alike right) : left.strings = right.strings := by
  have storage := alike.stringStorage
  have entries := alike.stringEntries
  have kinds := alike.stringKinds
  cases h : left.strings
  cases h' : right.strings
  simp_all

theorem size_functions (alike : left.Alike right) : left.functions.size = right.functions.size := by
  simpa using alike.functions.length_eq

theorem header (alike : left.Alike right) (version : Option UInt32) :
    Writer.header left version = Writer.header right version := by
  simp only [Writer.header, alike.strings, alike.version, alike.sourceHash, alike.globalCodeIndex, alike.segmentId,
    alike.options, alike.size_functions, alike.identifierHashes, alike.bigInts, alike.regExps, alike.arrayBuffer,
    alike.objectKeyBuffer, alike.objectValueBuffer, alike.cjsModules, alike.functionSources]

theorem segment (alike : left.Alike right) (placements : List Placement) :
    Writer.segment left placements = Writer.segment right placements := by
  funext segment
  cases segment <;> simp only [Writer.segment, alike.strings, alike.identifierHashes, alike.bigInts, alike.regExps,
    alike.arrayBuffer, alike.objectKeyBuffer, alike.objectValueBuffer, alike.cjsModules, alike.functionSources]

end Image.Alike

theorem Writer.foldl_trailers_alike {functions functions' : List Func}
    (alike : List.Forall₂ (Func.Alike left right) functions functions') (placements : List Placement) (out : ByteArray) :
    (functions.zip placements).foldl (fun out (func, p) => appendTrailer out func p) out =
      (functions'.zip placements).foldl (fun out (func, p) => appendTrailer out func p) out := by
  induction alike generalizing placements out with
  | nil => rfl
  | cons first _ ih =>
    cases placements with
    | nil => rfl
    | cons p rest =>
      simp only [List.zip_cons_cons, List.foldl_cons, ih]
      simp only [appendTrailer, first.handlers, first.debug]

theorem Image.Alike.contents (alike : left.Alike right) (header : Header) (placements : List Placement) :
    Writer.contents left header placements = Writer.contents right header placements := by
  simp only [Writer.contents, alike.segment, alike.debugInfo, Writer.foldl_trailers_alike alike.functions]

-- Images that mean the same give the same file, or fail in the same way.
theorem Image.write_of_alike (alike : left.Alike right) (version : Option UInt32) :
    left.write version = right.write version := by
  simp only [Image.write_eq, alike.header, alike.plan, Writer.debugOffset, alike.debugInfo, alike.contents]

-- The sample with its bodies numbered otherwise, a body that nothing uses, and headers that kept the places and flags
-- of some other file.
def Image.sampleRenumbered : Image :=
  { Image.sample with
    functions := #[
      ⟨{ paramCount := 1, strictMode := true, offset := 9, codeSize := 4, infoOffset := 7, overflowed := true }, 1,
        some [⟨0, 2, 1⟩], none⟩,
      ⟨{ paramCount := 300, readCacheIndex := 255, hasExceptionHandler := true }, 1, none, some ⟨1, 2, 3⟩⟩]
    bodies := #[⟨⟨#[7]⟩, none⟩, ⟨⟨#[0, 1, 2]⟩, some ⟨#[4, 0, 0, 0]⟩⟩] }

theorem Image.sample_alike_renumbered : Image.sample.Alike Image.sampleRenumbered := by
  refine ⟨rfl, rfl, rfl, rfl, rfl, rfl, rfl, rfl, rfl, rfl, rfl, rfl, rfl, rfl, rfl, rfl, rfl, ?_, ?_⟩
  · exact .cons ⟨rfl, rfl, rfl, rfl⟩ (.cons ⟨rfl, rfl, rfl, rfl⟩ .nil)
  · intro i j a b a' b' here there here' there'
    -- All functions of the one image have body 0 and all of the other body 1.
    have first : ∀ func ∈ Image.sample.functions.toList, func.body = 0 := by decide
    have second : ∀ func ∈ Image.sampleRenumbered.functions.toList, func.body = 1 := by decide
    rw [first a (List.mem_of_getElem? here), first b (List.mem_of_getElem? there),
      second a' (List.mem_of_getElem? here'), second b' (List.mem_of_getElem? there')]
    exact ⟨fun _ => rfl, fun _ => rfl⟩

theorem Image.sample_write_renumbered :
    Image.sample ≠ Image.sampleRenumbered ∧ Image.sample.Alike Image.sampleRenumbered ∧
      ∀ version, Image.sample.write version = Image.sampleRenumbered.write version := by
  refine ⟨?_, Image.sample_alike_renumbered, Image.write_of_alike Image.sample_alike_renumbered⟩
  intro same
  have sizes := congrArg (fun image : Image => image.bodies.size) same
  exact absurd sizes (by decide)

end CodeImage
