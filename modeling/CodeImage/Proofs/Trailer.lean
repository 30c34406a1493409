import CodeImage.Image.Writer
import CodeImage.Proofs.Region

namespace CodeImage

theorem toWord_ok_iff {what : String} {n : Nat} {word : UInt32} :
    toWord what n = .ok word ↔ n < 0x100000000 ∧ word = n.toUInt32 := by
  unfold toWord
  split
  · next small => simp [small, eq_comm]
  · next large => simp [large]

theorem toNat_of_toWord {what : String} {n : Nat} {word : UInt32} (small : toWord what n = .ok word) :
    word.toNat = n := by
  obtain ⟨bound, rfl⟩ := toWord_ok_iff.mp small
  rw [toNat_toUInt32_of_lt bound]

namespace Placement

-- What placing trailers does not touch.
def base (p : Placement) : Placement := { p with header := { p.header with infoOffset := 0, overflowed := false } }

-- A placement without its body.
def bare (p : Placement) : Placement := { p with body := none }

@[simp] theorem trailerSize_base (p : Placement) : p.base.trailerSize = p.trailerSize := rfl
@[simp] theorem settled_bare (p : Placement) : p.bare.settled = p.settled := rfl
@[simp] theorem room_bare (p : Placement) : p.bare.room = p.room := rfl

theorem placeTrailers_cons_ok {offset stop : Nat} {p : Placement} {rest placed : List Placement} :
    placeTrailers offset (p :: rest) = .ok (placed, stop) ↔
      offset < 0x100000000 ∧ ∃ later, placeTrailers (offset + p.room) rest = .ok (later, stop) ∧
        placed = { p with header := { p.header with infoOffset := offset.toUInt32 } } :: later := by
  rw [placeTrailers]
  constructor
  · intro done
    split at done
    · cases done
    · next word small =>
      obtain ⟨bound, rfl⟩ := toWord_ok_iff.mp small
      split at done
      · cases done
      · next later last more =>
        cases done
        exact ⟨bound, later, more, rfl⟩
  · rintro ⟨bound, later, more, rfl⟩
    rw [toWord_ok_iff.mpr ⟨bound, rfl⟩, more]

theorem map_base_of_placeTrailers {offset stop : Nat} {ps placed : List Placement}
    (done : placeTrailers offset ps = .ok (placed, stop)) : placed.map base = ps.map base := by
  induction ps generalizing offset placed with
  | nil => cases done; rfl
  | cons p rest ih =>
    obtain ⟨-, later, more, rfl⟩ := placeTrailers_cons_ok.mp done
    rw [List.map_cons, List.map_cons, ih more]
    rfl

-- Where a trailer lies depends on the room of those before it, not on where they lay.
theorem placeTrailers_again {offset stop : Nat} {ps placed : List Placement}
    (done : placeTrailers offset ps = .ok (placed, stop)) : placeTrailers offset placed = .ok (placed, stop) := by
  induction ps generalizing offset placed with
  | nil => cases done; rfl
  | cons p rest ih =>
    obtain ⟨bound, later, more, rfl⟩ := placeTrailers_cons_ok.mp done
    exact placeTrailers_cons_ok.mpr ⟨bound, later, ih more, rfl⟩

theorem placeTrailers_le {offset stop : Nat} {ps placed : List Placement}
    (done : placeTrailers offset ps = .ok (placed, stop)) : offset ≤ stop := by
  induction ps generalizing offset placed with
  | nil => cases done; exact Nat.le_refl _
  | cons p rest ih =>
    obtain ⟨-, later, more, -⟩ := placeTrailers_cons_ok.mp done
    have := ih more
    omega

theorem placeTrailers_map_bare (offset : Nat) (ps : List Placement) :
    placeTrailers offset (ps.map bare) = (placeTrailers offset ps).map fun result => (result.1.map bare, result.2) := by
  induction ps generalizing offset with
  | nil => rfl
  | cons p rest ih =>
    rw [List.map_cons, placeTrailers, placeTrailers, room_bare, ih]
    cases toWord "trailer" offset with
    | error e => rfl
    | ok word =>
      cases placeTrailers (offset + p.room) rest with
      | error e => rfl
      | ok result => rfl

theorem settle_spec {start stop : Nat} {ps placed : List Placement} (done : settle start ps = .ok (placed, stop)) :
    placeTrailers start placed = .ok (placed, stop) ∧ placed.all settled = true ∧ placed.map base = ps.map base := by
  fun_induction settle start ps with
  | case1 ps e failed => cases done
  | case2 ps placed' stop' placedHere all =>
    cases done
    exact ⟨placeTrailers_again placedHere, all, map_base_of_placeTrailers placedHere⟩
  | case3 ps placed' stop' placedHere more _ ih =>
    obtain ⟨again, all, same⟩ := ih done
    refine ⟨again, all, ?_⟩
    rw [same, List.map_map, ← map_base_of_placeTrailers placedHere]
    rfl

-- Settling moves trailers only.
theorem map_base_of_settle {start stop : Nat} {ps placed : List Placement}
    (done : settle start (ps.map mark) = .ok (placed, stop)) : placed.map base = ps.map base := by
  rw [(settle_spec done).2.2, List.map_map]
  rfl

-- The bodies play no part in settling.
theorem settle_map_bare (start : Nat) (ps : List Placement) :
    settle start (ps.map bare) = (settle start ps).map fun result => (result.1.map bare, result.2) := by
  fun_induction settle start ps with
  | case1 ps e failed =>
    rw [settle]
    split
    · next e' failed' =>
      rw [placeTrailers_map_bare, failed] at failed'
      cases failed'
      rfl
    · next placed stop placedHere =>
      rw [placeTrailers_map_bare, failed] at placedHere
      cases placedHere
  | case2 ps placed stop placedHere all =>
    have bares : placeTrailers start (ps.map bare) = .ok (placed.map bare, stop) := by
      rw [placeTrailers_map_bare, placedHere]; rfl
    rw [settle]
    split
    · next e failed => rw [bares] at failed; cases failed
    · next placed' stop' placedHere' =>
      rw [bares] at placedHere'
      cases placedHere'
      rw [dif_pos (by simpa using all)]
      rfl
  | case3 ps placed stop placedHere more _ ih =>
    have bares : placeTrailers start (ps.map bare) = .ok (placed.map bare, stop) := by
      rw [placeTrailers_map_bare, placedHere]; rfl
    rw [settle]
    split
    · next e failed => rw [bares] at failed; cases failed
    · next placed' stop' placedHere' =>
      rw [bares] at placedHere'
      cases placedHere'
      have swap : (placed.map bare).map mark = (placed.map mark).map bare := by
        rw [List.map_map, List.map_map]; rfl
      rw [dif_neg (by simpa using more), ← ih]
      exact congrArg (settle start) swap

end Placement

namespace Writer

-- The bytes of a function's trailer, behind the header in full if there is one.
def trailerBytes (func : Func) (header : FunctionHeader) : ByteArray :=
  (if header.overflowed then Schema.largeHeader.encode header.toLarge else ByteArray.empty) ++
    wordBytes ((func.handlers.map handlerWords).getD []) ++ wordBytes ((func.debug.map debugWords).getD [])

theorem appendTrailer_eq (out : ByteArray) (func : Func) (p : Placement) :
    appendTrailer out func p = out ++ trailerBytes func p.header := by
  rw [appendTrailer, foldl_pushWord_eq_append, foldl_pushWord_eq_append, trailerBytes]
  split
  · simp only [ByteArray.append_assoc]
  · simp only [ByteArray.append_assoc, ByteArray.empty_append]

theorem length_handlerWords (handlers : List Handler) : (handlerWords handlers).length = 1 + 3 * handlers.length := by
  rw [handlerWords, List.length_cons, List.length_flatMap]
  induction handlers with
  | nil => rfl
  | cons handler rest ih =>
    simp only [List.map_cons, List.sum_cons, List.length_cons, List.length_nil] at ih ⊢
    omega

theorem size_trailerBytes {func : Func} {p : Placement} (size : p.trailerSize = Placement.sizeOfTrailer func) :
    (trailerBytes func p.header).size = p.room := by
  have full : (if p.header.overflowed = true then Schema.largeHeader.encode p.header.toLarge
      else ByteArray.empty).size = if p.header.overflowed = true then 32 else 0 := by
    split
    · rw [Schema.size_encode, Schema.size_largeHeader]
    · rfl
  rw [trailerBytes, ByteArray.size_append, ByteArray.size_append, full, size_wordBytes, size_wordBytes,
    Placement.room, size, Placement.sizeOfTrailer, Schema.size_largeHeader]
  cases func.handlers with
  | none =>
    cases func.debug with
    | none => simp
    | some debug => simp [debugWords]; omega
  | some handlers =>
    cases func.debug with
    | none => simp [length_handlerWords]; omega
    | some debug => simp [length_handlerWords, debugWords]; omega

-- Each function's trailer takes the room that its placement gives it.
def Matching (functions : List Func) (ps : List Placement) : Prop :=
  List.Forall₂ (fun func (p : Placement) => p.trailerSize = Placement.sizeOfTrailer func) functions ps

theorem holds_trailers {functions : List Func} {offset stop : Nat} {ps : List Placement}
    (done : Placement.placeTrailers offset ps = .ok (ps, stop)) (sizes : Matching functions ps) {out : ByteArray}
    (size : out.size = offset) :
    let written := (functions.zip ps).foldl (fun out (func, p) => appendTrailer out func p) out
    written.size = stop ∧ Holds written 0 out ∧
      ∀ pair ∈ functions.zip ps, offset ≤ pair.2.header.infoOffset.toNat ∧
        Holds written pair.2.header.infoOffset.toNat (trailerBytes pair.1 pair.2.header) := by
  induction sizes generalizing offset out with
  | nil =>
    cases done
    exact ⟨size, Holds.refl out, fun pair member => absurd member (List.not_mem_nil)⟩
  | @cons func p functions rest first _ ih =>
    obtain ⟨bound, later, more, same⟩ := Placement.placeTrailers_cons_ok.mp done
    obtain ⟨head, rfl⟩ := List.cons.inj same
    have info : p.header.infoOffset = offset.toUInt32 := by rw [head]
    have place : p.header.infoOffset.toNat = out.size := by
      rw [info, toNat_toUInt32_of_lt bound, size]
    have grown : (appendTrailer out func p).size = offset + p.room := by
      rw [appendTrailer_eq, ByteArray.size_append, size, size_trailerBytes first]
    obtain ⟨total, start, inside⟩ := ih more grown
    rw [appendTrailer_eq] at start
    refine ⟨total, ?_, ?_⟩
    · simp only [List.zip_cons_cons, List.foldl_cons, appendTrailer_eq] at start ⊢
      exact start.inside_front (Holds.prefix_append ..)
    · rw [List.zip_cons_cons, List.forall_mem_cons]
      refine ⟨⟨by simp only; omega, ?_⟩, ?_⟩
      · simp only [List.foldl_cons, appendTrailer_eq] at start ⊢
        rw [place]
        exact start.inside_front (Holds.suffix_append ..)
      · intro pair member
        obtain ⟨low, holds⟩ := inside pair member
        exact ⟨by omega, holds⟩

end Writer

namespace Reader

variable {region : Region} {offset : Nat}

theorem readHandlers_of_has {handlers : List Handler} (before : List Handler)
    (has : region.Has offset (wordBytes (handlers.flatMap fun h => [h.start, h.stop, h.target]))) :
    readHandlers region handlers.length offset before = .ok (before.reverse ++ handlers) := by
  induction handlers generalizing offset before with
  | nil => simp [readHandlers]
  | cons handler rest ih =>
    rw [List.flatMap_cons, List.cons_append, List.cons_append, List.cons_append, List.nil_append] at has
    have later : region.Has (offset + 12) (wordBytes (rest.flatMap fun h => [h.start, h.stop, h.target])) := by
      apply has.trans
      rw [wordBytes_cons, wordBytes_cons, wordBytes_cons, ← ByteArray.append_assoc, ← ByteArray.append_assoc]
      exact Holds.suffix_append ..
    rw [List.length_cons, readHandlers, has.triple]
    simp only
    rw [ih (handler :: before) later, List.reverse_cons, List.append_assoc]
    rfl

-- The three parts of a trailer at their places.
theorem has_trailer_parts {func : Func} {header : FunctionHeader}
    (has : region.Has header.infoOffset.toNat (Writer.trailerBytes func header)) :
    region.Has (trailerStart header) (wordBytes ((func.handlers.map Writer.handlerWords).getD [])) ∧
      region.Has (trailerStart header + 4 * ((func.handlers.map Writer.handlerWords).getD []).length)
        (wordBytes ((func.debug.map Writer.debugWords).getD [])) := by
  have full : (if header.overflowed = true then Schema.largeHeader.encode header.toLarge
      else ByteArray.empty).size = if header.overflowed = true then Schema.largeHeader.size else 0 := by
    split
    · rw [Schema.size_encode]
    · rfl
  rw [Writer.trailerBytes] at has
  constructor
  · rw [trailerStart, ← full]
    exact has.trans ((Holds.suffix_append _ _).append_left _)
  · have last := has.trans (Holds.suffix_append _ _)
    rwa [ByteArray.size_append, full, size_wordBytes, ← Nat.add_assoc] at last

theorem handlerPart_of_has {func : Func} {header : FunctionHeader}
    (has : region.Has header.infoOffset.toNat (Writer.trailerBytes func header))
    (flag : header.hasExceptionHandler = func.handlers.isSome)
    (few : ∀ handlers, func.handlers = some handlers → handlers.length < 0x100000000) :
    handlerPart region header = .ok (func.handlers,
      trailerStart header + 4 * ((func.handlers.map Writer.handlerWords).getD []).length) := by
  obtain ⟨words, -⟩ := has_trailer_parts has
  cases found : func.handlers with
  | none =>
    rw [found] at flag
    simp [handlerPart, flag]
  | some handlers =>
    rw [found] at flag words
    rw [Option.map_some, Option.getD_some] at words ⊢
    have count : handlers.length.toUInt32.toNat = handlers.length := by
      rw [toNat_toUInt32_of_lt (few handlers found)]
    have first : region.word (trailerStart header) = .ok handlers.length.toUInt32 :=
      words.wordBytes (i := 0) (by simp [Writer.handlerWords])
    have rest : region.Has (trailerStart header + 4)
        (wordBytes (handlers.flatMap fun h => [h.start, h.stop, h.target])) := by
      apply words.trans
      rw [Writer.handlerWords, wordBytes_cons]
      exact Holds.suffix_append ..
    rw [handlerPart, flag, Option.isSome_some, if_pos rfl, first, ok_bind, count, readHandlers_of_has [] rest, ok_bind,
      Writer.length_handlerWords, List.reverse_nil, List.nil_append, pure_eq_ok]
    congr 2
    omega

theorem debugPart_of_has {func : Func} {header : FunctionHeader}
    (has : region.Has header.infoOffset.toNat (Writer.trailerBytes func header))
    (flag : header.hasDebugInfo = func.debug.isSome) :
    debugPart region header (trailerStart header + 4 * ((func.handlers.map Writer.handlerWords).getD []).length) =
      .ok func.debug := by
  obtain ⟨-, words⟩ := has_trailer_parts has
  cases found : func.debug with
  | none =>
    rw [found] at flag
    simp [debugPart, flag]
  | some debug =>
    rw [found] at flag words
    rw [Option.map_some, Option.getD_some] at words
    rw [debugPart, flag, Option.isSome_some, if_pos rfl, Region.Has.triple words]
    rfl

theorem readTrailer_of_has {func : Func} {header : FunctionHeader}
    (has : region.Has header.infoOffset.toNat (Writer.trailerBytes func header))
    (handlerFlag : header.hasExceptionHandler = func.handlers.isSome)
    (debugFlag : header.hasDebugInfo = func.debug.isSome)
    (few : ∀ handlers, func.handlers = some handlers → handlers.length < 0x100000000) :
    readTrailer region header = .ok (func.handlers, func.debug) := by
  rw [readTrailer_eq, handlerPart_of_has has handlerFlag few, ok_bind, debugPart_of_has has debugFlag]
  rfl

-- Only the cache indices can change on the way through a file, and no trailer depends on them.
theorem readTrailer_stored (region : Region) (header : FunctionHeader) :
    readTrailer region header.stored = readTrailer region header := by
  unfold FunctionHeader.stored
  split
  · rfl
  · rfl

theorem resolveHeader_smallRecord {func : Func} {p : Placement}
    (has : region.Has p.header.infoOffset.toNat (Writer.trailerBytes func p.header)) :
    resolveHeader region (Writer.smallRecord p) = .ok p.header.stored := by
  unfold Writer.smallRecord
  cases out : p.header.overflowed with
  | false =>
    have kept : p.header.toSmall.overflowed = 0 := rfl
    rw [if_neg Bool.false_ne_true, resolveHeader, if_pos kept, FunctionHeader.ofRecord_toSmall out]
    simp [FunctionHeader.stored, out]
  | true =>
    have full : region.Has p.header.infoOffset.toNat (Schema.largeHeader.encode p.header.toLarge) := by
      rw [Writer.trailerBytes, out, if_pos rfl, ByteArray.append_assoc] at has
      exact has.trans (Holds.prefix_append _ _)
    have sliced := full.slice
    rw [Schema.size_encode] at sliced
    rw [if_pos rfl, resolveHeader, if_neg (by simp [FunctionHeader.toStub]), FunctionHeader.largeOffset_toStub, sliced]
    simp only
    rw [Schema.decode_encode Schema.largeHeader_lawful, FunctionHeader.ofLarge_cut_toLarge out]

end Reader

-- A record of the function table keeps every field.
theorem Writer.smallRecord_fits {p : Placement} (settled : p.settled = true) :
    Schema.smallHeader.Fits (Writer.smallRecord p) := by
  unfold Writer.smallRecord
  split
  · exact FunctionHeader.toStub_fits p.header p.header.infoOffset
  · next kept =>
    apply FunctionHeader.toSmall_fits
    simpa [Placement.settled, kept] using settled

end CodeImage
