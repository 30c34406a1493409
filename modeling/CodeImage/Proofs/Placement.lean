import CodeImage.Proofs.Written

-- Trailers only ever move towards the end of the file, so a header that was once too large for the function table stays
-- so, and the loop over them ends.

namespace CodeImage

namespace FunctionHeader

theorem fitsSmall_iff (h : FunctionHeader) : h.fitsSmall = true ↔
    h.offset.toNat < 2 ^ 25 ∧ h.paramCount.toNat < 2 ^ 7 ∧ h.codeSize.toNat < 2 ^ 15 ∧ h.functionName.toNat < 2 ^ 17 ∧
      h.infoOffset.toNat < 2 ^ 25 ∧ h.frameSize.toNat < 2 ^ 7 ∧ h.environmentSize.toNat < 2 ^ 8 ∧
      h.readCacheIndex.toNat < 2 ^ 8 ∧ h.writeCacheIndex.toNat < 2 ^ 8 := by
  simp [fitsSmall, sized, Schema.smallHeader, Schema.headerWidths, Layout.ofWidths, Layout.place, toRecord,
    HeaderRecord.toWords, sizedFields, Field.fits_iff]

end FunctionHeader

namespace Placement

-- One round of the loop: the trailers are placed, some header has to move out of the function table, and all
-- such headers are marked.
def Round (start : Nat) (ps next : List Placement) : Prop :=
  ∃ placed stop, placeTrailers start ps = .ok (placed, stop) ∧ ¬ placed.all settled = true ∧ next = placed.map mark

-- A number of rounds, one after the other.
inductive Rounds (start : Nat) : Nat → List Placement → List Placement → Prop where
  | none {ps : List Placement} : Rounds start 0 ps ps
  | more {n : Nat} {ps next last : List Placement} (round : Round start ps next) (later : Rounds start n next last) :
      Rounds start (n + 1) ps last

-- The loop ends: it makes at most `limit` rounds, and after the last one every header has its place.
structure Ends (start limit : Nat) (ps placed : List Placement) (stop : Nat) : Prop where
  bounded : ∀ n next, Rounds start n ps next → n ≤ limit
  reached : ∃ n last, Rounds start n ps last ∧ placeTrailers start last = .ok (placed, stop) ∧ placed.all settled = true

theorem Round.narrow_lt {start : Nat} {ps next : List Placement} (round : Round start ps next) :
    narrow next < narrow ps := by
  obtain ⟨placed, stop, done, more, rfl⟩ := round
  rw [← narrow_placeTrailers done]
  exact narrow_map_mark_lt more

-- Every round takes a header out of the function table.
theorem Rounds.narrow_add_le {start n : Nat} {ps last : List Placement} (rounds : Rounds start n ps last) :
    narrow last + n ≤ narrow ps := by
  induction rounds with
  | none => exact Nat.le_refl _
  | more round _ ih =>
    have := round.narrow_lt
    omega

theorem settle_reached {start stop : Nat} {ps placed : List Placement} (done : settle start ps = .ok (placed, stop)) :
    ∃ n last, Rounds start n ps last ∧ placeTrailers start last = .ok (placed, stop) ∧ placed.all settled = true := by
  fun_induction settle start ps with
  | case1 ps e failed => cases done
  | case2 ps placed' stop' placedHere all =>
    cases done
    exact ⟨0, ps, .none, placedHere, all⟩
  | case3 ps placed' stop' placedHere more _ ih =>
    obtain ⟨n, last, rounds, final, all⟩ := ih done
    exact ⟨n + 1, last, .more ⟨placed', stop', placedHere, more, rfl⟩ rounds, final, all⟩

theorem settle_ends {start stop : Nat} {ps placed : List Placement} (done : settle start ps = .ok (placed, stop)) :
    Ends start ps.length ps placed stop := by
  refine ⟨?_, settle_reached done⟩
  intro n next rounds
  have fewer := rounds.narrow_add_le
  have all : narrow ps ≤ ps.length := List.countP_le_length
  omega

-- A marked header does not fit the function table where it stands.
def Due (p : Placement) : Prop := p.header.overflowed = true → p.header.fitsSmall = false

-- No header stands behind the place that it gets when the trailers are placed from `offset` on.
def Rising : Nat → List Placement → Prop
  | _, [] => True
  | offset, p :: rest => p.header.infoOffset.toNat ≤ offset ∧ Rising (offset + p.room) rest

theorem Rising.mono {low high : Nat} {ps : List Placement} (rising : Rising low ps) (le : low ≤ high) : Rising high ps := by
  induction ps generalizing low high with
  | nil => trivial
  | cons p rest ih => exact ⟨Nat.le_trans rising.1 le, ih rising.2 (Nat.add_le_add_right le _)⟩

theorem rising_of_zero {offset : Nat} {ps : List Placement} (zero : ∀ p ∈ ps, p.header.infoOffset = 0) :
    Rising offset ps := by
  induction ps generalizing offset with
  | nil => trivial
  | cons p rest ih =>
    obtain ⟨first, later⟩ := List.forall_mem_cons.mp zero
    rw [Rising, first]
    exact ⟨Nat.zero_le _, ih later⟩

theorem room_le_room_mark (p : Placement) : p.room ≤ p.mark.room := by
  unfold room mark
  cases p.header.overflowed with
  | true => simp
  | false => simp

-- Marking makes room in front of trailers, so the next round moves none of them back.
theorem rising_map_mark {offset stop : Nat} {ps placed : List Placement}
    (done : placeTrailers offset ps = .ok (placed, stop)) : Rising offset (placed.map mark) := by
  induction ps generalizing offset placed with
  | nil => cases done; trivial
  | cons p rest ih =>
    obtain ⟨bound, later, more, rfl⟩ := placeTrailers_cons_ok.mp done
    have grows := room_le_room_mark { p with header := { p.header with infoOffset := offset.toUInt32 } }
    have place := toNat_toUInt32_of_lt bound
    exact ⟨Nat.le_of_eq place, (ih more).mono (Nat.add_le_add_left grows offset)⟩

-- A header that moves towards the end of the file does not fit any better.
theorem due_of_placeTrailers {offset stop : Nat} {ps placed : List Placement}
    (done : placeTrailers offset ps = .ok (placed, stop)) (rising : Rising offset ps) (due : ∀ p ∈ ps, Due p) :
    ∀ p ∈ placed, Due p := by
  induction ps generalizing offset placed with
  | nil => cases done; exact fun p member => absurd member List.not_mem_nil
  | cons p rest ih =>
    obtain ⟨bound, later, more, rfl⟩ := placeTrailers_cons_ok.mp done
    obtain ⟨first, others⟩ := List.forall_mem_cons.mp due
    refine List.forall_mem_cons.mpr ⟨?_, ih more rising.2 others⟩
    intro marked
    have misfit := first marked
    rw [← Bool.not_eq_true, FunctionHeader.fitsSmall_iff] at misfit ⊢
    have low := rising.1
    rw [toNat_toUInt32_of_lt bound]
    exact fun fits => misfit (by simp only at fits; omega)

theorem fitsSmall_mark (p : Placement) : p.mark.header.fitsSmall = p.header.fitsSmall := rfl

theorem Due.mark {p : Placement} (due : Due p) : Due p.mark := by
  intro marked
  rw [fitsSmall_mark]
  rcases Bool.or_eq_true .. |>.mp marked with before | now
  · exact due before
  · exact (Bool.not_eq_true' _).mp now

theorem settle_due {start stop : Nat} {ps placed : List Placement} (done : settle start ps = .ok (placed, stop))
    (rising : Rising start ps) (due : ∀ p ∈ ps, Due p) : ∀ p ∈ placed, Due p := by
  fun_induction settle start ps with
  | case1 ps e failed => cases done
  | case2 ps placed' stop' placedHere all =>
    cases done
    exact due_of_placeTrailers placedHere rising due
  | case3 ps placed' stop' placedHere more _ ih =>
    refine ih done (rising_map_mark placedHere) ?_
    intro p member
    obtain ⟨q, inside, rfl⟩ := List.mem_map.mp member
    exact (due_of_placeTrailers placedHere rising due q inside).mark

theorem infoOffset_aligned {offset stop : Nat} {ps placed : List Placement}
    (done : placeTrailers offset ps = .ok (placed, stop)) (start : offset % 4 = 0) (rooms : ∀ p ∈ ps, p.room % 4 = 0) :
    ∀ p ∈ placed, p.header.infoOffset.toNat % 4 = 0 := by
  induction ps generalizing offset placed with
  | nil => cases done; exact fun p member => absurd member List.not_mem_nil
  | cons p rest ih =>
    obtain ⟨bound, later, more, rfl⟩ := placeTrailers_cons_ok.mp done
    obtain ⟨first, others⟩ := List.forall_mem_cons.mp rooms
    refine List.forall_mem_cons.mpr ⟨?_, ih more (by omega) others⟩
    simpa only [toNat_toUInt32_of_lt bound] using start

theorem room_aligned {func : Func} {p : Placement} (size : p.trailerSize = sizeOfTrailer func) : p.room % 4 = 0 := by
  rw [room, size, sizeOfTrailer, Schema.size_largeHeader]
  split <;> split <;> split <;> omega

end Placement

-- A run of bytes at its place in the file.
structure Piece where
  start : Nat
  bytes : ByteArray

namespace Piece

def stop (piece : Piece) : Nat := piece.start + piece.bytes.size

-- The places of the bytes.
def range (piece : Piece) : Set Nat := Set.Ico piece.start piece.stop

-- No byte belongs to both.
def Apart (a b : Piece) : Prop := ∀ i ∈ a.range, i ∉ b.range

-- The pieces follow each other, none before `low` and none behind `high`.
def InOrder : Nat → List Piece → Nat → Prop
  | low, [], high => low ≤ high
  | low, piece :: rest, high => low ≤ piece.start ∧ InOrder piece.stop rest high

namespace InOrder

variable {low middle high : Nat} {pieces more : List Piece}

theorem append (first : InOrder low pieces middle) (second : InOrder middle more high) :
    InOrder low (pieces ++ more) high := by
  induction pieces generalizing low with
  | nil =>
    cases more with
    | nil => exact Nat.le_trans first second
    | cons piece rest => exact ⟨Nat.le_trans first second.1, second.2⟩
  | cons piece rest ih => exact ⟨first.1, ih first.2⟩

theorem inside (order : InOrder low pieces high) : ∀ piece ∈ pieces, low ≤ piece.start ∧ piece.stop ≤ high := by
  induction pieces generalizing low with
  | nil => exact fun piece member => absurd member List.not_mem_nil
  | cons piece rest ih =>
    have later := ih order.2
    have size : piece.start ≤ piece.stop := Nat.le_add_right ..
    refine List.forall_mem_cons.mpr ⟨⟨order.1, ?_⟩, ?_⟩
    · cases rest with
      | nil => exact order.2
      | cons next _ =>
        have first := later next List.mem_cons_self
        have nextSize : next.start ≤ next.stop := Nat.le_add_right ..
        omega
    · intro other member
      have := (later other member).1
      have := order.1
      exact ⟨by omega, (later other member).2⟩

theorem apart (order : InOrder low pieces high) : pieces.Pairwise Apart := by
  induction pieces generalizing low with
  | nil => exact .nil
  | cons piece rest ih =>
    refine .cons ?_ (ih order.2)
    intro other member i here there
    have after := (order.2.inside other member).1
    have := here.2
    have := there.1
    omega

end InOrder
end Piece

namespace Placement

-- What is written where the body of a function lies: the code, and the jump tables behind it.
def bodyPieces (p : Placement) : List Piece :=
  match p.body with
  | none => []
  | some body =>
    ⟨p.header.offset.toNat, body.code⟩ ::
      (body.jumpTables.toList.map fun tables => ⟨align4 (p.header.offset.toNat + body.code.size), tables⟩)

-- What is written where the trailer of a function lies: the header in full, the handlers and the debug offsets.
-- A part that the function does not have takes no bytes.
def trailerPieces (func : Func) (p : Placement) : List Piece :=
  let full := if p.header.overflowed then Schema.largeHeader.encode p.header.toLarge else ByteArray.empty
  let handlers := wordBytes ((func.handlers.map Writer.handlerWords).getD [])
  let debug := wordBytes ((func.debug.map Writer.debugWords).getD [])
  let start := p.header.infoOffset.toNat
  [⟨start, full⟩, ⟨start + full.size, handlers⟩, ⟨start + full.size + handlers.size, debug⟩]

-- Everything that is written for the functions, in the order of the file.
def pieces (functions : List Func) (placements : List Placement) : List Piece :=
  placements.flatMap bodyPieces ++ (functions.zip placements).flatMap fun pair => trailerPieces pair.1 pair.2

theorem bodyPieces_inOrder {p : Placement} {body : Body} (here : p.body = some body) :
    Piece.InOrder p.header.offset.toNat p.bodyPieces (bodyStop p.header.offset.toNat body) := by
  cases tables : body.jumpTables with
  | none =>
    simp only [bodyPieces, here, bodyStop, tables]
    exact ⟨Nat.le_refl _, Nat.le_refl _⟩
  | some data =>
    simp only [bodyPieces, here, bodyStop, tables]
    exact ⟨Nat.le_refl _, le_align4 _, Nat.le_refl _⟩

theorem trailerPieces_inOrder {func : Func} {p : Placement} (size : p.trailerSize = sizeOfTrailer func) :
    Piece.InOrder p.header.infoOffset.toNat (trailerPieces func p) (p.header.infoOffset.toNat + p.room) := by
  refine ⟨Nat.le_refl _, Nat.le_refl _, Nat.le_refl _, ?_⟩
  have sizes := Writer.size_trailerBytes size
  rw [Writer.trailerBytes, ByteArray.size_append, ByteArray.size_append] at sizes
  simp only [Piece.InOrder, Piece.stop]
  omega

theorem trailers_inOrder {functions : List Func} {offset stop : Nat} {ps : List Placement}
    (done : placeTrailers offset ps = .ok (ps, stop)) (sizes : Writer.Matching functions ps) :
    Piece.InOrder offset ((functions.zip ps).flatMap fun pair => trailerPieces pair.1 pair.2) stop := by
  induction sizes generalizing offset with
  | nil => cases done; exact Nat.le_refl _
  | @cons func p functions rest first _ ih =>
    obtain ⟨bound, later, more, same⟩ := placeTrailers_cons_ok.mp done
    obtain ⟨head, rfl⟩ := List.cons.inj same
    have place : p.header.infoOffset.toNat = offset := by
      rw [head]
      exact toNat_toUInt32_of_lt bound
    have front := trailerPieces_inOrder first
    rw [place] at front
    rw [List.zip_cons_cons, List.flatMap_cons]
    exact front.append (ih more)

end Placement

namespace Placing

variable {image : Image} {known : UInt32 → Option UInt32} {offset stop : Nat} {functions : List Func}
  {placements : List Placement} {entries : List Entry}

theorem bodies_inOrder (placing : Placing image known offset functions placements entries stop) :
    Piece.InOrder offset (placements.flatMap Placement.bodyPieces) stop := by
  induction placing with
  | nil => exact Nat.le_refl _
  | shared _ _ _ _ ih => exact ih
  | @fresh _ _ _ func _ _ _ start body _ _ _ here _ ih =>
    rw [List.flatMap_cons]
    have front := @Placement.bodyPieces_inOrder
      ⟨placedHeader func start body, some body, Placement.sizeOfTrailer func⟩ body rfl
    rw [show (placedHeader func start body).offset.toNat = _ from here] at front
    exact front.append ih

-- Nothing is marked nor given a place for its trailer before the loop.
theorem unmarked (placing : Placing image known offset functions placements entries stop) :
    ∀ p ∈ placements, p.header.overflowed = false ∧ p.header.infoOffset = 0 := by
  induction placing with
  | nil => exact fun p member => absurd member List.not_mem_nil
  | shared _ _ _ _ ih => exact List.forall_mem_cons.mpr ⟨⟨rfl, rfl⟩, ih⟩
  | fresh _ _ _ _ _ ih => exact List.forall_mem_cons.mpr ⟨⟨rfl, rfl⟩, ih⟩

-- A body is written by one of the functions that use it, unless it is placed already.
theorem writers (placing : Placing image known offset functions placements entries stop) (id : UInt32) :
    (functions.zip placements).countP (fun pair => pair.2.body.isSome && pair.1.body == id) =
      if known id = none ∧ ∃ func ∈ functions, func.body = id then 1 else 0 := by
  induction placing with
  | nil => simp
  | @shared known _ _ func rest _ _ _ _ _ _ old _ ih =>
    rw [List.zip_cons_cons, List.countP_cons_of_neg (by simp), ih]
    by_cases same : func.body = id
    · rw [← same, old]
      simp
    · simp [same]
  | @fresh known _ _ func rest _ _ start _ _ _ new _ _ ih =>
    rw [List.zip_cons_cons, List.countP_cons, ih]
    by_cases same : func.body = id
    · subst same
      simp [new]
    · rw [Function.update_of_ne (Ne.symm same)]
      simp [same]

-- What is written is the body that the function refers to.
theorem written (placing : Placing image known offset functions placements entries stop) :
    List.Forall₂ (fun func (p : Placement) => ∀ body ∈ p.body, image.bodies[func.body.toNat]? = some body)
      functions placements := by
  induction placing with
  | nil => exact .nil
  | shared _ _ _ _ ih => exact .cons (fun body here => nomatch here) ih
  | fresh found _ _ _ _ ih =>
    refine .cons ?_ ih
    rintro body ⟨⟩
    exact found

end Placing

namespace Placement

-- What a plan promises about the functions of an image.
structure Sound (image : Image) (codeStart : Nat) (placements : List Placement) (stop : Nat) : Prop where
  length : placements.length = image.functions.size
  -- A header is marked exactly if it does not fit the function table with its final places.
  marked : ∀ p ∈ placements, p.header.overflowed = true ↔ p.header.fitsSmall = false
  sized : ∀ pair ∈ image.functions.toList.zip placements, ∃ body, image.bodies[pair.1.body.toNat]? = some body ∧
    pair.2.header.codeSize.toNat = body.code.size
  sameOffset : ∀ a ∈ image.functions.toList.zip placements, ∀ b ∈ image.functions.toList.zip placements,
    a.1.body = b.1.body → a.2.header.offset = b.2.header.offset
  -- Of the functions that share a body exactly one writes it.
  writtenOnce : ∀ func ∈ image.functions, (image.functions.toList.zip placements).countP
    (fun pair => pair.2.body.isSome && pair.1.body == func.body) = 1
  written : ∀ pair ∈ image.functions.toList.zip placements, ∀ body ∈ pair.2.body,
    image.bodies[pair.1.body.toNat]? = some body
  aligned : ∀ p ∈ placements, p.header.infoOffset.toNat % 4 = 0
  apart : (pieces image.functions.toList placements).Pairwise Piece.Apart
  inside : ∀ piece ∈ pieces image.functions.toList placements, codeStart ≤ piece.start ∧ piece.stop ≤ stop

variable {image : Image} {codeStart bodyEnd stop : Nat} {base placements : List Placement} {entries : List Entry}

theorem marked_iff (placing : Placing image (fun _ => none) codeStart image.functions.toList base entries bodyEnd)
    (settled : settle (align4 bodyEnd) (base.map mark) = .ok (placements, stop)) :
    ∀ p ∈ placements, p.header.overflowed = true ↔ p.header.fitsSmall = false := by
  have start : Rising (align4 bodyEnd) (base.map mark) := by
    apply rising_of_zero
    intro p member
    obtain ⟨q, inside, rfl⟩ := List.mem_map.mp member
    exact (placing.unmarked q inside).2
  have due : ∀ p ∈ base.map mark, Due p := by
    intro p member
    obtain ⟨q, inside, rfl⟩ := List.mem_map.mp member
    refine Due.mark fun marked => ?_
    rw [(placing.unmarked q inside).1] at marked
    cases marked
  intro p member
  refine ⟨settle_due settled start due p member, fun misfit => ?_⟩
  have placed := List.all_eq_true.mp (settle_spec settled).2.1 p member
  simpa [Placement.settled, misfit] using placed

theorem writtenOnce_of_base (placing : Placing image (fun _ => none) codeStart image.functions.toList base entries bodyEnd)
    (same : placements.map Placement.base = base.map Placement.base) : ∀ func ∈ image.functions,
      (image.functions.toList.zip placements).countP
        (fun pair => pair.2.body.isSome && pair.1.body == func.body) = 1 := by
  intro func member
  -- Counting looks at the bodies of placements only.
  have count (ps : List Placement) : (image.functions.toList.zip ps).countP
      (fun pair => pair.2.body.isSome && pair.1.body == func.body) =
      (image.functions.toList.zip (ps.map Placement.base)).countP
        (fun pair => pair.2.body.isSome && pair.1.body == func.body) := by
    rw [List.zip_map_right, List.countP_map]
    rfl
  rw [count, same, ← count, placing.writers, if_pos ⟨rfl, func, Array.mem_toList_iff.mpr member, rfl⟩]

-- The bodies lie in front of the first trailer, and the trailers end the plan.
theorem pieces_inOrder (placing : Placing image (fun _ => none) codeStart image.functions.toList base entries bodyEnd)
    (settled : settle (align4 bodyEnd) (base.map mark) = .ok (placements, stop)) :
    Piece.InOrder codeStart (pieces image.functions.toList placements) stop := by
  have same := map_base_of_settle settled
  have bodies : placements.flatMap bodyPieces = base.flatMap bodyPieces := by
    have both := congrArg (List.flatMap bodyPieces) same
    rw [List.flatMap_map, List.flatMap_map] at both
    exact both
  have sizes : Writer.Matching image.functions.toList placements :=
    (placing.each_of_base same).imp fun _ _ ⟨_, _, _, _, size⟩ => size
  have gap : Piece.InOrder bodyEnd [] (align4 bodyEnd) := le_align4 bodyEnd
  rw [pieces, bodies]
  exact placing.bodies_inOrder.append (gap.append (trailers_inOrder (settle_spec settled).1 sizes))

theorem sound_of_settled (placing : Placing image (fun _ => none) codeStart image.functions.toList base entries bodyEnd)
    (settled : settle (align4 bodyEnd) (base.map mark) = .ok (placements, stop)) :
    Sound image codeStart placements stop := by
  have same := map_base_of_settle settled
  have each := placing.each_of_base same
  have order := pieces_inOrder placing settled
  have pairs : ∀ pair ∈ image.functions.toList.zip placements, ∃ e ∈ entries, e.id = pair.1.body ∧
      pair.2.base.header = placedHeader pair.1 e.start e.body ∧ pair.2.trailerSize = sizeOfTrailer pair.1 :=
    fun pair member => (List.forall₂_iff_zip.mp each).2 member
  refine ⟨?_, marked_iff placing settled, ?_, ?_, writtenOnce_of_base placing same, ?_, ?_, order.apart, order.inside⟩
  · rw [← each.length_eq, Array.length_toList]
  · rintro ⟨func, p⟩ member
    obtain ⟨e, listed, id, header, -⟩ := pairs _ member
    refine ⟨e.body, id ▸ placing.found e listed, ?_⟩
    have size := congrArg FunctionHeader.codeSize header
    rw [show p.header.codeSize = e.body.code.size.toUInt32 from size, toNat_toUInt32_of_lt]
    exact (placing.laid.bounds e listed).2.2
  · rintro ⟨func, p⟩ left ⟨other, q⟩ right shared
    obtain ⟨e, listed, id, header, -⟩ := pairs _ left
    obtain ⟨e', listed', id', header', -⟩ := pairs _ right
    -- Bodies are told apart by their numbers, so both functions refer to one entry.
    obtain rfl : e = e' :=
      List.inj_on_of_nodup_map placing.distinct.1 listed listed' (by rw [id, id']; exact shared)
    have offset := congrArg FunctionHeader.offset header
    have offset' := congrArg FunctionHeader.offset header'
    exact offset.trans offset'.symm
  · rintro ⟨func, p⟩ member body here
    obtain ⟨q, written, bodies⟩ := (List.forall₂_iff_zip.mp (forall₂_of_map_eq placing.written same)).2 member
    have body_eq := congrArg Placement.body bodies
    exact written body (by rwa [show p.body = q.body from body_eq] at here)
  · refine infoOffset_aligned (settle_spec settled).1 (align4_mod bodyEnd) ?_
    intro p member
    obtain ⟨func, -, e, -, -, -, size⟩ := exists_of_forall₂_right each p member
    exact room_aligned size

-- Whenever a plan succeeds, its loop has ended and its places are sound.
theorem plan_sound {image : Image} {codeStart stop : Nat} {placements : List Placement}
    (planned : plan image codeStart = .ok (placements, stop)) :
    (∃ base bodyEnd,
      placeBodies image image.functions.toList 0 codeStart (Array.replicate image.bodies.size none) =
        .ok (base, bodyEnd) ∧
      Ends (align4 bodyEnd) image.functions.size (base.map mark) placements stop) ∧
    Sound image codeStart placements stop := by
  obtain ⟨base, entries, bodyEnd, placing, settled⟩ := plan_exact.mp planned
  have ends := settle_ends settled
  rw [List.length_map, ← placing.each.length_eq, Array.length_toList] at ends
  exact ⟨⟨base, bodyEnd, placeBodies_start_exact.mpr ⟨entries, placing⟩, ends⟩, sound_of_settled placing settled⟩

-- Two functions that share a body with jump tables. The second one has too many parameters for the function table.
def sampleImage : Image :=
  { functions := #[⟨{ paramCount := 1 }, 0, some [⟨0, 2, 1⟩], none⟩, ⟨{ paramCount := 300 }, 0, none, some ⟨1, 2, 3⟩⟩]
    bodies := #[⟨⟨#[0, 1, 2]⟩, some ⟨#[4, 0, 0, 0]⟩⟩] }

theorem sample_plan_sound : ∃ placements stop, plan sampleImage 128 = .ok (placements, stop) ∧
    (∃ base bodyEnd,
      placeBodies sampleImage sampleImage.functions.toList 0 128 (Array.replicate sampleImage.bodies.size none) =
        .ok (base, bodyEnd) ∧
      Ends (align4 bodyEnd) sampleImage.functions.size (base.map mark) placements stop) ∧
    Sound sampleImage 128 placements stop := by
  have done : (plan sampleImage 128).toBool = true := by decide +kernel
  obtain ⟨⟨placements, stop⟩, planned⟩ := exists_of_toBool done
  exact ⟨placements, stop, planned, plan_sound planned⟩

end Placement
end CodeImage
