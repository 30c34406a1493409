import CodeImage.Image
import CodeImage.Segment

namespace CodeImage

def toWord (what : String) (n : Nat) : Except ImageError UInt32 :=
  if n < 0x100000000 then .ok n.toUInt32 else .error (.segmentOverflow what n)

structure Placement where
  header : FunctionHeader
  -- The body to write here, if this function is the first to use it.
  body : Option Body
  trailerSize : Nat
deriving Inhabited

namespace Placement

def bodyStop (offset : Nat) (body : Body) : Nat :=
  match body.jumpTables with
  | none => offset + body.code.size
  | some tables => align4 (offset + body.code.size) + tables.size

def sizeOfTrailer (func : Func) : Nat :=
  (match func.handlers with | some handlers => 4 + 12 * handlers.length | none => 0) +
    if func.debug.isSome then 12 else 0

-- Places the bodies of functions from `offset` on. `starts` holds for each body where it lies if it is already placed,
-- and `id` is the number of the next function.
def placeBodies (image : Image) : List Func → (id offset : Nat) → (starts : Array (Option UInt32)) →
    Except ImageError (List Placement × Nat)
  | [], _, offset, _ => .ok ([], offset)
  | func :: rest, id, offset, starts => do
    let some body := image.bodies[func.body.toNat]? | throw (.invalidLayout (.danglingBody id))
    let known := (starts[func.body.toNat]?).join
    let start ← match known with
      | some start => pure start
      | none => toWord "bytecode" offset
    let codeSize ← toWord "bytecode size" body.code.size
    let header := { func.header with
      offset := start, codeSize, infoOffset := 0, overflowed := false
      hasExceptionHandler := func.handlers.isSome, hasDebugInfo := func.debug.isSome }
    let placement : Placement := ⟨header, if known.isSome then none else some body, sizeOfTrailer func⟩
    let next := if known.isSome then offset else bodyStop offset body
    let (placements, stop) ←
      placeBodies image rest (id + 1) next (starts.setIfInBounds func.body.toNat (some start))
    return (placement :: placements, stop)

def room (p : Placement) : Nat := p.trailerSize + if p.header.overflowed then Schema.largeHeader.size else 0

def placeTrailers : (offset : Nat) → List Placement → Except ImageError (List Placement × Nat)
  | offset, [] => .ok ([], offset)
  | offset, p :: rest =>
    match toWord "trailer" offset with
    | .error e => .error e
    | .ok infoOffset =>
      match placeTrailers (offset + p.room) rest with
      | .error e => .error e
      | .ok (placed, stop) => .ok ({ p with header := { p.header with infoOffset } } :: placed, stop)

def mark (p : Placement) : Placement :=
  { p with header := { p.header with overflowed := p.header.overflowed || !p.header.fitsSmall } }

def settled (p : Placement) : Bool := p.header.overflowed || p.header.fitsSmall

def narrow (placements : List Placement) : Nat := placements.countP fun p => !p.header.overflowed

theorem narrow_cons (p : Placement) (ps : List Placement) :
    narrow (p :: ps) = narrow ps + if p.header.overflowed then 0 else 1 := by
  unfold narrow
  rw [List.countP_cons]
  cases p.header.overflowed <;> rfl

theorem narrow_placeTrailers {offset stop : Nat} {ps placed : List Placement}
    (h : placeTrailers offset ps = .ok (placed, stop)) : narrow placed = narrow ps := by
  induction ps generalizing offset placed stop with
  | nil => cases h; rfl
  | cons p rest ih =>
    unfold placeTrailers at h
    split at h
    · cases h
    · split at h
      · cases h
      · next done =>
        cases h
        rw [narrow_cons, narrow_cons, ih done]

theorem narrow_map_mark_le (ps : List Placement) : narrow (ps.map mark) ≤ narrow ps := by
  induction ps with
  | nil => exact Nat.le_refl 0
  | cons p rest ih =>
    rw [List.map_cons, narrow_cons, narrow_cons]
    by_cases out : p.header.overflowed = true <;> by_cases fits : p.header.fitsSmall = true <;>
      simp [mark, out, fits] <;> omega

theorem narrow_map_mark_lt {ps : List Placement} (h : ¬ ps.all settled = true) :
    narrow (ps.map mark) < narrow ps := by
  induction ps with
  | nil => exact absurd rfl h
  | cons p rest ih =>
    have le := narrow_map_mark_le rest
    rw [List.map_cons, narrow_cons, narrow_cons]
    cases good : settled p with
    | true =>
      have lt := ih (by simpa [good] using h)
      by_cases out : p.header.overflowed = true <;> by_cases fits : p.header.fitsSmall = true <;>
        simp [mark, out, fits] <;> omega
    | false =>
      simp only [settled, Bool.or_eq_false_iff] at good
      simp [mark, good.1, good.2]
      omega

-- A header that does not fit the function table takes room in front of its trailer. That moves later trailers and can
-- make more headers too large, so the trailers are placed again until nothing changes.
def settle (start : Nat) (placements : List Placement) : Except ImageError (List Placement × Nat) :=
  match placedHere : placeTrailers start placements with
  | .error e => .error e
  | .ok (placed, stop) =>
    if done : placed.all settled = true then .ok (placed, stop)
    else
      have : narrow (placed.map mark) < narrow placements :=
        narrow_placeTrailers placedHere ▸ narrow_map_mark_lt done
      settle start (placed.map mark)
termination_by narrow placements

def plan (image : Image) (codeStart : Nat) : Except ImageError (List Placement × Nat) := do
  let starts := Array.replicate image.bodies.size none
  let (placements, stop) ← placeBodies image image.functions.toList 0 codeStart starts
  settle (align4 stop) (placements.map mark)

end Placement
end CodeImage
