namespace CodeImage

-- Numbers are kept as bit patterns, so that the payload of a NaN survives.
structure Binary64 where
  bits : UInt64
deriving DecidableEq, Inhabited, Repr

namespace Binary64

def signBit : Nat := 0x8000000000000000

def leadingBit : Nat := 0x10000000000000

def negative (x : Binary64) : Bool := decide (signBit ≤ x.bits.toNat)

def magnitude (x : Binary64) : Nat := x.bits.toNat % signBit

def infinity : Nat := 2047 * leadingBit

def isNaN (x : Binary64) : Bool := decide (infinity < x.magnitude)

def isInfinite (x : Binary64) : Bool := x.magnitude == infinity

def isZero (x : Binary64) : Bool := x.magnitude == 0

def equals (x y : Binary64) : Bool :=
  !x.isNaN && !y.isNaN && (x.bits == y.bits || (x.isZero && y.isZero))

def signed (minus : Bool) (magnitude : Nat) : Binary64 :=
  ⟨(magnitude + if minus then signBit else 0).toUInt64⟩

def significand (x : Binary64) : Nat :=
  let fraction := x.magnitude % leadingBit
  if x.magnitude < leadingBit then fraction else fraction + leadingBit

def exponent (x : Binary64) : Int := (max 1 (x.magnitude / leadingBit) : Nat) - 1075

def scaled (n : Nat) (e : Int) : Nat × Nat :=
  if 0 ≤ e then (n * Nat.pow 2 e.toNat, 1) else (n, Nat.pow 2 (-e).toNat)

def ratio (x : Binary64) : Nat × Nat := scaled x.significand x.exponent

-- The magnitude nearest to `num / den`, a tie going to the even significand, and `infinity` when the quotient is too
-- large. The exponent is chosen so that the significand has 53 bits, except below the normal range.
def roundRatio (num den : Nat) : Nat :=
  if num = 0 then 0 else
    let least : Int := -1074
    let guess : Int := max ((num.log2 : Int) - den.log2 - 53) least
    let quotient (e : Int) : Nat × Nat :=
      if 0 ≤ e then (num, den * Nat.pow 2 e.toNat) else (num * Nat.pow 2 (-e).toNat, den)
    let (n₀, d₀) := quotient guess
    let e := if n₀ / d₀ < 2 * leadingBit then guess else guess + 1
    let (n, d) := quotient e
    let floor := n / d
    let rest := n % d
    let m := if d < 2 * rest ∨ (2 * rest = d ∧ floor % 2 = 1) then floor + 1 else floor
    min infinity ((e + 1074).toNat * leadingBit + m)

-- Whether `n` times ten to the power `place` is rounded to infinity. Only a number with 309 digits before its point
-- comes near the limit; any other is settled by their count.
def exceedsRange (n : Nat) (place : Int) : Bool :=
  let top := (Nat.toDigits 10 n).length + place
  if n = 0 ∨ top < 309 then false
  else if 309 < top then true
  else if 0 ≤ place then roundRatio (n * Nat.pow 10 place.toNat) 1 == infinity
  else roundRatio n (Nat.pow 10 (-place).toNat) == infinity

def ofInt (n : Int) : Binary64 := signed (decide (n < 0)) (roundRatio n.natAbs 1)

def mulMagnitude (x y : Binary64) : Nat :=
  roundRatio (x.ratio.1 * y.ratio.1) (x.ratio.2 * y.ratio.2)

def divMagnitude (x y : Binary64) : Nat :=
  roundRatio (x.ratio.1 * y.ratio.2) (x.ratio.2 * y.ratio.1)

def toInt (x : Binary64) : Int :=
  if x.isNaN then 0 else
    let whole := if x.isInfinite then 2 * signBit else x.ratio.1 / x.ratio.2
    if x.negative then -(min signBit whole : Nat) else (min (signBit - 1) whole : Nat)

-- The decimal `digits · 10 ^ place` with the fewest digits that reads back as the positive number with this significand
-- and exponent, and of those the nearest to it. Places are tried from the largest down, at each the two neighbours of
-- the number; the ends of the interval of numbers that read back count when the significand is even.
def shortest (m : Nat) (e : Int) : Nat × Int :=
  go 700 309
where
  sides (a d : Nat) (k : Int) : Nat × Nat :=
    let (twos, halves) := scaled 1 (e - 2)
    let (tens, tenths) : Nat × Nat := if 0 ≤ k then (Nat.pow 10 k.toNat, 1) else (1, Nat.pow 10 (-k).toNat)
    (a * twos * tenths, d * tens * halves)
  reads (d : Nat) (k : Int) : Bool :=
    let low := if m = leadingBit ∧ e ≠ -1074 then 4 * m - 1 else 4 * m - 2
    let (below, x₁) := sides low d k
    let (above, x₂) := sides (4 * m + 2) d k
    if m % 2 = 0 then decide (below ≤ x₁) && decide (x₂ ≤ above)
    else decide (below < x₁) && decide (x₂ < above)
  go : Nat → Int → Nat × Int
    | 0, k => (m, k)
    | steps + 1, k =>
      let (value, unit) := sides (4 * m) 1 k
      let d := value / unit
      let down := reads d k
      let up := reads (d + 1) k
      if down && up then (if 2 * (value % unit) < unit then (d, k) else (d + 1, k))
      else if down then (d, k)
      else if up then (d + 1, k)
      else go steps (k - 1)

def positional (digits : Nat) (place : Int) : String :=
  let text := (Nat.toDigits 10 digits)
  if 0 ≤ place then String.ofList (text ++ List.replicate place.toNat '0')
  else
    let shift := (-place).toNat
    let filled := List.replicate (shift + 1 - text.length) '0' ++ text
    String.ofList (filled.take (filled.length - shift) ++ '.' :: filled.drop (filled.length - shift))

def text (x : Binary64) : String :=
  if x.isNaN then "NaN" else
    let unsigned :=
      if x.isInfinite then "inf"
      else if x.isZero then "0"
      else
        let (digits, place) := shortest x.significand x.exponent
        positional digits place
    if x.negative then "-" ++ unsigned else unsigned

end Binary64
end CodeImage
