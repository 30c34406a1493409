import CodeImage.Binary64
import CodeImage.Toml

namespace CodeImage
namespace TomlScalar

def digits? (base : Nat) (chars : List Char) : Option Nat :=
  go chars none
where
  value? (c : Char) : Option Nat :=
    let n := if c.isDigit then c.toNat - '0'.toNat
      else if 'a' ≤ c ∧ c ≤ 'f' then c.toNat - 'a'.toNat + 10
      else if 'A' ≤ c ∧ c ≤ 'F' then c.toNat - 'A'.toNat + 10
      else base
    if n < base then some n else none
  -- `before` is the number read so far, if the last character was a digit.
  go : List Char → Option Nat → Option Nat
    | [], before => before
    | '_' :: c :: rest, some before => (value? c).bind fun n => go rest (some (before * base + n))
    | c :: rest, before => (value? c).bind fun n => go rest (some (before.getD 0 * base + n))

def decimal? (chars : List Char) : Option Nat :=
  match chars with
  | '0' :: _ :: _ => none
  | chars => digits? 10 chars

def unsigned (chars : List Char) : Bool × List Char :=
  match chars with
  | '-' :: rest => (true, rest)
  | '+' :: rest => (false, rest)
  | chars => (false, chars)

def isInteger (chars : List Char) : Bool :=
  match chars with
  | '0' :: 'x' :: rest => (digits? 16 rest).any (· < 0x8000000000000000)
  | '0' :: 'o' :: rest => (digits? 8 rest).any (· < 0x8000000000000000)
  | '0' :: 'b' :: rest => (digits? 2 rest).any (· < 0x8000000000000000)
  | chars =>
    let (negative, rest) := unsigned chars
    (decimal? rest).any fun n => n < 0x8000000000000000 || (negative && n == 0x8000000000000000)

def splitAt (stop : Char → Bool) (chars : List Char) : List Char × List Char :=
  (chars.takeWhile fun c => !stop c, chars.dropWhile fun c => !stop c)

def exponent? (chars : List Char) : Option Int :=
  let (negative, rest) := unsigned chars
  (digits? 10 rest).map fun n => if negative then -(n : Int) else n

def scientific? (chars : List Char) : Option (Nat × Int) := do
  let (whole, rest) := splitAt (fun c => c == '.' || c == 'e' || c == 'E') chars
  let front ← decimal? whole
  match rest with
  | [] => none
  | '.' :: rest =>
    let (fraction, rest) := splitAt (fun c => c == 'e' || c == 'E') rest
    let places := fraction.countP Char.isDigit
    let back ← digits? 10 fraction
    let exponent ← if rest.isEmpty then some 0 else exponent? rest.tail
    return (front * Nat.pow 10 places + back, exponent - places)
  | _ :: rest => return (front, ← exponent? rest)

-- Whether a text is a float. One that is too large has to be negative, or be written as an infinity.
def isFloat (chars : List Char) : Bool :=
  let (negative, rest) := unsigned chars
  if rest = ['i', 'n', 'f'] ∨ rest = ['n', 'a', 'n'] then true
  else (scientific? rest).any fun (digits, place) => negative || !Binary64.exceedsRange digits place

def fixed? (count : Nat) (chars : List Char) : Option (Nat × List Char) :=
  let front := chars.take count
  if front.length = count ∧ front.all Char.isDigit then
    some (front.foldl (fun n c => n * 10 + (c.toNat - '0'.toNat)) 0, chars.drop count)
  else none

def daysIn (year month : Nat) : Nat :=
  if month = 2 then (if year % 4 = 0 ∧ (year % 100 ≠ 0 ∨ year % 400 = 0) then 29 else 28)
  else if month = 4 ∨ month = 6 ∨ month = 9 ∨ month = 11 then 30
  else 31

def afterDate? (chars : List Char) : Option (List Char) := do
  let (year, rest) ← fixed? 4 chars
  let '-' :: rest := rest | none
  let (month, rest) ← fixed? 2 rest
  let '-' :: rest := rest | none
  let (day, rest) ← fixed? 2 rest
  if 1 ≤ month ∧ month ≤ 12 ∧ 1 ≤ day ∧ day ≤ daysIn year month then return rest else none

def afterMinutes? (chars : List Char) : Option (List Char) := do
  let (hour, rest) ← fixed? 2 chars
  let ':' :: rest := rest | none
  let (minute, rest) ← fixed? 2 rest
  if hour ≤ 23 ∧ minute ≤ 59 then return rest else none

def afterTime? (chars : List Char) : Option (List Char) := do
  let rest ← afterMinutes? chars
  let ':' :: rest := rest | none
  let (second, rest) ← fixed? 2 rest
  if 60 < second then none
  match rest with
  | '.' :: fraction =>
    let rest := fraction.dropWhile Char.isDigit
    if rest.length = fraction.length then none else return rest
  | rest => return rest

def isOffset (chars : List Char) : Bool :=
  match chars with
  | [] | ['Z'] | ['z'] => true
  | '+' :: rest | '-' :: rest => afterMinutes? rest == some []
  | _ => false

def isTime (chars : List Char) : Bool :=
  match afterDate? chars with
  | none => afterTime? chars == some []
  | some [] => true
  | some (c :: rest) => (c == 'T' || c == 't' || c == ' ') && (afterTime? rest).any isOffset

def value? (chars : List Char) : Option TomlValue :=
  if chars = ['t', 'r', 'u', 'e'] then some (.bool true)
  else if chars = ['f', 'a', 'l', 's', 'e'] then some (.bool false)
  else if isInteger chars || isFloat chars then some .number
  else if isTime chars then some .time
  else none

end TomlScalar
end CodeImage
