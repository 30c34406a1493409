import CodeImage.Json

namespace CodeImage
namespace JsonReader

def digitValue (c : Char) : Nat := c.toNat - '0'.toNat

def startsWithDigit : List Char → Bool
  | c :: _ => c.isDigit
  | [] => false

-- The digits of a float count for as long as they make an integer of 64 bits. That integer is rounded to a float and
-- then scaled by a power of ten that is rounded too.
def takeDigits (significand count : Nat) : List Char → Nat × Nat × List Char
  | [] => (significand, count, [])
  | c :: rest =>
    if c.isDigit ∧ significand * 10 + digitValue c < 0x10000000000000000 then
      takeDigits (significand * 10 + digitValue c) (count + 1) rest
    else (significand, count, c :: rest)

def skipDigits (count : Nat) : List Char → Nat × List Char
  | [] => (count, [])
  | c :: rest => if c.isDigit then skipDigits (count + 1) rest else (count, c :: rest)

def powerOfTen (n : Nat) : Binary64 := Binary64.signed false (Binary64.roundRatio (Nat.pow 10 n) 1)

def scaleDown (x : Binary64) (n : Nat) : Binary64 :=
  if n ≤ 308 then Binary64.signed false (x.divMagnitude (powerOfTen n))
  else if x.isZero then x
  else scaleDown (Binary64.signed false (x.divMagnitude (powerOfTen 308))) (n - 308)
termination_by n

def scaled (negative : Bool) (significand : Nat) (exponent : Int) (rest : List Char) :
    Except JsonFault (Operand × List Char) :=
  let whole := Binary64.signed false (Binary64.roundRatio significand 1)
  if exponent < 0 then .ok (.float (.signed negative (scaleDown whole (-exponent).toNat).magnitude), rest)
  else if whole.isZero then .ok (.float (.signed negative 0), rest)
  else if 308 < exponent then fail .numberRange rest
  else
    let product := whole.mulMagnitude (powerOfTen exponent.toNat)
    if product = Binary64.infinity then fail .numberRange rest else .ok (.float (.signed negative product), rest)

def exponent (negative : Bool) (significand : Nat) (before : Int) (text : List Char) :
    Except JsonFault (Operand × List Char) :=
  let (down, text) := match text with
    | '+' :: rest => (false, rest)
    | '-' :: rest => (true, rest)
    | text => (false, text)
  match text with
  | [] => fail .endInValue []
  | c :: rest =>
    if c.isDigit then
      let value := ((c :: rest).takeWhile Char.isDigit).foldl (fun n d => n * 10 + digitValue d) 0
      scaled negative significand (if down then before - value else before + value) (rest.dropWhile Char.isDigit)
    else fail .invalidNumber rest

def floatEnd (negative : Bool) (significand : Nat) (place : Int) (text : List Char) :
    Except JsonFault (Operand × List Char) :=
  match text with
  | 'e' :: rest | 'E' :: rest => exponent negative significand place rest
  | text => scaled negative significand place text

def fraction (negative : Bool) (significand : Nat) (before : Int) (text : List Char) :
    Except JsonFault (Operand × List Char) :=
  let (significand, count, rest) := takeDigits significand 0 text
  if startsWithDigit rest then floatEnd negative significand (before - count) (skipDigits 0 rest).2
  else if count = 0 then failNext (if rest.isEmpty then .endInValue else .invalidNumber) rest
  else floatEnd negative significand (before - count) rest

-- Reads what follows the integer part of a number that is `place` digits longer than its significand.
def afterInteger (negative : Bool) (significand place : Nat) (text : List Char) :
    Except JsonFault (Operand × List Char) :=
  match text with
  | '.' :: rest => fraction negative significand place rest
  | 'e' :: rest | 'E' :: rest => exponent negative significand place rest
  | text =>
    if 0 < place then scaled negative significand place text
    else
      let value : Int := if negative then -significand else significand
      if (negative ∧ significand = 0) ∨ value < -0x8000000000000000 ∨ 0x8000000000000000 ≤ value then
        .ok (.float (.signed negative (Binary64.roundRatio significand 1)), text)
      else .ok (.int value, text)

def number (negative : Bool) (text : List Char) : Except JsonFault (Operand × List Char) :=
  match text with
  | [] => fail .endInValue []
  | '0' :: rest => if startsWithDigit rest then failNext .invalidNumber rest else afterInteger negative 0 0 rest
  | c :: rest =>
    if c.isDigit then
      let (significand, _, rest) := takeDigits (digitValue c) 1 rest
      let (place, rest) := skipDigits 0 rest
      afterInteger negative significand place rest
    else fail .invalidNumber rest

end JsonReader
end CodeImage
