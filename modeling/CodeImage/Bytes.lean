namespace CodeImage

def align4 (n : Nat) : Nat := (n + 3) / 4 * 4

-- One past the largest address: addresses are numbers of 64 bits.
def addressLimit : Nat := 0x10000000000000000

def address? (n : Nat) : Option Nat := if n < addressLimit then some n else none

def alignedAddress? (n : Nat) : Option Nat := (address? (n + 3)).map fun _ => align4 n

instance decEqBytes : DecidableEq ByteArray := ByteArray.instDecidableEq

def total (sizes : List Nat) : Nat := sizes.foldr (· + ·) 0

def byteAt (data : ByteArray) (pos : Nat) : UInt8 :=
  if h : pos < data.size then data[pos] else 0

def natAt (data : ByteArray) (pos : Nat) : (width : Nat) → Nat
  | 0 => 0
  | width + 1 => (byteAt data pos).toNat + 256 * natAt data (pos + 1) width

def wordAt (data : ByteArray) (pos : Nat) : UInt32 := (natAt data pos 4).toUInt32

def pushNat (out : ByteArray) : (width : Nat) → (value : Nat) → ByteArray
  | 0, _ => out
  | width + 1, value => pushNat (out.push value.toUInt8) width (value / 256)

def pushWord (out : ByteArray) (value : UInt32) : ByteArray := pushNat out 4 value.toNat

def wordBytes (words : List UInt32) : ByteArray := words.foldl pushWord ByteArray.empty

def setNat (data : ByteArray) (pos : Nat) : (width : Nat) → (value : Nat) → ByteArray
  | 0, _ => data
  | width + 1, value =>
    setNat (if h : pos < data.size then data.set pos value.toUInt8 else data) (pos + 1) width (value / 256)

def slice? (data : ByteArray) (start len : Nat) : Option ByteArray :=
  if start + len ≤ data.size then some (data.extract start (start + len)) else none

def copyAt? (data : ByteArray) (pos : Nat) (part : ByteArray) : Option ByteArray :=
  if pos + part.size ≤ data.size then
    some (data.extract 0 pos ++ part ++ data.extract (pos + part.size) data.size)
  else none

def zeros (n : Nat) : ByteArray := ⟨Array.replicate n 0⟩

@[simp]
theorem size_zeros (n : Nat) : (zeros n).size = n := Array.size_replicate

def padded (data : ByteArray) : ByteArray := data ++ zeros (align4 data.size - data.size)

def paddedTo (data : ByteArray) (size : Nat) : ByteArray := data ++ zeros (size - data.size)

def firstDifference (a b : ByteArray) : Nat :=
  go 0
where
  go (pos : Nat) : Nat :=
    if h : pos < min a.size b.size then
      if byteAt a pos = byteAt b pos then go (pos + 1) else pos
    else pos
  termination_by min a.size b.size - pos

def hexDigit (n : Nat) : Char := Char.ofNat (if n < 10 then 48 + n else 87 + n)

def hex (data : ByteArray) : String :=
  data.foldl (fun text b => (text.push (hexDigit (b.toNat / 16))).push (hexDigit (b.toNat % 16))) ""

def hexValue? (c : Char) : Option Nat :=
  if c.isDigit then some (c.toNat - '0'.toNat)
  else if 'a' ≤ c ∧ c ≤ 'f' then some (c.toNat - 'a'.toNat + 10)
  else if 'A' ≤ c ∧ c ≤ 'F' then some (c.toNat - 'A'.toNat + 10)
  else none

def ofHex? (text : String) : Option ByteArray :=
  go ByteArray.empty text.toList
where
  go (out : ByteArray) : List Char → Option ByteArray
    | [] => some out
    | [_] => none
    | high :: low :: rest =>
      match hexValue? high, hexValue? low with
      | some high, some low => go (out.push (16 * high + low).toUInt8) rest
      | _, _ => none

def hexNat (n width : Nat) : String :=
  let digits := Nat.toDigits 16 n
  String.ofList (List.replicate (width - digits.length) '0' ++ digits)

end CodeImage
