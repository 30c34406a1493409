import CodeImage.Bytes

namespace CodeImage.Text

def replacement : Char := Char.ofNat 0xFFFD

def continues (data : ByteArray) (pos : Nat) (low high : Nat) : Bool :=
  let b := (byteAt data pos).toNat
  decide (pos < data.size) && decide (low ≤ b) && decide (b ≤ high)

def tail (data : ByteArray) (pos : Nat) : Nat := (byteAt data pos).toNat % 64

-- Reading never fails. The replacement character stands for every longest start of a character that is cut short.
def utf8At (data : ByteArray) (pos : Nat) : Char × Nat :=
  let b := (byteAt data pos).toNat
  if b < 0x80 then (Char.ofNat b, 1)
  else if 0xC2 ≤ b ∧ b < 0xE0 then
    if continues data (pos + 1) 0x80 0xBF then (Char.ofNat (b % 32 * 64 + tail data (pos + 1)), 2)
    else (replacement, 1)
  else if 0xE0 ≤ b ∧ b < 0xF0 then
    let low := if b = 0xE0 then 0xA0 else 0x80
    let high := if b = 0xED then 0x9F else 0xBF
    if !continues data (pos + 1) low high then (replacement, 1)
    else if !continues data (pos + 2) 0x80 0xBF then (replacement, 2)
    else (Char.ofNat ((b % 16 * 64 + tail data (pos + 1)) * 64 + tail data (pos + 2)), 3)
  else if 0xF0 ≤ b ∧ b < 0xF5 then
    let low := if b = 0xF0 then 0x90 else 0x80
    let high := if b = 0xF4 then 0x8F else 0xBF
    if !continues data (pos + 1) low high then (replacement, 1)
    else if !continues data (pos + 2) 0x80 0xBF then (replacement, 2)
    else if !continues data (pos + 3) 0x80 0xBF then (replacement, 3)
    else
      (Char.ofNat (((b % 8 * 64 + tail data (pos + 1)) * 64 + tail data (pos + 2)) * 64 + tail data (pos + 3)), 4)
  else (replacement, 1)

def utf8From (data : ByteArray) (pos : Nat) (text : String) : String :=
  if pos < data.size then
    let (c, size) := utf8At data pos
    utf8From data (pos + max 1 size) (text.push c)
  else text
termination_by data.size - pos

def ofUtf8 (data : ByteArray) : String := utf8From data 0 ""

def unitAt (data : ByteArray) (pos : Nat) : Nat := natAt data pos 2

-- Here it stands for every unpaired surrogate.
def utf16At (data : ByteArray) (pos : Nat) : Char × Nat :=
  let unit := unitAt data pos
  let next := unitAt data (pos + 2)
  if unit < 0xD800 ∨ 0xE000 ≤ unit then (Char.ofNat unit, 2)
  else if unit < 0xDC00 ∧ pos + 4 ≤ data.size ∧ 0xDC00 ≤ next ∧ next < 0xE000 then
    (Char.ofNat (0x10000 + (unit - 0xD800) * 0x400 + (next - 0xDC00)), 4)
  else (replacement, 2)

def utf16From (data : ByteArray) (pos : Nat) (text : String) : String :=
  if pos + 1 < data.size then
    let (c, size) := utf16At data pos
    utf16From data (pos + max 2 size) (text.push c)
  else text
termination_by data.size - pos

-- The text of little-endian UTF-16 units; a last odd byte is left out.
def ofUtf16 (data : ByteArray) : String := utf16From data 0 ""

def pushUtf16 (out : ByteArray) (c : Char) : ByteArray :=
  if c.toNat < 0x10000 then pushNat out 2 c.toNat
  else
    let rest := c.toNat - 0x10000
    pushNat (pushNat out 2 (0xD800 + rest / 0x400)) 2 (0xDC00 + rest % 0x400)

def toUtf16 (text : String) : ByteArray := text.foldl pushUtf16 ByteArray.empty

def isAscii (text : String) : Bool := text.toUTF8.foldl (fun ok b => ok && decide (b < 0x80)) true

end CodeImage.Text
