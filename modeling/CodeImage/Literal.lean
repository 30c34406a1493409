import CodeImage.Error

namespace CodeImage

inductive Literal where
  | null
  | bool (value : Bool)
  | number (value : Binary64)
  | string (id : UInt32)
  | integer (value : UInt32)
deriving DecidableEq, Inhabited, Repr

inductive LiteralForm where
  | null | yes | no | number | longString | shortString | byteString | integer
deriving DecidableEq, Inhabited, Repr

namespace LiteralForm

def all : List LiteralForm := [.null, .yes, .no, .number, .longString, .shortString, .byteString, .integer]

def code : LiteralForm → Nat
  | .null => 0
  | .yes => 1
  | .no => 2
  | .number => 3
  | .longString => 4
  | .shortString => 5
  | .byteString => 6
  | .integer => 7

def ofCode (code : Nat) : LiteralForm := all.getD (code % 8) .integer

def valueSize : LiteralForm → Nat
  | .null | .yes | .no => 0
  | .number => 8
  | .longString | .integer => 4
  | .shortString => 2
  | .byteString => 1

def ofLiteral : Literal → LiteralForm
  | .null => .null
  | .bool true => .yes
  | .bool false => .no
  | .number _ => .number
  | .string id => if id.toNat < 0x100 then .byteString else if id.toNat < 0x10000 then .shortString else .longString
  | .integer _ => .integer

def value (raw : Nat) : LiteralForm → Literal
  | .null => .null
  | .yes => .bool true
  | .no => .bool false
  | .number => .number ⟨raw.toUInt64⟩
  | .longString | .shortString | .byteString => .string raw.toUInt32
  | .integer => .integer raw.toUInt32

end LiteralForm

namespace Literal

def maxRun : Nat := 0xfff

def raw : Literal → Nat
  | .null | .bool _ => 0
  | .number x => x.bits.toNat
  | .string id => id.toNat
  | .integer n => n.toNat

def readValues (buffer : ByteArray) (form : LiteralForm) : (n pos : Nat) → List Literal →
    Except ImageError (List Literal × Nat)
  | 0, pos, before => .ok (before, pos)
  | n + 1, pos, before =>
    let size := form.valueSize
    if pos + size ≤ buffer.size then
      readValues buffer form n (pos + size) (form.value (natAt buffer pos size) :: before)
    else .error (.unexpectedEnd pos size buffer.size)

-- A run starts with a byte 0tttllll of form and length, or with two bytes 1tttllll llllllll when it is longer than 15.
def readTag (buffer : ByteArray) (pos : Nat) : Except ImageError (LiteralForm × Nat × Nat) :=
  if pos < buffer.size then
    let first := (byteAt buffer pos).toNat
    let form := LiteralForm.ofCode (first / 16)
    if first < 0x80 then .ok (form, first % 16, pos + 1)
    else if pos + 1 < buffer.size then
      .ok (form, first % 16 * 256 + (byteAt buffer (pos + 1)).toNat, pos + 2)
    else .error (.unexpectedEnd (pos + 1) 1 buffer.size)
  else .error (.unexpectedEnd pos 1 buffer.size)

-- Runs from `pos` on until `left` more values are read; `before` holds those already read, last first.
def readRuns (buffer : ByteArray) (pos left : Nat) (before : List Literal) : Except ImageError (List Literal) :=
  if left = 0 then .ok before.reverse
  else
    match readTag buffer pos with
    | .error e => .error e
    | .ok (form, length, start) =>
      if length = 0 then .error (.invalidLiteral form.code pos)
      else
        match readValues buffer form (min length left) start before with
        | .error e => .error e
        | .ok (before, pos) => readRuns buffer pos (left - min length left) before
termination_by left

-- The `count` values from `offset` on. The last run may be longer than what is asked for.
def parse (buffer : ByteArray) (offset count : Nat) : Except ImageError (List Literal) :=
  readRuns buffer offset count []

def pushTag (out : ByteArray) (form : LiteralForm) (length : Nat) : ByteArray :=
  if 0x0f < length then
    (out.push (0x80 + form.code * 16 + length / 256).toUInt8).push length.toUInt8
  else out.push (form.code * 16 + length).toUInt8

def runLength (form : LiteralForm) (literals : List Literal) : Nat :=
  ((literals.take maxRun).takeWhile fun l => LiteralForm.ofLiteral l == form).length

def encodeOnto (out : ByteArray) (literals : List Literal) : ByteArray :=
  match literals with
  | [] => out
  | first :: rest =>
    let form := LiteralForm.ofLiteral first
    let run := runLength form (first :: rest)
    let out := ((first :: rest).take run).foldl (fun out l => pushNat out form.valueSize l.raw) (pushTag out form run)
    encodeOnto out (rest.drop (run - 1))
termination_by literals.length
decreasing_by simp only [List.length_drop, List.length_cons]; omega

def encode (literals : List Literal) : ByteArray := encodeOnto ByteArray.empty literals

end Literal
end CodeImage
