import CodeImage.Bytes

namespace CodeImage

-- Fields follow each other from the lowest bit on, in little-endian words of 32 bits, and none crosses from one word
-- into the next.
structure Field where
  name : String
  bits : Nat
  offset : Nat
deriving DecidableEq, Inhabited, Repr

namespace Field

def mask (field : Field) : Nat := Nat.pow 2 field.bits - 1

def shift (field : Field) : Nat := field.offset % 32

def wordPos (field : Field) : Nat := field.offset / 32 * 4

def get (field : Field) (word : Nat) : Nat := word / Nat.pow 2 field.shift % Nat.pow 2 field.bits

def put (field : Field) (word value : Nat) : Nat :=
  let low := Nat.pow 2 field.shift
  let high := Nat.pow 2 (field.shift + field.bits)
  word % low + value % Nat.pow 2 field.bits * low + word / high * high

def fits (field : Field) (value : UInt32) : Bool := decide (value.toNat ≤ field.mask)

def read (field : Field) (data : ByteArray) (pos : Nat) : UInt32 :=
  (field.get (natAt data (pos + field.wordPos) 4)).toUInt32

def write (field : Field) (data : ByteArray) (pos : Nat) (value : UInt32) : ByteArray :=
  let start := pos + field.wordPos
  setNat data start 4 (field.put (natAt data start 4) value.toNat)

end Field

inductive PackingFault where
  | tooWide
  | straddles
deriving DecidableEq, Repr

def PackingFault.message : PackingFault → String
  | .tooWide => "bit-packed field is wider than 32 bits"
  | .straddles => "bit-packed field straddles a 32-bit word"

structure Layout where
  fields : List Field
deriving DecidableEq, Inhabited, Repr

namespace Layout

def place : (offset : Nat) → List (String × Nat) → List Field
  | _, [] => []
  | offset, (name, bits) :: rest => ⟨name, bits, offset⟩ :: place (offset + bits) rest

def firstFault : (offset : Nat) → List (String × Nat) → Option PackingFault
  | _, [] => none
  | offset, (_, bits) :: rest =>
    if 32 < bits then some .tooWide
    else if 0 < bits ∧ 32 < offset % 32 + bits then some .straddles
    else firstFault (offset + bits) rest

def ofWidths (widths : List (String × Nat)) : Layout := ⟨place 0 widths⟩

def build (widths : List (String × Nat)) : Except PackingFault Layout :=
  match firstFault 0 widths with
  | some fault => .error fault
  | none => .ok (ofWidths widths)

def bitSize (layout : Layout) : Nat := total (layout.fields.map (·.bits))

def byteSize (layout : Layout) : Nat := align4 ((layout.bitSize + 7) / 8)

def indexOf? (layout : Layout) (name : String) : Option Nat := layout.fields.findIdx? (·.name == name)

def fits? (layout : Layout) (index : Nat) (value : UInt32) : Option Bool :=
  layout.fields[index]?.map (·.fits value)

def read? (layout : Layout) (data : ByteArray) (index : Nat) : Option UInt32 :=
  match layout.fields[index]? with
  | some field => if field.wordPos + 4 ≤ data.size then some (field.read data 0) else none
  | none => none

def write? (layout : Layout) (data : ByteArray) (index : Nat) (value : UInt32) : Option ByteArray :=
  match layout.fields[index]? with
  | some field => if field.wordPos + 4 ≤ data.size then some (field.write data 0 value) else none
  | none => none

def readAll? (layout : Layout) (data : ByteArray) : Option (List UInt32) :=
  (List.range layout.fields.length).mapM (layout.read? data)

-- Writes values field by field; it stops at the first field that cannot be written and says so.
def writeAll (layout : Layout) (data : ByteArray) (values : List UInt32) : ByteArray × Bool :=
  values.zipIdx.foldl (fun (data, going) (value, index) =>
    if going then
      match layout.write? data index value with
      | some data => (data, true)
      | none => (data, false)
    else (data, false)) (data, true)

def decode (layout : Layout) (data : ByteArray) (pos : Nat) : List UInt32 :=
  layout.fields.map (·.read data pos)

-- Replaces the fields of the record that starts at `pos`; bits outside the fields stay.
def encode (layout : Layout) (data : ByteArray) (pos : Nat) (values : List UInt32) : ByteArray :=
  (layout.fields.zip values).foldl (fun data (field, value) => field.write data pos value) data

end Layout
end CodeImage
