import CodeImage.Records

namespace CodeImage

structure OffsetTable where
  storage : ByteArray := ByteArray.empty
  entries : Array Extent := #[]
deriving DecidableEq, Inhabited

namespace OffsetTable

def build (what : String) (storage : ByteArray) (entries : Array Extent) : Except ImageError OffsetTable :=
  match entries.findIdx? fun e => decide (storage.size < e.offset.toNat + e.length.toNat) with
  | some id => .error (.invalidLayout (.entryStorage what id))
  | none => .ok ⟨storage, entries⟩

def size (table : OffsetTable) : Nat := table.entries.size

def get? (table : OffsetTable) (id : UInt32) : Option ByteArray :=
  table.entries[id.toNat]?.bind fun e => slice? table.storage e.offset.toNat e.length.toNat

def push (table : OffsetTable) (data : ByteArray) : OffsetTable × UInt32 :=
  (⟨table.storage ++ data, table.entries.push ⟨table.storage.size.toUInt32, data.size.toUInt32⟩⟩,
    table.entries.size.toUInt32)

end OffsetTable

namespace BigEndian

def toNat (data : ByteArray) : Nat := data.foldl (fun n b => n * 256 + b.toNat) 0

def digits (n : Nat) (rest : List UInt8) : List UInt8 :=
  if n < 256 then n.toUInt8 :: rest else digits (n / 256) ((n % 256).toUInt8 :: rest)

def ofNat (n : Nat) : ByteArray := (digits n []).toByteArray

end BigEndian

structure BigIntTable where
  table : OffsetTable := {}
  known : Array (Option Nat) := #[]
deriving DecidableEq, Inhabited

namespace BigIntTable

def ofTable (table : OffsetTable) : BigIntTable := ⟨table, Array.replicate table.size none⟩

def size (constants : BigIntTable) : Nat := constants.table.size

def get (constants : BigIntTable) (id : UInt32) : BigIntTable × Option Nat :=
  match constants.known[id.toNat]?, constants.table.get? id with
  | some (some value), some _ => (constants, some value)
  | some none, some data =>
    let value := BigEndian.toNat data
    ({ constants with known := constants.known.setIfInBounds id.toNat (some value) }, some value)
  | _, _ => (constants, none)

def push (constants : BigIntTable) (value : Nat) : BigIntTable × UInt32 :=
  let (table, id) := constants.table.push (BigEndian.ofNat value)
  (⟨table, constants.known.push (some value)⟩, id)

end BigIntTable
end CodeImage
