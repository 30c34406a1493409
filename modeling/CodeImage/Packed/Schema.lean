import CodeImage.Packed.Layout
import CodeImage.Error

namespace CodeImage

-- A kind of bit-packed record. `toWords` lists the field values in the order of the layout.
structure Schema (α : Type) where
  layout : Layout
  toWords : α → List UInt32
  ofWords : List UInt32 → α

inductive WriteFault where
  | addressOverflow
  | recordTooSmall
  | refused (error : ImageError)
deriving DecidableEq, Inhabited

namespace Schema

variable {α : Type}

def size (schema : Schema α) : Nat := schema.layout.byteSize

def decode (schema : Schema α) (data : ByteArray) (pos : Nat) : α :=
  schema.ofWords (schema.layout.decode data pos)

def encode (schema : Schema α) (record : α) : ByteArray :=
  schema.layout.encode (zeros schema.size) 0 (schema.toWords record)

def parse (schema : Schema α) (data : ByteArray) : Except ImageError α :=
  if schema.size ≤ data.size then .ok (schema.decode data 0)
  else .error (.unexpectedEnd 0 schema.size data.size)

def parseMany (schema : Schema α) (data : ByteArray) : Except ImageError (Array α) :=
  if data.size % schema.size = 0 then
    .ok (Array.ofFn fun i : Fin (data.size / schema.size) => schema.decode data (i.val * schema.size))
  else .error (.invalidLayout (.recordSize data.size schema.size))

def put? (schema : Schema α) (out : ByteArray) (pos : Nat) : List α → Option ByteArray
  | [] => some out
  | record :: rest => do
    let chunk ← slice? out pos schema.size
    let written := schema.layout.writeAll chunk (schema.toWords record)
    guard written.2
    let out ← copyAt? out pos written.1
    schema.put? out (pos + schema.size) rest

def writeMany (schema : Schema α) (data : ByteArray) (offset : Nat) (records : List α) :
    Except WriteFault ByteArray :=
  let len := records.length * schema.size
  if addressLimit ≤ offset + len then .error .addressOverflow
  else if offset + len ≤ data.size then
    -- There are no chunks of no bytes, not even for an empty list.
    if schema.size = 0 then .error .recordTooSmall
    else
      match schema.put? data offset records with
      | some out => .ok out
      | none => .error .recordTooSmall
  else .error (.refused (.unexpectedEnd offset len data.size))

def write (schema : Schema α) (data : ByteArray) (offset : Nat) (record : α) : Except WriteFault ByteArray :=
  schema.writeMany data offset [record]

def encodeMany (schema : Schema α) (records : Array α) : ByteArray :=
  records.foldl (fun out record => out ++ schema.encode record) ByteArray.empty

end Schema
end CodeImage
