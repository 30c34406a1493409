import CodeImage.Records
import CodeImage.Text.Encoding

namespace CodeImage

inductive StringKind where
  | string | identifier
deriving DecidableEq, Inhabited, Repr

namespace StringKind

def ofBit (bit : UInt32) : StringKind := if bit = 0 then .string else .identifier

def toBit : StringKind → UInt32
  | .string => 0
  | .identifier => 1

def name : StringKind → String
  | .string => "String"
  | .identifier => "Identifier"

end StringKind

-- Where a string lies in storage; `length` counts characters.
structure StringEntry where
  isUtf16 : Bool
  offset : UInt32
  length : UInt32
deriving DecidableEq, Inhabited, Repr

def StringEntry.byteLength (entry : StringEntry) : Nat :=
  if entry.isUtf16 then entry.length.toNat * 2 else entry.length.toNat

-- Entries and kinds are lists of their own, one of each for every string.
structure StringTable where
  storage : ByteArray := ByteArray.empty
  entries : Array StringEntry := #[]
  kinds : Array StringKind := #[]
deriving DecidableEq, Inhabited

namespace StringTable

def resolve (overflow : Array Extent) (id : Nat) (slot : StringSlot) : Except ImageError Extent :=
  if slot.length = overflowLength then
    match overflow[slot.offset.toNat]? with
    | some extent => .ok extent
    | none => .error (.invalidLayout (.overflowEntry id slot.offset.toNat))
  else .ok ⟨slot.offset, slot.length⟩

def resolveAll (slots : Array StringSlot) (overflow : Array Extent) : Except ImageError (List Extent) :=
  slots.toList.zipIdx.mapM fun (slot, id) => resolve overflow id slot

def covered (runs : Array KindRun) : Nat := total (runs.toList.map (·.count.toNat))

def kindsOf (runs : Array KindRun) : List StringKind :=
  runs.toList.flatMap fun run => List.replicate run.count.toNat (.ofBit run.kind)

def inStorage (storage : ByteArray) (entry : StringEntry) : Bool :=
  decide (entry.offset.toNat + entry.byteLength ≤ storage.size)

def ofRecords (storage : ByteArray) (slots : Array StringSlot) (overflow : Array Extent)
    (runs : Array KindRun) : Except ImageError StringTable :=
  match resolveAll slots overflow with
  | .error e => .error e
  | .ok extents =>
    if covered runs ≠ slots.size then .error (.invalidLayout (.kindCount (covered runs) slots.size))
    else
      let entries := (slots.toList.zip extents).map fun (slot, extent) =>
        (⟨slot.isUtf16 != 0, extent.offset, extent.length⟩ : StringEntry)
      match entries.findIdx? fun entry => !inStorage storage entry with
      | some id => .error (.invalidLayout (.stringStorage id))
      | none => .ok ⟨storage, entries.toArray, (kindsOf runs).toArray⟩

def size (table : StringTable) : Nat := table.entries.size

def entry? (table : StringTable) (id : UInt32) : Option StringEntry := table.entries[id.toNat]?

def kind? (table : StringTable) (id : UInt32) : Option StringKind := table.kinds[id.toNat]?

def bytes? (table : StringTable) (id : UInt32) : Option ByteArray :=
  (table.entry? id).bind fun entry => slice? table.storage entry.offset.toNat entry.byteLength

def get? (table : StringTable) (id : UInt32) : Option String :=
  (table.entry? id).bind fun entry =>
    (slice? table.storage entry.offset.toNat entry.byteLength).map fun data =>
      if entry.isUtf16 then Text.ofUtf16 data else Text.ofUtf8 data

def get (table : StringTable) (id : UInt32) : Except ImageError String :=
  match table.get? id with
  | some text => .ok text
  | none => .error (.stringIndex id)

def texts (table : StringTable) : List (UInt32 × String) :=
  (List.range table.size).filterMap fun id => (table.get? id.toUInt32).map fun text => (id.toUInt32, text)

-- Text of ASCII characters is stored a byte each, other text in UTF-16 units.
def push (table : StringTable) (text : String) (kind : StringKind) : StringTable × UInt32 :=
  let isUtf16 := !Text.isAscii text
  let data := if isUtf16 then Text.toUtf16 text else text.toUTF8
  let length := if isUtf16 then data.size / 2 else data.size
  let entry : StringEntry := ⟨isUtf16, table.storage.size.toUInt32, length.toUInt32⟩
  let id := table.entries.size.toUInt32
  (⟨table.storage ++ data, table.entries.push entry, table.kinds.push kind⟩, id)

def consRun (kind : StringKind) : List KindRun → List KindRun
  | [] => [⟨1, kind.toBit⟩]
  | run :: runs => if run.kind = kind.toBit then ⟨run.count + 1, run.kind⟩ :: runs else ⟨1, kind.toBit⟩ :: run :: runs

def kindRuns (table : StringTable) : Array KindRun := (table.kinds.foldr consRun []).toArray

def isNarrow (entry : StringEntry) : Bool :=
  decide (entry.offset.toNat < 0x800000) && decide (entry.length < overflowLength)

def encode (table : StringTable) : Array StringSlot × Array Extent :=
  table.entries.foldl (fun (slots, overflow) entry =>
    let isUtf16 := if entry.isUtf16 then 1 else 0
    if isNarrow entry then (slots.push ⟨isUtf16, entry.offset, entry.length⟩, overflow)
    else (slots.push ⟨isUtf16, overflow.size.toUInt32, overflowLength⟩, overflow.push ⟨entry.offset, entry.length⟩))
    (#[], #[])

end StringTable

-- The bytes of strings that were added lie in a buffer of their own behind the storage that was read.
structure StringPool where
  base : ByteArray := ByteArray.empty
  appended : ByteArray := ByteArray.empty
  entries : Array StringEntry := #[]
  kinds : Array StringKind := #[]
  known : Array (Option String) := #[]
deriving DecidableEq, Inhabited

namespace StringPool

def ofTable (table : StringTable) : StringPool :=
  ⟨table.storage, ByteArray.empty, table.entries, table.kinds, Array.replicate table.size none⟩

def ofRecords (storage : ByteArray) (slots : Array StringSlot) (overflow : Array Extent)
    (runs : Array KindRun) : Except ImageError StringPool :=
  (StringTable.ofRecords storage slots overflow runs).map ofTable

def size (pool : StringPool) : Nat := pool.entries.size

def storage (pool : StringPool) : ByteArray := pool.base ++ pool.appended

def table (pool : StringPool) : StringTable := ⟨pool.storage, pool.entries, pool.kinds⟩

def entry? (pool : StringPool) (id : UInt32) : Option StringEntry := pool.entries[id.toNat]?

def kind? (pool : StringPool) (id : UInt32) : Option StringKind := pool.kinds[id.toNat]?

-- The stored bytes of a string. They lie in the buffer in which it starts.
def bytes? (pool : StringPool) (id : UInt32) : Option ByteArray :=
  (pool.entry? id).bind fun entry =>
    let start := entry.offset.toNat
    if pool.base.size ≤ start then slice? pool.appended (start - pool.base.size) entry.byteLength
    else slice? pool.base start entry.byteLength

def get (pool : StringPool) (id : UInt32) : StringPool × Option String :=
  match pool.known[id.toNat]? with
  | none => (pool, none)
  | some (some text) => (pool, some text)
  | some none =>
    match pool.entry? id, pool.bytes? id with
    | some entry, some data =>
      let text := if entry.isUtf16 then Text.ofUtf16 data else Text.ofUtf8 data
      ({ pool with known := pool.known.setIfInBounds id.toNat (some text) }, some text)
    | _, _ => (pool, none)

def text (pool : StringPool) (id : UInt32) : StringPool × Except ImageError String :=
  match pool.get id with
  | (pool, some text) => (pool, .ok text)
  | (pool, none) => (pool, .error (.stringIndex id))

def texts (pool : StringPool) : StringPool × Array (UInt32 × String) :=
  (List.range pool.size).foldl (fun (pool, found) id =>
    match pool.get id.toUInt32 with
    | (pool, some text) => (pool, found.push (id.toUInt32, text))
    | (pool, none) => (pool, found)) (pool, #[])

def push (pool : StringPool) (text : String) (kind : StringKind) : StringPool × UInt32 :=
  let isUtf16 := !Text.isAscii text
  let data := if isUtf16 then Text.toUtf16 text else text.toUTF8
  let length := if isUtf16 then data.size / 2 else data.size
  let entry : StringEntry := ⟨isUtf16, (pool.base.size + pool.appended.size).toUInt32, length.toUInt32⟩
  (⟨pool.base, pool.appended ++ data, pool.entries.push entry, pool.kinds.push kind, pool.known.push (some text)⟩,
    pool.entries.size.toUInt32)

end StringPool
end CodeImage
