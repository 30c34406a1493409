import CodeImage.Header
import CodeImage.Records

namespace CodeImage

inductive Segment where
  | functionHeaders | stringKinds | identifierHashes | stringTable | overflowStringTable | stringStorage
  | arrayBuffer | objectKeyBuffer | objectValueBuffer | bigIntTable | bigIntStorage | regExpTable
  | regExpStorage | cjsModuleTable | functionSourceTable
deriving DecidableEq, Inhabited, Repr

namespace Segment

def all : List Segment :=
  [.functionHeaders, .stringKinds, .identifierHashes, .stringTable, .overflowStringTable, .stringStorage,
    .arrayBuffer, .objectKeyBuffer, .objectValueBuffer, .bigIntTable, .bigIntStorage, .regExpTable,
    .regExpStorage, .cjsModuleTable, .functionSourceTable]

def name : Segment → String
  | .functionHeaders => "functionHeaders"
  | .stringKinds => "stringKinds"
  | .identifierHashes => "identifierHashes"
  | .stringTable => "stringTable"
  | .overflowStringTable => "overflowStringTable"
  | .stringStorage => "stringStorage"
  | .arrayBuffer => "arrayBuffer"
  | .objectKeyBuffer => "objectKeyBuffer"
  | .objectValueBuffer => "objectValueBuffer"
  | .bigIntTable => "bigIntTable"
  | .bigIntStorage => "bigIntStorage"
  | .regExpTable => "regExpTable"
  | .regExpStorage => "regExpStorage"
  | .cjsModuleTable => "cjsModuleTable"
  | .functionSourceTable => "functionSourceTable"

def count (header : Header) : Segment → UInt32
  | .functionHeaders => header.functionCount
  | .stringKinds => header.stringKindCount
  | .identifierHashes => header.identifierCount
  | .stringTable => header.stringCount
  | .overflowStringTable => header.overflowStringCount
  | .stringStorage => header.stringStorageSize
  | .arrayBuffer => header.arrayBufferSize
  | .objectKeyBuffer => header.objectKeyBufferSize
  | .objectValueBuffer => header.objectValueBufferSize
  | .bigIntTable => header.bigIntCount
  | .bigIntStorage => header.bigIntStorageSize
  | .regExpTable => header.regExpCount
  | .regExpStorage => header.regExpStorageSize
  | .cjsModuleTable => header.cjsModuleCount
  | .functionSourceTable => header.functionSourceCount

def stride : Segment → Nat
  | .functionHeaders => 16
  | .stringKinds | .identifierHashes | .stringTable => 4
  | .overflowStringTable | .bigIntTable | .regExpTable | .cjsModuleTable | .functionSourceTable => 8
  | .stringStorage | .arrayBuffer | .objectKeyBuffer | .objectValueBuffer | .bigIntStorage
  | .regExpStorage => 1

def size (header : Header) (segment : Segment) : Nat := (segment.count header).toNat * segment.stride

end Segment

structure Placed where
  segment : Segment
  offset : Nat
  size : Nat
deriving DecidableEq, Inhabited, Repr

structure SegmentTable where
  placed : List Placed
  codeStart : Nat
deriving DecidableEq, Inhabited, Repr

namespace SegmentTable

-- Places segments one after the other from `cursor` on. No end may exceed the largest 32-bit number.
def place (header : Header) : (cursor : Nat) → List Segment → Except ImageError (List Placed × Nat)
  | cursor, [] => .ok ([], cursor)
  | cursor, segment :: rest =>
    let size := segment.size header
    if 0x100000000 ≤ cursor + size then .error (.segmentOverflow segment.name size)
    else
      match place header (align4 (cursor + size)) rest with
      | .error e => .error e
      | .ok (placed, stop) => .ok (⟨segment, cursor, size⟩ :: placed, stop)

def ofHeader (header : Header) : Except ImageError SegmentTable :=
  match place header headerSize Segment.all with
  | .error e => .error e
  | .ok (placed, stop) => .ok ⟨placed, stop⟩

end SegmentTable
end CodeImage
