import CodeImage.Bytes

namespace CodeImage

-- A node remembers the length and the depth of its tree.
inductive Rope where
  | leaf (data : ByteArray)
  | node (left right : Rope) (length height : Nat)
deriving Inhabited

namespace Rope

def empty : Rope := leaf ByteArray.empty

def size : Rope → Nat
  | leaf data => data.size
  | node _ _ length _ => length

def isEmpty (rope : Rope) : Bool := rope.size == 0

def depth : Rope → Nat
  | leaf _ => 0
  | node _ _ _ height => height

-- Joining an empty rope to another builds no node.
def concat (left right : Rope) : Rope :=
  if right.isEmpty then left
  else if left.isEmpty then right
  else node left right (left.size + right.size) (1 + max left.depth right.depth)

-- The bytes from `start` up to `stop`; bounds past the end are moved to the end.
def slice : Rope → (start stop : Nat) → Rope
  | rope@(leaf data), start, stop =>
    let stop := min stop data.size
    let start := min start stop
    if start = 0 ∧ stop = data.size then rope else leaf (data.extract start stop)
  | rope@(node left right length _), start, stop =>
    let stop := min stop length
    let start := min start stop
    if start = 0 ∧ stop = length then rope
    else
      let split := left.size
      let head := if start < split then left.slice start (min stop split) else empty
      let tail := if split < stop then right.slice (start - split) (stop - split) else empty
      head.concat tail

-- `value` in place of the bytes from `start` up to `stop`; an earlier `stop` counts as `start`.
def replace (rope : Rope) (start stop : Nat) (value : Rope) : Rope :=
  ((rope.slice 0 start).concat value).concat (rope.slice (max stop start) rope.size)

def insert (rope : Rope) (index : Nat) (value : Rope) : Rope := rope.replace index index value

def remove (rope : Rope) (start stop : Nat) : Rope := rope.replace start stop empty

-- Lengths and depths are machine words. Where the operations above give a rope beyond them, these give none.
def heightLimit : Nat := 0x100000000

def Fits (rope : Rope) : Prop := rope.size < addressLimit ∧ rope.depth < heightLimit

instance (rope : Rope) : Decidable rope.Fits := inferInstanceAs (Decidable (_ ∧ _))

def node? (left right : Rope) : Option Rope :=
  let length := left.size + right.size
  let height := 1 + max left.depth right.depth
  if length < addressLimit ∧ height < heightLimit then some (node left right length height) else none

def concat? (left right : Rope) : Option Rope :=
  if right.isEmpty then some left
  else if left.isEmpty then some right
  else node? left right

def slice? : Rope → (start stop : Nat) → Option Rope
  | rope@(leaf _), start, stop => some (rope.slice start stop)
  | rope@(node left right length _), start, stop => do
    let stop := min stop length
    let start := min start stop
    if start = 0 ∧ stop = length then return rope
    let split := left.size
    let head ← (if start < split then left.slice? start (min stop split) else some empty)
    let tail ← (if split < stop then right.slice? (start - split) (stop - split) else some empty)
    head.concat? tail

def replace? (rope : Rope) (start stop : Nat) (value : Rope) : Option Rope := do
  let front ← (← rope.slice? 0 start).concat? value
  front.concat? (← rope.slice? (max stop start) rope.size)

def insert? (rope : Rope) (index : Nat) (value : Rope) : Option Rope := rope.replace? index index value

def remove? (rope : Rope) (start stop : Nat) : Option Rope := rope.replace? start stop empty

def leavesOnto : Rope → List ByteArray → List ByteArray
  | leaf data, rest => if data.size = 0 then rest else data :: rest
  | node left right _ _, rest => left.leavesOnto (right.leavesOnto rest)

def leaves (rope : Rope) : List ByteArray := rope.leavesOnto []

def toBytes (rope : Rope) : ByteArray := rope.leaves.foldl (· ++ ·) ByteArray.empty

def equals (rope other : Rope) : Bool := rope.size == other.size && rope.toBytes == other.toBytes

def summary (rope : Rope) : String :=
  s!"Rope \x7b len: {rope.size}, depth: {rope.depth}, leaves: {rope.leaves.length} \x7d"

end Rope
end CodeImage
