import CodeImage.Bytes
import CodeImage.Error

namespace CodeImage

namespace Sha1

structure State where
  a : UInt32
  b : UInt32
  c : UInt32
  d : UInt32
  e : UInt32

def initial : State := ⟨0x67452301, 0xEFCDAB89, 0x98BADCFE, 0x10325476, 0xC3D2E1F0⟩

def rotate (x : UInt32) (n : UInt32) : UInt32 := (x <<< n) ||| (x >>> (32 - n))

def wordAt (data : ByteArray) (pos : Nat) : UInt32 :=
  ((byteAt data pos).toUInt32 <<< 24) ||| ((byteAt data (pos + 1)).toUInt32 <<< 16) |||
    ((byteAt data (pos + 2)).toUInt32 <<< 8) ||| (byteAt data (pos + 3)).toUInt32

-- The sixteen words of a block, followed by the words that the recurrence adds to them.
def schedule (data : ByteArray) (pos : Nat) : Array UInt32 :=
  extend 64 (Array.ofFn fun i : Fin 16 => wordAt data (pos + 4 * i.val))
where
  extend : Nat → Array UInt32 → Array UInt32
    | 0, words => words
    | n + 1, words =>
      let back (k : Nat) : UInt32 := words.getD (words.size - k) 0
      extend n (words.push (rotate (back 3 ^^^ back 8 ^^^ back 14 ^^^ back 16) 1))

def mix (i : Nat) (b c d : UInt32) : UInt32 :=
  if i < 20 then ((b &&& c) ||| (~~~b &&& d)) + 0x5A827999
  else if i < 40 then (b ^^^ c ^^^ d) + 0x6ED9EBA1
  else if i < 60 then ((b &&& c) ||| (b &&& d) ||| (c &&& d)) + 0x8F1BBCDC
  else (b ^^^ c ^^^ d) + 0xCA62C1D6

def rounds (words : Array UInt32) : (n : Nat) → (a b c d e : UInt32) → State
  | 0, a, b, c, d, e => ⟨a, b, c, d, e⟩
  | n + 1, a, b, c, d, e =>
    let i := 79 - n
    rounds words n (rotate a 5 + mix i b c d + e + words.getD i 0) a (rotate b 30) c d

def compress (data : ByteArray) (s : State) (pos : Nat) : State :=
  let r := rounds (schedule data pos) 80 s.a s.b s.c s.d s.e
  ⟨s.a + r.a, s.b + r.b, s.c + r.c, s.d + r.d, s.e + r.e⟩

def blocks (data : ByteArray) : (n : Nat) → (pos : Nat) → State → State
  | 0, _, s => s
  | n + 1, pos, s => blocks data n (pos + 64) (compress data s pos)

def pushBig (out : ByteArray) : (width : Nat) → (value : Nat) → ByteArray
  | 0, _ => out
  | width + 1, value => pushBig (out.push (value / Nat.pow 256 width).toUInt8) width value

-- A one bit, zeros up to eight bytes before a block's end, and the length of the message in bits.
def pad (message : ByteArray) : ByteArray :=
  pushBig (message.push 0x80 ++ zeros ((119 - message.size % 64) % 64)) 8 (8 * message.size)

def digest (message : ByteArray) : ByteArray :=
  let data := pad message
  let s := blocks data (data.size / 64) 0 initial
  [s.a, s.b, s.c, s.d, s.e].foldl (fun out word => pushBig out 4 word.toNat) ByteArray.empty

theorem size_pushBig (out : ByteArray) (width value : Nat) :
    (pushBig out width value).size = out.size + width := by
  induction width generalizing out with
  | zero => rfl
  | succ width ih => rw [pushBig, ih, ByteArray.size_push]; omega

theorem size_digest (message : ByteArray) : (digest message).size = 20 := by
  simp [digest, size_pushBig]

end Sha1

def digestSize : Nat := 20

structure Digest where
  bytes : ByteArray
  size_bytes : bytes.size = digestSize
deriving DecidableEq

namespace Digest

def of (data : ByteArray) : Digest := ⟨Sha1.digest data, Sha1.size_digest data⟩

def take (data : ByteArray) : Digest :=
  ⟨(paddedTo data digestSize).extract 0 digestSize, by
    simp only [paddedTo, ByteArray.size_extract, ByteArray.size_append, size_zeros, digestSize]
    omega⟩

instance : Inhabited Digest := ⟨take ByteArray.empty⟩

end Digest

def checkDigest (file : ByteArray) : Except ImageError Unit :=
  if file.size < digestSize then .error (.unexpectedEnd 0 digestSize file.size)
  else
    let split := file.size - digestSize
    let stored := file.extract split file.size
    let computed := (Digest.of (file.extract 0 split)).bytes
    if stored = computed then .ok () else .error (.hashMismatch stored computed)

end CodeImage
