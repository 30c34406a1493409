import CodeImage.Opcode

namespace CodeImage

inductive LayoutFault where
  | recordSize (len size : Nat)
  | invocation (bits : UInt32)
  | danglingBody (function : Nat)
  | fileLength (len : Nat)
  | debugInfo (offset : Nat)
  | overflowEntry (string : Nat) (entry : Nat)
  | kindCount (covered strings : Nat)
  | stringStorage (string : Nat)
  | entryStorage (what : String) (entry : Nat)
  | missingMatch
deriving DecidableEq, Inhabited, Repr

inductive ImageError where
  | invalidMagic (magic : Nat)
  | invalidOpcode (byte : UInt8) (ip : Nat)
  | unexpectedEnd (offset len available : Nat)
  | truncatedInstruction (opcode : Opcode) (ip width remaining : Nat)
  | operandOutOfRange (opcode : Opcode) (index : Nat) (value : Operand)
  | operandCount (opcode : Opcode) (expected found : Nat)
  | operandKind (opcode : Opcode) (index : Nat)
  | segmentOverflow (segment : String) (size : Nat)
  | invalidLayout (fault : LayoutFault)
  | stringIndex (id : UInt32)
  | bigIntIndex (id : UInt32)
  | regExpIndex (id : UInt32)
  | functionIndex (id : UInt32)
  | hashMismatch (expected computed : ByteArray)
  | roundTripMismatch (offset inputLen outputLen : Nat)
  | streamEnded (offset len received : Nat)
  | invalidLiteral (tag : Nat) (offset : Nat)
  | source (reason : String)
deriving DecidableEq, Inhabited

def LayoutFault.message : LayoutFault → String
  | .recordSize len size => s!"{len} bytes is not a multiple of the {size}-byte record size"
  | .invocation bits => s!"invalid prohibitInvoke value {bits}"
  | .danglingBody function => s!"function {function} has a dangling bytecode id"
  | .fileLength len => s!"file length {len} is too small"
  | .debugInfo offset => s!"debug info offset {offset} is past the end of the file"
  | .overflowEntry string entry => s!"string {string} points at missing overflow entry {entry}"
  | .kindCount covered strings => s!"string kinds cover {covered} strings, table has {strings}"
  | .stringStorage string => s!"string {string} exceeds string storage"
  | .entryStorage what entry => s!"{what} {entry} exceeds its storage"
  | .missingMatch => "no such match"

namespace ImageError

def message : ImageError → String
  | .invalidMagic magic => s!"Not a Hermes bytecode file (magic 0x{hexNat magic 16})"
  | .invalidOpcode byte ip => s!"Invalid opcode 0x{hexNat byte.toNat 2} at ip {ip}"
  | .unexpectedEnd offset len available =>
    s!"Unexpected end of data: need {len} bytes at offset {offset}, have {available}"
  | .truncatedInstruction opcode ip width remaining =>
    s!"Truncated {opcode.name} at ip {ip}: width {width}, {remaining} bytes remaining"
  | .operandOutOfRange opcode index value => s!"Operand {index} of {opcode.name} out of range: {value.text}"
  | .operandCount opcode expected found => s!"{opcode.name} takes {expected} operands, got {found}"
  | .operandKind opcode index => s!"Operand {index} of {opcode.name} must be an integer"
  | .segmentOverflow segment size => s!"Segment {segment} overflows: {size} bytes"
  | .invalidLayout fault => s!"Invalid layout: {fault.message}"
  | .stringIndex id => s!"String index {id} out of range"
  | .bigIntIndex id => s!"BigInt index {id} out of range"
  | .regExpIndex id => s!"RegExp index {id} out of range"
  | .functionIndex id => s!"Function index {id} out of range"
  | .hashMismatch expected computed => s!"Hash mismatch: expected {hex expected}, computed {hex computed}"
  | .roundTripMismatch offset inputLen outputLen =>
    s!"Round trip differs at byte {offset} (input {inputLen} bytes, output {outputLen} bytes)"
  | .streamEnded offset len received =>
    s!"Stream ended after {received} bytes; {len} bytes at offset {offset} never arrived"
  | .invalidLiteral tag offset => s!"Invalid literal tag {tag} at offset {offset}"
  | .source reason => s!"IO error: {reason}"

end ImageError

inductive Warning where
  | unexpectedVersion
  | lateChunk
  | undecodableFunction
  | ambiguousPatch
  | unresolvedFingerprint
  | unmatchedPatch
  | failedPatch
  | abandonedPatch
deriving DecidableEq, Inhabited, Repr

def Warning.message : Warning → String
  | .unexpectedVersion => "unexpected bytecode version"
  | .lateChunk => "chunk fed after end of stream, ignored"
  | .undecodableFunction => "skipping undecodable function"
  | .ambiguousPatch => "patch is not unique"
  | .unresolvedFingerprint => "patch fingerprint did not resolve"
  | .unmatchedPatch => "patch did not match anything"
  | .failedPatch => "patch failed"
  | .abandonedPatch => "patch abandoned"

end CodeImage
