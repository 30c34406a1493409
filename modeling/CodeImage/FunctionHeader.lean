import CodeImage.Records

namespace CodeImage

inductive ProhibitInvoke where
  | call | construct | none
deriving DecidableEq, Repr

namespace ProhibitInvoke

instance : Inhabited ProhibitInvoke := ⟨.none⟩

def ofBits? (bits : UInt32) : Option ProhibitInvoke :=
  if bits = 0 then some .call else if bits = 1 then some .construct else if bits = 2 then some .none
  else Option.none

def toBits : ProhibitInvoke → UInt32
  | .call => 0
  | .construct => 1
  | .none => 2

def name : ProhibitInvoke → String
  | .call => "Call"
  | .construct => "Construct"
  | .none => "None"

def ofName? (text : String) : Option ProhibitInvoke :=
  [call, construct, none].find? fun p => p.name == text

end ProhibitInvoke

-- A function header. The places `offset`, `codeSize` and `infoOffset` and the three flags at the end describe the file
-- that the header was read from; a writer computes them anew.
structure FunctionHeader where
  offset : UInt32 := 0
  -- Parameters, `this` included.
  paramCount : UInt32 := 0
  codeSize : UInt32 := 0
  functionName : UInt32 := 0
  infoOffset : UInt32 := 0
  frameSize : UInt32 := 0
  environmentSize : UInt32 := 0
  readCacheIndex : UInt32 := 0
  writeCacheIndex : UInt32 := 0
  prohibitInvoke : ProhibitInvoke := .none
  strictMode : Bool := false
  hasExceptionHandler : Bool := false
  hasDebugInfo : Bool := false
  overflowed : Bool := false
deriving DecidableEq, Inhabited, Repr

namespace FunctionHeader

def flag (b : Bool) : UInt32 := if b then 1 else 0

def toRecord (h : FunctionHeader) : HeaderRecord :=
  ⟨h.offset, h.paramCount, h.codeSize, h.functionName, h.infoOffset, h.frameSize, h.environmentSize,
    h.readCacheIndex, h.writeCacheIndex, h.prohibitInvoke.toBits, flag h.strictMode,
    flag h.hasExceptionHandler, flag h.hasDebugInfo, flag h.overflowed⟩

def ofRecord (r : HeaderRecord) : Except ImageError FunctionHeader :=
  match ProhibitInvoke.ofBits? r.prohibitInvoke with
  | none => .error (.invalidLayout (.invocation r.prohibitInvoke))
  | some prohibit =>
    .ok ⟨r.offset, r.paramCount, r.codeSize, r.functionName, r.infoOffset, r.frameSize, r.environmentSize,
      r.readCacheIndex, r.writeCacheIndex, prohibit, r.strictMode != 0, r.hasExceptionHandler != 0,
      r.hasDebugInfo != 0, r.overflowed != 0⟩

-- A header stored in full always counts as overflowed.
def ofLarge (r : HeaderRecord) : Except ImageError FunctionHeader :=
  (ofRecord r).map fun header => { header with overflowed := true }

def largeOffset (stub : HeaderRecord) : UInt32 := (stub.infoOffset <<< 16) ||| (stub.offset &&& 0xffff)

def sizedFields : Nat := 9

def sized (h : FunctionHeader) : List (Field × UInt32) :=
  (Schema.smallHeader.layout.fields.zip h.toRecord.toWords).take sizedFields

def fitsSmall (h : FunctionHeader) : Bool := h.sized.all fun (field, value) => field.fits value

def toSmall (h : FunctionHeader) : HeaderRecord := { h.toRecord with overflowed := 0 }

def toLarge (h : FunctionHeader) : HeaderRecord := { h.toRecord with overflowed := 0 }

-- The stub for a header stored in full at `largeAt`. It keeps the fields before the first one that does not fit.
def toStub (h : FunctionHeader) (largeAt : UInt32) : HeaderRecord :=
  let kept := (h.sized.takeWhile fun (field, value) => field.fits value).map (·.2)
  { HeaderRecord.ofWords kept with
    offset := largeAt &&& 0xffff, infoOffset := largeAt >>> 16, overflowed := 1 }

end FunctionHeader
end CodeImage
