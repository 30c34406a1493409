import CodeImage.Operand

namespace CodeImage

-- A JSON value. The members of an object keep their order, and a name may be repeated.
inductive JsonValue where
  | null
  | bool (value : Bool)
  | number (value : Operand)
  | string (text : String)
  | list (items : List JsonValue)
  | object (members : List (String × JsonValue))
deriving Inhabited

inductive JsonCause where
  | endInList | endInObject | endInString | endInValue
  | expectedColon | expectedListEnd | expectedObjectEnd | expectedWord | expectedValue
  | invalidEscape | invalidNumber | numberRange | controlCharacter | keyNotString
  | loneSurrogate | unpairedSurrogate | trailingComma | trailingText | tooDeep
  | shape
deriving DecidableEq, Inhabited, Repr

inductive JsonCategory where
  | unfinished
  | malformed
  | unsuitable
deriving DecidableEq, Inhabited, Repr

namespace JsonCause

def category : JsonCause → JsonCategory
  | endInList | endInObject | endInString | endInValue => .unfinished
  | shape => .unsuitable
  | _ => .malformed

def message : JsonCause → String
  | endInList => "EOF while parsing a list"
  | endInObject => "EOF while parsing an object"
  | endInString => "EOF while parsing a string"
  | endInValue => "EOF while parsing a value"
  | expectedColon => "expected \u0060:\u0060"
  | expectedListEnd => "expected \u0060,\u0060 or \u0060]\u0060"
  | expectedObjectEnd => "expected \u0060,\u0060 or \u0060\x7d\u0060"
  | expectedWord => "expected ident"
  | expectedValue => "expected value"
  | invalidEscape => "invalid escape"
  | invalidNumber => "invalid number"
  | numberRange => "number out of range"
  | controlCharacter => "control character (\\u0000-\\u001F) found while parsing a string"
  | keyNotString => "key must be a string"
  | loneSurrogate => "lone leading surrogate in hex escape"
  | unpairedSurrogate => "unexpected end of hex escape"
  | trailingComma => "trailing comma"
  | trailingText => "trailing characters"
  | tooDeep => "recursion limit exceeded"
  | shape => "data did not match any variant of untagged enum OneOrMany"

end JsonCause

-- A fault of a text, with the number of bytes that are not yet read when it is noticed.
structure JsonFault where
  cause : JsonCause
  unread : Nat
deriving DecidableEq, Inhabited, Repr

def utf8Length (chars : List Char) : Nat := total (chars.map Char.utf8Size)

namespace JsonFault

def position (chars : List Char) (count : Nat) : Nat × Nat :=
  let (_, line, start) := chars.foldl (fun (offset, line, start) c =>
    if offset < count ∧ c = '\n' then (offset + 1, line + 1, offset + 1) else (offset + c.utf8Size, line, start)) (0, 1, 0)
  (line, count - start)

def message (fault : JsonFault) (text : String) : String :=
  if fault.cause = .shape then fault.cause.message
  else
    let (line, column) := position text.toList (text.utf8ByteSize - fault.unread)
    s!"{fault.cause.message} at line {line} column {column}"

end JsonFault

abbrev JsonReader (α : Type) := List Char → Except JsonFault (α × List Char)

namespace JsonReader

def fail (cause : JsonCause) (rest : List Char) : Except JsonFault α := .error ⟨cause, utf8Length rest⟩

def failNext (cause : JsonCause) (rest : List Char) : Except JsonFault α := .error ⟨cause, utf8Length rest - 1⟩

def isBlank (c : Char) : Bool := c == ' ' || c == '\n' || c == '\t' || c == '\r'

def skipBlank (text : List Char) : List Char := text.dropWhile isBlank

end JsonReader
end CodeImage
