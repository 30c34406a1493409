import CodeImage.Json.Number

namespace CodeImage
namespace JsonReader

def word (value : α) : List Char → JsonReader α
  | [], text => .ok (value, text)
  | _ :: _, [] => fail .endInValue []
  | want :: wants, c :: rest => if c = want then word value wants rest else fail .expectedWord rest

def hexUnit? (a b c d : Char) : Option Nat := do
  return (((← hexValue? a) * 16 + (← hexValue? b)) * 16 + (← hexValue? c)) * 16 + (← hexValue? d)

-- Why no hexadecimal escape can be read: fewer than four bytes are left, or they are not digits.
def noUnit (text : List Char) : Except JsonFault α :=
  if utf8Length (text.take 4) < 4 then fail .endInString [] else fail .invalidEscape (text.drop 4)

def escape? (c : Char) : Option Char :=
  match c with
  | '"' | '\\' | '/' => some c
  | 'b' => some '\x08'
  | 'f' => some '\x0c'
  | 'n' => some '\n'
  | 'r' => some '\r'
  | 't' => some '\t'
  | _ => none

def chars (before : List Char) : JsonReader String
  | [] => fail .endInString []
  | '"' :: rest => .ok (String.ofList before.reverse, rest)
  | '\\' :: 'u' :: a :: b :: c :: d :: rest =>
    match hexUnit? a b c d with
    | none => noUnit (a :: b :: c :: d :: rest)
    | some high =>
      if high < 0xD800 ∨ 0xDFFF < high then chars (Char.ofNat high :: before) rest
      else if 0xDC00 ≤ high then fail .loneSurrogate rest
      else
        match rest with
        | '\\' :: 'u' :: e :: f :: g :: h :: rest =>
          match hexUnit? e f g h with
          | none => noUnit (e :: f :: g :: h :: rest)
          | some low =>
            if 0xDC00 ≤ low ∧ low ≤ 0xDFFF then
              chars (Char.ofNat (0x10000 + (high - 0xD800) * 0x400 + (low - 0xDC00)) :: before) rest
            else fail .loneSurrogate rest
        | '\\' :: 'u' :: rest => noUnit rest
        | [] | ['\\'] => fail .endInString []
        | '\\' :: _ :: rest => fail .unpairedSurrogate rest
        | _ :: rest => fail .unpairedSurrogate rest
  | '\\' :: 'u' :: rest => noUnit rest
  | '\\' :: c :: rest =>
    match escape? c with
    | some c => chars (c :: before) rest
    | none => fail .invalidEscape rest
  | ['\\'] => fail .endInString []
  | c :: rest => if c.toNat < 0x20 then fail .controlCharacter rest else chars (c :: before) rest

-- Reads the items of a list after its opening bracket, and the closing bracket. `first` says whether no item was read,
-- and `before` holds the items read so far, last first. `fuel` bounds their number.
def items (item : JsonReader α) : (fuel : Nat) → (first : Bool) → (before : List α) → JsonReader (List α)
  | 0, _, _, _ => fail .endInList []
  | fuel + 1, first, before, text =>
    match skipBlank text with
    | [] => fail .endInList []
    | ']' :: rest => .ok (before.reverse, rest)
    | c :: rest =>
      if first then next fuel before (c :: rest)
      else if c = ',' then
        match skipBlank rest with
        | [] => fail .endInValue []
        | ']' :: rest => failNext .trailingComma (']' :: rest)
        | rest => next fuel before rest
      else failNext .expectedListEnd (c :: rest)
where
  next (fuel : Nat) (before : List α) (text : List Char) : Except JsonFault (List α × List Char) :=
    match item text with
    | .error fault => .error fault
    | .ok (value, rest) => items item fuel false (value :: before) rest

def members (item : JsonReader α) : (fuel : Nat) → (first : Bool) → (before : List (String × α)) →
    JsonReader (List (String × α))
  | 0, _, _, _ => fail .endInObject []
  | fuel + 1, first, before, text =>
    match skipBlank text with
    | [] => fail .endInObject []
    | '\x7d' :: rest => .ok (before.reverse, rest)
    | c :: rest =>
      if first then key fuel before (c :: rest)
      else if c = ',' then
        match skipBlank rest with
        | [] => fail .endInValue []
        | '\x7d' :: rest => failNext .trailingComma ('\x7d' :: rest)
        | rest => key fuel before rest
      else failNext .expectedObjectEnd (c :: rest)
where
  key (fuel : Nat) (before : List (String × α)) (text : List Char) :
      Except JsonFault (List (String × α) × List Char) :=
    match text with
    | '"' :: rest =>
      match chars [] rest with
      | .error fault => .error fault
      | .ok (name, rest) =>
        match skipBlank rest with
        | ':' :: rest =>
          match item rest with
          | .error fault => .error fault
          | .ok (value, rest) => members item fuel false ((name, value) :: before) rest
        | [] => fail .endInObject []
        | rest => failNext .expectedColon rest
    | text => failNext .keyNotString text

def value : (depth : Nat) → JsonReader JsonValue
  | 0, text => failNext .tooDeep (skipBlank text)
  | depth + 1, text =>
    match skipBlank text with
    | [] => fail .endInValue []
    | 'n' :: rest => word .null ['u', 'l', 'l'] rest
    | 't' :: rest => word (.bool true) ['r', 'u', 'e'] rest
    | 'f' :: rest => word (.bool false) ['a', 'l', 's', 'e'] rest
    | '"' :: rest => (chars [] rest).map fun (text, rest) => (.string text, rest)
    | '-' :: rest => (number true rest).map fun (value, rest) => (.number value, rest)
    | '[' :: rest =>
      if depth = 0 then failNext .tooDeep ('[' :: rest)
      else (items (value depth) (rest.length + 1) true [] rest).map fun (values, rest) => (.list values, rest)
    | '\x7b' :: rest =>
      if depth = 0 then failNext .tooDeep ('\x7b' :: rest)
      else (members (value depth) (rest.length + 1) true [] rest).map fun (values, rest) => (.object values, rest)
    | c :: rest =>
      if c.isDigit then (number false (c :: rest)).map fun (value, rest) => (.number value, rest)
      else failNext .expectedValue (c :: rest)

def depthLimit : Nat := 128

def finish (text : List Char) : Except JsonFault Unit :=
  match skipBlank text with
  | [] => .ok ()
  | rest => failNext .trailingText rest

def whole (reader : JsonReader α) (text : String) : Except JsonFault α := do
  let (result, rest) ← reader text.toList
  finish rest
  return result

end JsonReader
end CodeImage
