import CodeImage.Toml.Scalar

namespace CodeImage

-- Where and why reading fails is not kept.
abbrev TomlReader (α : Type) := List Char → Option (α × List Char)

namespace TomlReader

def isBlank (c : Char) : Bool := c == ' ' || c == '\t'

def skipBlank (text : List Char) : List Char := text.dropWhile isBlank

def isText (c : Char) : Bool := c == '\t' || (decide (0x20 ≤ c.toNat) && c.toNat != 0x7f)

def newline? : List Char → Option (List Char)
  | '\n' :: rest => some rest
  | '\r' :: '\n' :: rest => some rest
  | _ => none

def skipComment (text : List Char) : List Char :=
  match skipBlank text with
  | '#' :: rest => rest.dropWhile isText
  | rest => rest

def lineEnd? (text : List Char) : Option (List Char) :=
  match skipComment text with
  | [] => some []
  | rest => newline? rest

def skipLines : (fuel : Nat) → List Char → List Char
  | 0, text => text
  | fuel + 1, text =>
    match newline? (skipComment text) with
    | some rest => skipLines fuel rest
    | none => skipComment text

def unicode (count : Nat) : TomlReader Char := fun text => do
  let front := text.take count
  if front.length ≠ count ∨ front.contains '_' then none
  let n ← TomlScalar.digits? 16 front
  if n < 0xD800 ∨ (0xDFFF < n ∧ n < 0x110000) then return (Char.ofNat n, text.drop count) else none

def escape : TomlReader Char
  | 'b' :: rest => some ('\x08', rest)
  | 't' :: rest => some ('\t', rest)
  | 'n' :: rest => some ('\n', rest)
  | 'f' :: rest => some ('\x0c', rest)
  | 'r' :: rest => some ('\r', rest)
  | '"' :: rest => some ('"', rest)
  | '\\' :: rest => some ('\\', rest)
  | 'u' :: rest => unicode 4 rest
  | 'U' :: rest => unicode 8 rest
  | _ => none

def line (quote : Char) : (fuel : Nat) → (before : List Char) → TomlReader String
  | 0, _, _ => none
  | fuel + 1, before, text =>
    match text with
    | [] => none
    | c :: rest =>
      if c = quote then some (String.ofList before.reverse, rest)
      else if c = '\\' ∧ quote = '"' then (escape rest).bind fun (c, rest) => line quote fuel (c :: before) rest
      else if isText c then line quote fuel (c :: before) rest
      else none

def skipSpace : (fuel : Nat) → List Char → List Char
  | 0, text => text
  | fuel + 1, text =>
    match newline? (skipBlank text) with
    | some rest => skipSpace fuel rest
    | none => skipBlank text

-- Reads a string of several lines after its opening quotes. Up to two quotes may stand before the closing ones, and a
-- backslash at the end of a line joins it to the next text.
def lines (quote : Char) : (fuel : Nat) → (before : List Char) → TomlReader String
  | 0, _, _ => none
  | fuel + 1, before, text =>
    let quotes := (text.takeWhile (· == quote)).length
    if 3 ≤ quotes then
      let inner := min (quotes - 3) 2
      some (String.ofList (List.replicate inner quote ++ before).reverse, text.drop (inner + 3))
    else
      match text with
      | [] => none
      | '\r' :: '\n' :: rest => lines quote fuel ('\n' :: before) rest
      | '\n' :: rest => lines quote fuel ('\n' :: before) rest
      | c :: rest =>
        if c = '\\' ∧ quote = '"' then
          match newline? (skipBlank rest) with
          | some rest => lines quote fuel before (skipSpace rest.length rest)
          | none => (escape rest).bind fun (c, rest) => lines quote fuel (c :: before) rest
        else if isText c then lines quote fuel (c :: before) rest
        else none

def trimLine (text : List Char) : List Char := (newline? text).getD text

def string (several : Bool) : TomlReader String
  | '"' :: '"' :: '"' :: rest =>
    if several then lines '"' (rest.length + 1) [] (trimLine rest) else some ("", '"' :: rest)
  | '\'' :: '\'' :: '\'' :: rest =>
    if several then lines '\'' (rest.length + 1) [] (trimLine rest) else some ("", '\'' :: rest)
  | '"' :: rest => line '"' (rest.length + 1) [] rest
  | '\'' :: rest => line '\'' (rest.length + 1) [] rest
  | _ => none

def isBareKey (c : Char) : Bool := c.isAlphanum || c == '_' || c == '-'

def keyPart : TomlReader String := fun text =>
  match text with
  | '"' :: _ | '\'' :: _ => string false text
  | text =>
    let part := text.takeWhile isBareKey
    if part.isEmpty then none else some (String.ofList part, text.dropWhile isBareKey)

-- A key has fewer parts, and values nest less deep, than this.
def depthLimit : Nat := 80

def keyParts : (fuel : Nat) → TomlReader (List String)
  | 0, _ => none
  | fuel + 1, text => do
    let (part, rest) ← keyPart (skipBlank text)
    match skipBlank rest with
    | '.' :: rest =>
      let (parts, rest) ← keyParts fuel rest
      return (part :: parts, rest)
    | rest => return ([part], rest)

def key : TomlReader (List String) := keyParts (depthLimit - 1)

def isScalar (c : Char) : Bool := c.isAlphanum || c == '_' || c == '-' || c == '+' || c == '.' || c == ':'

def timeFollows : List Char → Bool
  | ' ' :: rest => (TomlScalar.afterMinutes? rest).isSome
  | _ => false

-- Reads a value without quotes. A date may be followed by a blank and a time.
def scalar : TomlReader TomlValue := fun text => do
  let front := text.takeWhile isScalar
  let rest := text.dropWhile isScalar
  let (front, rest) :=
    if TomlScalar.afterDate? front == some [] && timeFollows rest then
      (front ++ ' ' :: rest.tail.takeWhile isScalar, rest.tail.dropWhile isScalar)
    else (front, rest)
  return (← TomlScalar.value? front, rest)

def items (item : TomlReader TomlValue) : (fuel : Nat) → (before : List TomlValue) → TomlReader TomlValue
  | 0, _, _ => none
  | fuel + 1, before, text =>
    match skipLines text.length text with
    | ']' :: rest => some (.array before.reverse, rest)
    | text => do
      let (value, rest) ← item text
      match skipLines rest.length rest with
      | ',' :: rest => items item fuel (value :: before) rest
      | ']' :: rest => return (.array (value :: before).reverse, rest)
      | _ => none

def assignment (item : TomlReader TomlValue) : TomlReader (List String × TomlValue) := fun text => do
  let (path, rest) ← key text
  let '=' :: rest := rest | none
  let (value, rest) ← item (skipBlank rest)
  return ((path, value), rest)

def entries (item : TomlReader TomlValue) : (fuel : Nat) → TomlTable → TomlReader TomlValue
  | 0, _, _ => none
  | fuel + 1, table, text => do
    let ((path, value), rest) ← assignment item text
    let table ← table.addKey path value
    match skipBlank rest with
    | ',' :: rest => entries item fuel table rest
    | '\x7d' :: rest => return (.table .braces table, rest)
    | _ => none

def value : (depth : Nat) → TomlReader TomlValue
  | 0, _ => none
  | depth + 1, text =>
    match text with
    | '"' :: _ | '\'' :: _ => (string true text).map fun (text, rest) => (.string text, rest)
    | '[' :: rest => if depth = 0 then none else items (value depth) (rest.length + 1) [] rest
    | '\x7b' :: rest =>
      if depth = 0 then none
      else
        match skipBlank rest with
        | '\x7d' :: rest => some (.table .braces [], rest)
        | rest => entries (value depth) (rest.length + 1) [] rest
    | text => scalar text

def header (closing : List Char) : TomlReader (List String) := fun text => do
  let (path, rest) ← key text
  if closing.isPrefixOf rest then return (path, rest.drop closing.length) else none

-- A document that is being read: its tables so far, and the path of the table that keys go to.
structure Document where
  root : TomlTable := []
  current : List String := []
deriving Inhabited

def statement (document : Document) : TomlReader Document := fun text =>
  match text with
  | '[' :: '[' :: rest => do
    let (path, rest) ← header [']', ']'] rest
    let root ← document.root.descend (TomlTable.openNext (path.getLastD "")) path.dropLast
    return (⟨root, path⟩, rest)
  | '[' :: rest => do
    let (path, rest) ← header [']'] rest
    let root ← document.root.descend (TomlTable.openTable (path.getLastD "")) path.dropLast
    return (⟨root, path⟩, rest)
  | text => do
    let ((path, value), rest) ← assignment (value depthLimit) text
    let root ← document.root.descend (TomlTable.addKey path value) document.current
    return (⟨root, document.current⟩, rest)

def statements : (fuel : Nat) → Document → List Char → Option TomlTable
  | 0, _, _ => none
  | fuel + 1, document, text =>
    match skipLines text.length text with
    | [] => some document.root
    | text => do
      let (document, rest) ← statement document text
      let rest ← lineEnd? rest
      statements fuel document rest

-- The table that a text describes. A byte order mark may stand in front.
def document? (text : String) : Option TomlTable :=
  let chars := match text.toList with
    | '\uFEFF' :: rest => rest
    | chars => chars
  statements (chars.length + 1) {} chars

end TomlReader
end CodeImage
