import CodeImage.StringTable

namespace CodeImage

namespace Text

def occursIn (needle : List Char) : (text : List Char) → Bool
  | [] => needle.isEmpty
  | c :: rest => needle.isPrefixOf (c :: rest) || occursIn needle rest

def contains (text needle : String) : Bool := occursIn needle.toList text.toList

end Text

structure IndexEntry where
  length : Nat
  id : UInt32
deriving DecidableEq, Inhabited, Repr

-- From the shortest to the longest and equally long ones by age, so the first hit of a search is the shortest string,
-- and of those the oldest.
structure StringIndex where
  entries : List IndexEntry := []
deriving DecidableEq, Inhabited, Repr

namespace StringIndex

def ofTexts (texts : List (UInt32 × String)) : StringIndex :=
  ⟨(texts.map fun (id, text) => ⟨text.utf8ByteSize, id⟩).mergeSort fun a b => decide (a.length ≤ b.length)⟩

def ofTable (table : StringTable) : StringIndex := ofTexts table.texts

-- Puts an entry behind all that are not longer.
def place (entry : IndexEntry) : List IndexEntry → List IndexEntry
  | [] => [entry]
  | first :: rest => if first.length ≤ entry.length then first :: place entry rest else entry :: first :: rest

def insert (index : StringIndex) (id : UInt32) (text : String) : StringIndex :=
  ⟨place ⟨text.utf8ByteSize, id⟩ index.entries⟩

def find? (index : StringIndex) (textOf : UInt32 → Option String) (text : String) : Option UInt32 :=
  (index.entries.find? fun entry => entry.length == text.utf8ByteSize && textOf entry.id == some text).map (·.id)

def findPartial? (index : StringIndex) (textOf : UInt32 → Option String) (needle : String) : Option UInt32 :=
  (index.entries.find? fun entry =>
    decide (needle.utf8ByteSize ≤ entry.length) && (textOf entry.id).any (Text.contains · needle)).map (·.id)

def resolve? (index : StringIndex) (textOf : UInt32 → Option String) (text : String) : Option UInt32 :=
  (index.find? textOf text).or (index.findPartial? textOf text)

end StringIndex
end CodeImage
