namespace CodeImage

-- A table may be named once by a header, a dotted key adds only to tables that dotted keys made, and a table between
-- braces is complete.
inductive TableOrigin where
  | header
  -- The header of a table inside it.
  | implied
  | dottedKey
  | braces
deriving DecidableEq, Inhabited, Repr

inductive TomlValue where
  | string (text : String)
  | bool (value : Bool)
  | number
  | time
  | array (items : List TomlValue)
  | table (origin : TableOrigin) (entries : List (String × TomlValue))
  -- Tables with one header for each, latest first.
  | tables (items : List (List (String × TomlValue)))
deriving Inhabited

abbrev TomlTable := List (String × TomlValue)

namespace TomlTable

def set (table : TomlTable) (key : String) (value : TomlValue) : TomlTable :=
  match table with
  | [] => [(key, value)]
  | entry :: rest => if entry.1 = key then (key, value) :: rest else entry :: set rest key value

def addKey : (path : List String) → TomlValue → TomlTable → Option TomlTable
  | [], _, _ => none
  | [key], value, table => if (table.lookup key).isSome then none else some (table.set key value)
  | key :: rest, value, table =>
    match table.lookup key with
    | none => (addKey rest value []).map fun inner => table.set key (.table .dottedKey inner)
    | some (.table origin inner) =>
      if origin = .dottedKey ∨ (origin = .implied ∧ 1 < rest.length) then
        (addKey rest value inner).map fun inner => table.set key (.table origin inner)
      else none
    | some (.tables (latest :: earlier)) =>
      if 1 < rest.length then (addKey rest value latest).map fun latest => table.set key (.tables (latest :: earlier))
      else none
    | some _ => none

-- Changes the table at the end of a path of headers; a missing table is implied.
def descend (change : TomlTable → Option TomlTable) : (path : List String) → TomlTable → Option TomlTable
  | [], table => change table
  | key :: rest, table =>
    match table.lookup key with
    | none => (descend change rest []).map fun inner => table.set key (.table .implied inner)
    | some (.table origin inner) =>
      if origin = .braces then none
      else (descend change rest inner).map fun inner => table.set key (.table origin inner)
    | some (.tables (latest :: earlier)) =>
      (descend change rest latest).map fun latest => table.set key (.tables (latest :: earlier))
    | some _ => none

def openTable (key : String) (table : TomlTable) : Option TomlTable :=
  match table.lookup key with
  | none => some (table.set key (.table .header []))
  | some (.table .implied inner) => some (table.set key (.table .header inner))
  | some _ => none

def openNext (key : String) (table : TomlTable) : Option TomlTable :=
  match table.lookup key with
  | none => some (table.set key (.tables [[]]))
  | some (.tables items) => some (table.set key (.tables ([] :: items)))
  | some _ => none

end TomlTable
end CodeImage
