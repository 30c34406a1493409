import CodeImage.Bytes
import CodeImage.Json

namespace CodeImage
namespace JsonValue

def escaped (c : Char) : List Char :=
  if c = '"' then ['\\', '"']
  else if c = '\\' then ['\\', '\\']
  else if c = '\x08' then ['\\', 'b']
  else if c = '\x0c' then ['\\', 'f']
  else if c = '\n' then ['\\', 'n']
  else if c = '\r' then ['\\', 'r']
  else if c = '\t' then ['\\', 't']
  else if c.toNat < 0x20 then ['\\', 'u'] ++ (hexNat c.toNat 4).toList
  else [c]

def quoted (text : String) : String := String.ofList ('"' :: text.toList.flatMap escaped ++ ['"'])

def atom : JsonValue → String
  | bool true => "true"
  | bool false => "false"
  | number value => value.text
  | string text => quoted text
  | _ => "null"

mutual

def compact : JsonValue → String
  | list items => "[" ++ ",".intercalate (compactItems items) ++ "]"
  | object members => "\x7b" ++ ",".intercalate (compactMembers members) ++ "\x7d"
  | value => value.atom

def compactItems : List JsonValue → List String
  | [] => []
  | item :: rest => item.compact :: compactItems rest

def compactMembers : List (String × JsonValue) → List String
  | [] => []
  | (name, value) :: rest => (quoted name ++ ":" ++ value.compact) :: compactMembers rest

end

def block (indent : Nat) (opening closing : String) (parts : List String) : String :=
  if parts.isEmpty then opening ++ closing
  else
    let margin (n : Nat) := "\n" ++ String.ofList (List.replicate (2 * n) ' ')
    opening ++ margin (indent + 1) ++ ("," ++ margin (indent + 1)).intercalate parts ++ margin indent ++ closing

mutual

def pretty (indent : Nat) : JsonValue → String
  | list items => block indent "[" "]" (prettyItems (indent + 1) items)
  | object members => block indent "\x7b" "\x7d" (prettyMembers (indent + 1) members)
  | value => value.atom

def prettyItems (indent : Nat) : List JsonValue → List String
  | [] => []
  | item :: rest => item.pretty indent :: prettyItems indent rest

def prettyMembers (indent : Nat) : List (String × JsonValue) → List String
  | [] => []
  | (name, value) :: rest => (quoted name ++ ": " ++ value.pretty indent) :: prettyMembers indent rest

end

end JsonValue
end CodeImage
