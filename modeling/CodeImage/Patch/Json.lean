import CodeImage.Json.Instruction
import CodeImage.Patch

namespace CodeImage

namespace JsonValue

def items? : JsonValue → Option (List JsonValue)
  | list items => some items
  | _ => none

def string? : JsonValue → Option String
  | string text => some text
  | _ => none

end JsonValue

def membersNamed (members : List (String × JsonValue)) (name : String) : List JsonValue :=
  (members.filter (·.1 == name)).map (·.2)

namespace Selector

def optionalMember (members : List (String × JsonValue)) (name : String) (missing : α)
    (read : JsonValue → Option α) : Option α :=
  match membersNamed members name with
  | [] => some missing
  | [value] => read value
  | _ => none

def ofMembers? (members : List (String × JsonValue)) : Option Selector := do
  let identifier ← optionalMember members "identifier" none fun
    | .null => some none
    | value => value.string?.map some
  let strings ← optionalMember members "strings" [] fun value =>
    value.items?.bind (·.mapM JsonValue.string?)
  let opcodes ← optionalMember members "opcodes" [] fun value =>
    value.items?.bind (·.mapM (Opcode.ofJson? false))
  return { identifier, strings, opcodes }

end Selector

namespace Patch

-- Of several members that say what a patch does the first one counts.
def isAction (member : String × JsonValue) : Bool := member.1 == "patches" || member.1 == "replace"

mutual

def ofJson? (value : JsonValue) : Option Patch :=
  match value with
  | .object members => do
    let selector ← Selector.ofMembers? members
    match found : members.find? isAction with
    | none => none
    | some (name, action) =>
      if name = "replace" then
        let insns ← action.items?.bind (·.mapM Instruction.ofJson?)
        return replace selector insns
      else
        have := List.sizeOf_lt_of_mem (List.mem_of_find?_eq_some found)
        let patches ← listOfJson? action
        return nested selector patches
  | _ => none
termination_by (sizeOf value, 0)
decreasing_by
  simp only [JsonValue.object.sizeOf_spec, Prod.mk.sizeOf_spec] at *
  exact Prod.Lex.left _ _ (by omega)

def listOfJson? (value : JsonValue) : Option (List Patch) :=
  match value with
  | .list items => items.attach.mapM fun ⟨item, member⟩ =>
      have := List.sizeOf_lt_of_mem member
      ofJson? item
  | value => (ofJson? value).map fun patch => [patch]
termination_by (sizeOf value, 1)
decreasing_by
  · simp only [JsonValue.list.sizeOf_spec]
    exact Prod.Lex.left _ _ (by omega)
  · exact Prod.Lex.right _ (by omega)

end

def parseJson (text : String) : Except JsonFault (List Patch) := do
  let (value, rest) ← JsonReader.value JsonReader.depthLimit text.toList
  match listOfJson? value with
  | none => JsonReader.fail .shape rest
  | some patches =>
    JsonReader.finish rest
    return patches

end Patch
end CodeImage
