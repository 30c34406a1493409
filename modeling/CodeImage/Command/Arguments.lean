namespace CodeImage

inductive Command where
  | info (file : String) (json functions : Bool)
  | verify (files : List String)
  | resave (input output : String) (version : Option UInt32) (checkHash : Bool)
  | patch (input output : String) (definitions : List String) (noVerify : Bool)
deriving DecidableEq, Inhabited, Repr

structure Invocation where
  config : Option String
  command : Command
deriving DecidableEq, Inhabited, Repr

inductive Stop where
  | usage
  | help
  | version
deriving DecidableEq, Inhabited, Repr

inductive OptionValue where
  | path | word
deriving DecidableEq, Inhabited, Repr

structure ValueOption where
  name : String
  value : OptionValue := .path
  repeatable : Bool := false
deriving DecidableEq, Inhabited, Repr

structure CommandShape where
  flags : List String := []
  options : List ValueOption := []
  most : Option Nat
deriving DecidableEq, Inhabited, Repr

structure Sorted where
  flags : List String := []
  options : List (String × String) := []
  plain : List String := []
deriving DecidableEq, Inhabited, Repr

namespace Arguments

def digitsValue? (chars : List Char) : Option Nat :=
  if chars.isEmpty || !chars.all Char.isDigit then none
  else some (chars.foldl (fun n c => n * 10 + (c.toNat - '0'.toNat)) 0)

def word? (text : String) : Option UInt32 :=
  let value := match text.toList with
    | '+' :: rest => digitsValue? rest
    | '-' :: rest => (digitsValue? rest).filter (· == 0)
    | chars => digitsValue? chars
  (value.filter (· < 0x100000000)).map Nat.toUInt32

def isValid (text : String) : OptionValue → Bool
  | .path => text != ""
  | .word => (word? text).isSome

def isName (arg : String) : Bool :=
  match arg.toList with
  | '-' :: _ :: _ => true
  | _ => false

def split (arg : String) : String × Option String :=
  let chars := arg.toList
  match chars.dropWhile (· != '=') with
  | _ :: value => (String.ofList (chars.takeWhile (· != '=')), some (String.ofList value))
  | [] => (arg, none)

def Sorted.addOption (sorted : Sorted) (option : ValueOption) (value : String) : Except Stop Sorted :=
  if !isValid value option.value || (!option.repeatable && (sorted.options.lookup option.name).isSome) then .error .usage
  else .ok { sorted with options := sorted.options ++ [(option.name, value)] }

def Sorted.addPlain (shape : CommandShape) (sorted : Sorted) (arg : String) : Except Stop Sorted :=
  if arg = "" ∨ shape.most.any (· ≤ sorted.plain.length) then .error .usage
  else .ok { sorted with plain := sorted.plain ++ [arg] }

def sort (shape : CommandShape) (sorted : Sorted) : List String → Except Stop Sorted
  | [] => .ok sorted
  | "--" :: rest => rest.foldlM (Sorted.addPlain shape) sorted
  | arg :: rest =>
    if !isName arg then (Sorted.addPlain shape sorted arg).bind fun sorted => sort shape sorted rest
    else if arg = "--help" ∨ "-h".isPrefixOf arg then .error .help
    else
      let (name, attached) := split arg
      if shape.flags.contains name then
        if attached.isSome || sorted.flags.contains name then .error .usage
        else sort shape { sorted with flags := sorted.flags ++ [name] } rest
      else
        match shape.options.find? (·.name == name), attached, rest with
        | some option, some value, rest =>
          (Sorted.addOption sorted option value).bind fun sorted => sort shape sorted rest
        | some option, none, value :: rest =>
          if isName value then .error .usage
          else (Sorted.addOption sorted option value).bind fun sorted => sort shape sorted rest
        | _, _, _ => .error .usage

def configOption : ValueOption := { name := "--config" }

def shape? : String → Option CommandShape
  | "info" => some { flags := ["--json", "--functions"], options := [configOption], most := some 1 }
  | "verify" => some { options := [configOption], most := none }
  | "rewrite" => some {
      flags := ["--check-hash"], options := [configOption, { name := "--version", value := .word }], most := some 2 }
  | "patch" => some {
      flags := ["--no-verify"], options := [configOption, { name := "--defs", repeatable := true }], most := some 2 }
  | _ => none

def command? (name : String) (sorted : Sorted) : Option Command :=
  match name, sorted.plain with
  | "info", [file] => some (.info file (sorted.flags.contains "--json") (sorted.flags.contains "--functions"))
  | "verify", file :: files => some (.verify (file :: files))
  | "rewrite", [input, output] =>
    some (.resave input output ((sorted.options.lookup "--version").bind word?) (sorted.flags.contains "--check-hash"))
  | "patch", [input, output] =>
    let definitions := sorted.options.filterMap fun (name, value) => if name = "--defs" then some value else none
    some (.patch input output definitions (sorted.flags.contains "--no-verify"))
  | _, _ => none

-- What is asked for when help is: the commands by default, or one of them, which `help` is too.
def ofHelp : List String → Stop
  | [] => .help
  | [name] => if name = "help" ∨ (shape? name).isSome then .help else .usage
  | _ => .usage

def ofCommand (config : Option String) (name : String) (args : List String) : Except Stop Invocation :=
  match shape? name with
  | none => .error (if name = "help" then ofHelp args else .usage)
  | some shape =>
    match sort shape {} args with
    | .error stop => .error stop
    | .ok sorted =>
      match command? name sorted with
      | none => .error .usage
      | some command => .ok ⟨(sorted.options.lookup "--config").or config, command⟩

def parse (config : Option String) : List String → Except Stop Invocation
  | [] => .error .usage
  | arg :: rest =>
    if !isName arg then ofCommand config arg rest
    else if arg = "--version" ∨ "-V".isPrefixOf arg then .error .version
    else if arg = "--help" ∨ "-h".isPrefixOf arg then .error .help
    else
      match split arg, rest with
      | ("--config", some value), rest => if value = "" ∨ config.isSome then .error .usage else parse (some value) rest
      | ("--config", none), value :: rest =>
        if isName value ∨ value = "" ∨ config.isSome then .error .usage else parse (some value) rest
      | _, _ => .error .usage

end Arguments
end CodeImage
