/-!
# Command-line options

Options and free arguments may be mixed.  An option has a long name and perhaps a letter; letters may be
grouped, and the rest of a group is the value of the first letter that takes one.
-/

namespace TokenAudit.Cli

structure OptionSpec where
  letter : Option Char
  name : String
  /-- What the value stands for; none for an option without value. -/
  hint : Option String
  description : String
  deriving DecidableEq, Repr

inductive OptionError where
  | unrecognized (option : String)
  | missingValue (option : String)
  | unexpectedValue (option : String)
  | repeated (option : String)
  deriving DecidableEq, Repr

def OptionError.message : OptionError → String
  | .unrecognized option => "Unrecognized option: '" ++ option ++ "'"
  | .missingValue option => "Argument to option '" ++ option ++ "' missing"
  | .unexpectedValue option => "Option '" ++ option ++ "' does not take an argument"
  | .repeated option => "Option '" ++ option ++ "' given more than once"

/-- Options with their values in the order given, and the free arguments. -/
structure Parsed where
  options : List (String × Option String)
  free : List String
  deriving DecidableEq, Repr

namespace Parsed

def present (p : Parsed) (name : String) : Bool := p.options.any fun o => o.1 == name

def value? (p : Parsed) (name : String) : Option String :=
  (p.options.find? fun o => o.1 == name).bind Prod.snd

def addOptions (p : Parsed) (options : List (String × Option String)) : Parsed :=
  { p with options := p.options ++ options }

def addFree (p : Parsed) (args : List String) : Parsed := { p with free := p.free ++ args }

end Parsed

def byLetter? (specs : List OptionSpec) (c : Char) : Option OptionSpec :=
  specs.find? fun s => s.letter == some c

def byName? (specs : List OptionSpec) (name : List Char) : Option OptionSpec :=
  match name with
  | [c] => byLetter? specs c
  | name => specs.find? fun s => s.name.toList == name

/-- An option as it stands in one argument: its spec, the spelling used, and the value attached to it. -/
structure Mention where
  spec : OptionSpec
  spelling : String
  attached : Option String

/-- The options of a group of letters: those without value, and the one with a value that ends it. -/
def group (specs : List OptionSpec) : List Char → Except OptionError (List String × Option Mention)
  | [] => .ok ([], none)
  | c :: rest =>
    match byLetter? specs c with
    | none => .error (.unrecognized (String.singleton c))
    | some spec =>
      if spec.hint.isSome then
        .ok ([], some ⟨spec, String.singleton c, if rest.isEmpty then none else some (String.ofList rest)⟩)
      else (group specs rest).map fun (flags, last) => (spec.name :: flags, last)

def longOption (specs : List OptionSpec) (cs : List Char) : Except OptionError Mention :=
  let name := cs.takeWhile (· != '=')
  let attached := match cs.dropWhile (· != '=') with
    | [] => none
    | _ :: value => some (String.ofList value)
  match byName? specs name with
  | none => .error (.unrecognized (String.ofList name))
  | some spec => .ok ⟨spec, String.ofList name, attached⟩

def mentions (specs : List OptionSpec) : List Char → Except OptionError (List String × Option Mention)
  | '-' :: cs => (longOption specs cs).map fun m => ([], some m)
  | cs => group specs cs

def parseFrom (specs : List OptionSpec) : Parsed → List String → Except OptionError Parsed
  | p, [] => .ok p
  | p, arg :: rest =>
    match arg.toList with
    | ['-', '-'] => .ok (p.addFree rest)
    | '-' :: c :: cs =>
      match mentions specs (c :: cs) with
      | .error e => .error e
      | .ok (flags, last) =>
        let p := p.addOptions (flags.map fun f => (f, none))
        match last with
        | none => parseFrom specs p rest
        | some ⟨spec, spelling, attached⟩ =>
          match spec.hint.isSome, attached, rest with
          | false, some _, _ => .error (.unexpectedValue spelling)
          | false, none, rest => parseFrom specs (p.addOptions [(spec.name, none)]) rest
          | true, some value, rest => parseFrom specs (p.addOptions [(spec.name, some value)]) rest
          | true, none, value :: rest => parseFrom specs (p.addOptions [(spec.name, some value)]) rest
          | true, none, [] => .error (.missingValue spelling)
    | _ => parseFrom specs (p.addFree [arg]) rest

def repeated? (specs : List OptionSpec) (p : Parsed) : Option String :=
  (specs.find? fun s => 1 < (p.options.filter fun o => o.1 == s.name).length).map OptionSpec.name

def parse (specs : List OptionSpec) (args : List String) : Except OptionError Parsed := do
  let p ← parseFrom specs ⟨[], []⟩ args
  match repeated? specs p with
  | some name => .error (.repeated name)
  | none => .ok p

/-! ## Usage -/

def descriptionColumn : Nat := 24

def blanks (n : Nat) : String := String.ofList (List.replicate n ' ')

def OptionSpec.line (s : OptionSpec) : String :=
  let letter := match s.letter with
    | some c => "-" ++ String.singleton c ++ ", "
    | none => "    "
  let head := "    " ++ letter ++ "--" ++ s.name ++ " " ++ s.hint.getD ""
  if head.length < descriptionColumn then head ++ blanks (descriptionColumn - head.length) ++ s.description
  else head ++ "\n" ++ blanks descriptionColumn ++ s.description

def usage (specs : List OptionSpec) (brief : String) : String :=
  brief ++ "\n\nOptions:\n" ++ "\n".intercalate (specs.map OptionSpec.line) ++ "\n"

end TokenAudit.Cli
