import TokenAudit.ContractType.Basic
import TokenAudit.Number.Literal
import TokenAudit.Number.Word

/-!
# Reading types

A name runs up to the next bracket, parenthesis, comma or equals sign; `contract`, `struct` or `enum` before it and
`payable` behind it are dropped.  An error names the byte at which reading stopped.
-/

namespace TokenAudit.ContractType

inductive Expected where
  | endOfInput
  | arrow
  | mappingEnd
  | tupleSeparator
  | arrayEnd
  | typeName
  deriving DecidableEq, Repr

def Expected.message : Expected → String
  | .endOfInput => "trailing input"
  | .arrow => "expected `=>`"
  | .mappingEnd => "unclosed mapping"
  | .tupleSeparator => "expected `,` or `)` in tuple"
  | .arrayEnd => "unclosed array suffix"
  | .typeName => "expected a type name"

structure ReadError where
  input : String
  position : Nat
  expected : Expected
  deriving DecidableEq, Repr

def ReadError.message (e : ReadError) : String :=
  "cannot parse type `" ++ e.input ++ "` at byte " ++ toString e.position ++ ": " ++ e.expected.message

structure Stop where
  expected : Expected
  rest : List Char
  deriving DecidableEq, Repr

def eat (token : String) (cs : List Char) : Option (List Char) :=
  Text.after? token.toList (Text.dropBlanks cs)

def expect (token : String) (expected : Expected) (cs : List Char) : Except Stop (List Char) :=
  match eat token cs with
  | some rest => .ok rest
  | none => .error ⟨expected, Text.dropBlanks cs⟩

def endsName (c : Char) : Bool :=
  c == '[' || c == ']' || c == ',' || c == '(' || c == ')' || c == '='

def dropWord (word : String) (cs : List Char) : List Char :=
  match Text.after? word.toList cs with
  | some rest => Text.trim rest
  | none => cs

def dropPayable (cs : List Char) : List Char :=
  if Text.endsWith cs " payable" then cs.take (cs.length - 8) else cs

def plainName (cs : List Char) : List Char :=
  Text.trim (dropPayable (dropWord "enum " (dropWord "struct " (dropWord "contract " cs))))

def readName (cs : List Char) : Except Stop (ContractType × List Char) :=
  let (raw, rest) := cs.span fun c => !endsName c
  let name := Text.trim raw
  if name.isEmpty then .error ⟨.typeName, cs⟩ else .ok (.named (String.ofList (plainName name)), rest)

/-- A length in brackets; one that 64 bits do not hold counts as none. -/
def lengthOf (digits : List Char) : Option Nat :=
  (Number.readNat digits).bind Number.word?

def isDigit (c : Char) : Bool := (Number.decimalDigit? c).isSome

/-- Array suffixes behind a type; every one takes a character, so the length is fuel enough. -/
def readSuffixes : Nat → ContractType → List Char → Except Stop (ContractType × List Char)
  | 0, t, cs => .ok (t, cs)
  | fuel + 1, t, cs =>
    match eat "[" cs with
    | none => .ok (t, Text.dropBlanks cs)
    | some rest =>
      let (digits, rest) := rest.span isDigit
      match expect "]" .arrayEnd rest with
      | .ok rest => readSuffixes fuel (.array t (lengthOf digits)) rest
      | .error e => .error e

mutual

/-- A type and what follows it.  Every nested type stands behind a character of its own. -/
def readType : Nat → List Char → Except Stop (ContractType × List Char)
  | 0, cs => .error ⟨.typeName, cs⟩
  | fuel + 1, cs => do
    let cs := Text.dropBlanks cs
    let (t, rest) ←
      match (eat "mapping(" cs).or (eat "mapping (" cs) with
      | some rest => do
        let (key, rest) ← readType fuel rest
        let rest ← expect "=>" .arrow rest
        let (value, rest) ← readType fuel rest
        let rest ← expect ")" .mappingEnd rest
        pure (.mapping key value, rest)
      | none =>
        match eat "(" cs with
        | some rest =>
          match eat ")" rest with
          | some rest => pure (.tuple [], rest)
          | none => do
            let (items, rest) ← readItems fuel rest
            pure (.tuple items, rest)
        | none => readName cs
    readSuffixes rest.length t rest

def readItems : Nat → List Char → Except Stop (List ContractType × List Char)
  | 0, cs => .error ⟨.typeName, cs⟩
  | fuel + 1, cs => do
    let (item, rest) ← readType fuel cs
    match eat ")" rest with
    | some rest => pure ([item], rest)
    | none => do
      let rest ← expect "," .tupleSeparator rest
      let (items, rest) ← readItems fuel rest
      pure (item :: items, rest)

end

def read (text : String) : Except ReadError ContractType :=
  let cs := text.toList
  let stopAt (s : Stop) : ReadError := ⟨text, Text.byteLength cs - Text.byteLength s.rest, s.expected⟩
  match readType (2 * cs.length + 2) cs with
  | .error s => .error (stopAt s)
  | .ok (t, rest) =>
    let rest := Text.dropBlanks rest
    if rest.isEmpty then .ok t else .error (stopAt ⟨.endOfInput, rest⟩)

def read? (text : String) : Option ContractType := (read text).toOption

end TokenAudit.ContractType
