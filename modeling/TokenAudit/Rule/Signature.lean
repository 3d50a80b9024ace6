import TokenAudit.ContractType.Reader
import TokenAudit.Text.Word

/-!
# Interface signatures

`function f(T a, …) … returns (R)` and `event E(T indexed a, …)` as standards write them.  `int` and
`uint` are read as their 256-bit forms; data locations are dropped.
-/

namespace TokenAudit

structure SigParam where
  type : ContractType
  name : Option String
  indexed : Bool
  deriving DecidableEq, Repr

structure Signature where
  isEvent : Bool
  name : String
  params : List SigParam
  returns : List ContractType
  deriving DecidableEq, Repr

inductive SignatureError where
  | malformed (text : String)
  | type (error : ContractType.ReadError)
  deriving DecidableEq, Repr

def SignatureError.message : SignatureError → String
  | .malformed text => "malformed interface `" ++ text ++ "`"
  | .type error => error.message

namespace Signature

/-! ## Types -/

def widen (word : List Char) : List Char :=
  if word = ['i', 'n', 't'] ∨ word = ['u', 'i', 'n', 't'] then word ++ ['2', '5', '6'] else word

/-- The text with the words `int` and `uint` replaced by their 256-bit forms. -/
def normalizeChars (cs : List Char) : List Char := Text.mapRuns widen cs

def normalizeType (text : String) : String := String.ofList (normalizeChars text.toList)

/-! ## Parentheses -/

def untilClose : Nat → List Char → Option (List Char × List Char)
  | _, [] => none
  | depth, c :: rest =>
    if c == ')' then
      match depth with
      | 0 => some ([], rest)
      | depth + 1 => (untilClose depth rest).map fun (inner, tail) => (c :: inner, tail)
    else
      (untilClose (if c == '(' then depth + 1 else depth) rest).map fun (inner, tail) => (c :: inner, tail)

def depthAfter (depth : Int) (c : Char) : Int :=
  if c == '(' then depth + 1 else if c == ')' then depth - 1 else depth

def pieces : Int → List Char → List (List Char)
  | _, [] => [[]]
  | depth, c :: rest =>
    if c == ',' && depth == 0 then [] :: pieces depth rest
    else
      match pieces (depthAfter depth c) rest with
      | first :: more => (c :: first) :: more
      | [] => [[c]]

def splitItems (cs : List Char) : List (List Char) :=
  match (pieces 0 cs).map Text.trim with
  | [only] => if only.isEmpty then [] else [only]
  | items => items

/-! ## Parameters -/

/-- Splits at the first space outside of parentheses that does not follow the word `mapping`. -/
def splitType : Int → List Char → List Char → List Char × List Char
  | _, before, [] => (before.reverse, [])
  | depth, before, c :: rest =>
    if c == ' ' && depth == 0 && !Text.endsWith (Text.dropBlanksRight before.reverse) "mapping" then
      (before.reverse, c :: rest)
    else splitType (depthAfter depth c) (c :: before) rest

def isLocation (word : String) : Bool := word == "memory" || word == "calldata" || word == "storage"

/-- Reads the words behind a type: the marker of an event parameter, a data location, or the name. -/
def addWord (isEvent : Bool) (p : SigParam) (word : String) : SigParam :=
  if isEvent && word == "indexed" then { p with indexed := true }
  else if isLocation word then p
  else { p with name := some word }

def readParam (isEvent : Bool) (cs : List Char) : Except SignatureError SigParam :=
  let (typeText, tail) := splitType 0 [] cs
  match ContractType.read (String.ofList (normalizeChars typeText)) with
  | .error e => .error (.type e)
  | .ok type =>
    .ok (((Text.words tail).map String.ofList).foldl (addWord isEvent) ⟨type, none, false⟩)

def readParams (isEvent : Bool) : List (List Char) → Except SignatureError (List SigParam)
  | [] => .ok []
  | p :: rest =>
    match readParam isEvent p with
    | .error e => .error e
    | .ok p => (readParams isEvent rest).map (p :: ·)

/-! ## The whole -/

def isNameStart (c : Char) : Bool := c.isAlpha || c == '_' || c == '$'

def isNameChar (c : Char) : Bool := isNameStart c || c.isDigit

def keyword? (cs : List Char) : Option (Bool × List Char) :=
  let afterWord (isEvent : Bool) (rest : List Char) : Option (Bool × List Char) :=
    if (rest.head?.map Text.isBlank).getD false then some (isEvent, Text.dropBlanks rest) else none
  match Text.after? "function".toList cs with
  | some rest => afterWord false rest
  | none =>
    match Text.after? "event".toList cs with
    | some rest => afterWord true rest
    | none => none

def head? (cs : List Char) : Option (Bool × List Char × List Char) := do
  let (isEvent, rest) ← keyword? (Text.dropBlanks cs)
  let (name, rest) := rest.span isNameChar
  if !(name.head?.map isNameStart).getD false then none
  let rest ← Text.after? ['('] (Text.dropBlanks rest)
  return (isEvent, name, rest)

def behind? (word : List Char) : List Char → Option (List Char)
  | [] => Text.after? word []
  | c :: rest =>
    match Text.after? word (c :: rest) with
    | some tail => some tail
    | none => behind? word rest

def readReturns (whole : String) (tail : List Char) : Except SignatureError (List ContractType) :=
  match behind? "returns".toList tail with
  | none => .ok []
  | some rest =>
    match (behind? ['('] rest).bind (untilClose 0) with
    | none => .error (.malformed whole)
    | some (inner, _) => (readParams false (splitItems inner)).map fun ps => ps.map SigParam.type

def read (text : String) : Except SignatureError Signature := do
  let (isEvent, name, rest) ← (head? text.toList).elim (.error (.malformed text)) .ok
  let (inner, tail) ← (untilClose 0 rest).elim (.error (.malformed text)) .ok
  let params ← readParams isEvent (splitItems inner)
  let returns ← readReturns text tail
  return ⟨isEvent, String.ofList name, params, returns⟩

def paramTypes (s : Signature) : List ContractType := s.params.map SigParam.type

def canonicalParam (p : SigParam) : String :=
  if p.indexed then p.type.render ++ " indexed" else p.type.render

def canonical (s : Signature) : String :=
  s.name ++ "(" ++ ",".intercalate (s.params.map canonicalParam) ++ ")"

end Signature

end TokenAudit
