import TokenAudit.Json.Basic
import TokenAudit.Number.Literal
import TokenAudit.Number.Word

/-!
# Reading JSON text

The text is cut into tokens, and a pushdown reader assembles the tokens into one value.  `scan` gives the value of a
well-formed text, `read` only one that is usable throughout.
-/

namespace TokenAudit.Json

inductive Token where
  | openArray
  | closeArray
  | openObject
  | closeObject
  | comma
  | colon
  | text (value : Option String)
  | scalar (value : Json)
  deriving Inhabited

/-! ## Tokens -/

def isSpace (c : Char) : Bool := c == ' ' || c == '\n' || c == '\t' || c == '\r'

def hexUnit (a b c d : Char) : Option Nat := Number.readHex [a, b, c, d]

def simpleEscape? (c : Char) : Option Char :=
  if c == '"' || c == '\\' || c == '/' then some c
  else if c == 'n' then some '\n'
  else if c == 'r' then some '\r'
  else if c == 't' then some '\t'
  else if c == 'b' then some (Char.ofNat 8)
  else if c == 'f' then some (Char.ofNat 12)
  else none

/-- Reads a string up to its closing quote: its code units in reverse and what follows. -/
def readString : List Nat → List Char → Option (List Nat × List Char)
  | _, [] => none
  | acc, '"' :: rest => some (acc, rest)
  | acc, '\\' :: 'u' :: a :: b :: c :: d :: rest =>
    match hexUnit a b c d with
    | some unit => readString (unit :: acc) rest
    | none => none
  | acc, '\\' :: c :: rest =>
    match simpleEscape? c with
    | some e => readString (e.toNat :: acc) rest
    | none => none
  | acc, c :: rest => if c.toNat < 32 ∨ c = '\\' then none else readString (c.toNat :: acc) rest

def isHighSurrogate (unit : Nat) : Bool := 0xD800 ≤ unit && unit < 0xDC00

def isLowSurrogate (unit : Nat) : Bool := 0xDC00 ≤ unit && unit < 0xE000

def surrogatePair (high low : Nat) : Char := Char.ofNat (0x10000 + (high - 0xD800) * 0x400 + (low - 0xDC00))

/-- The characters of code units in reverse, put before `acc`; none when a surrogate stands alone. -/
def joinUnits : List Char → List Nat → Option (List Char)
  | acc, [] => some acc
  | acc, unit :: rest =>
    if isLowSurrogate unit then
      match rest with
      | high :: rest => if isHighSurrogate high then joinUnits (surrogatePair high unit :: acc) rest else none
      | [] => none
    else if isHighSurrogate unit then none
    else joinUnits (Char.ofNat unit :: acc) rest

def isDigit (c : Char) : Bool := (Number.decimalDigit? c).isSome

def digitOf (c : Char) : Nat := (Number.decimalDigit? c).getD 0

/-- The significand of the digits before the point, with the count of digits dropped once one more
would pass 64 bits. -/
def wholeDigits : Nat → Nat → List Char → Nat × Nat
  | sig, dropped, [] => (sig, dropped)
  | sig, dropped, c :: rest =>
    if 0 < dropped ∨ Number.wordLimit ≤ sig * 10 + digitOf c then wholeDigits sig (dropped + 1) rest
    else wholeDigits (sig * 10 + digitOf c) 0 rest

/-- The significand continued behind the point, with the count of digits taken; digits are ignored
from the first one that would pass 64 bits. -/
def fractionDigits : Nat → Nat → List Char → Nat × Nat
  | sig, taken, [] => (sig, taken)
  | sig, taken, c :: rest =>
    if Number.wordLimit ≤ sig * 10 + digitOf c then (sig, taken)
    else fractionDigits (sig * 10 + digitOf c) (taken + 1) rest

structure Numeral where
  negative : Bool
  whole : List Char
  fraction : Option (List Char)
  exponent : Option Int

def readFraction : List Char → Option (Option (List Char) × List Char)
  | '.' :: rest =>
    let (ds, rest) := rest.span isDigit
    if ds.isEmpty then none else some (some ds, rest)
  | cs => some (none, cs)

def readExponent : List Char → Option (Option Int × List Char)
  | c :: rest =>
    if c == 'e' || c == 'E' then
      let (sign, rest) :=
        match rest with
        | '+' :: rest => ((1 : Int), rest)
        | '-' :: rest => (-1, rest)
        | _ => (1, rest)
      let (ds, rest) := rest.span isDigit
      if ds.isEmpty then none
      else some (some (sign * (ds.foldl (fun n d => n * 10 + digitOf d) 0 : Nat)), rest)
    else some (none, c :: rest)
  | [] => some (none, [])

def readNumeral (cs : List Char) : Option (Numeral × List Char) := do
  let (negative, cs) := match cs with
    | '-' :: rest => (true, rest)
    | _ => (false, cs)
  let (whole, cs) := cs.span isDigit
  let wellFormed := match whole with
    | [] => false
    | d :: more => d != '0' || more.isEmpty
  if !wellFormed then none
  let (fraction, cs) ← readFraction cs
  let (exponent, cs) ← readExponent cs
  return (⟨negative, whole, fraction, exponent⟩, cs)

/-- An integer when there is neither fraction nor exponent and 64 bits hold it; minus zero and every
other number is a double, if one is large enough. -/
def Numeral.toJson (n : Numeral) : Option Json :=
  let (sig, dropped) := wholeDigits 0 0 n.whole
  match n.fraction, n.exponent with
  | none, none =>
    if dropped = 0 ∧ (!n.negative || (0 < sig && sig ≤ Number.signedLimit)) then
      some (.int (if n.negative then -(sig : Int) else sig))
    else (Number.Binary64.ofDecimal n.negative sig dropped).map .real
  | fraction, exponent =>
    let (sig, taken) := fractionDigits sig 0 (fraction.getD [])
    (Number.Binary64.ofDecimal n.negative sig ((dropped : Int) - taken + exponent.getD 0)).map .real

def readToken (cs : List Char) : Option (Token × List Char) :=
  match cs with
  | '[' :: rest => some (.openArray, rest)
  | ']' :: rest => some (.closeArray, rest)
  | '\x7b' :: rest => some (.openObject, rest)
  | '\x7d' :: rest => some (.closeObject, rest)
  | ',' :: rest => some (.comma, rest)
  | ':' :: rest => some (.colon, rest)
  | '"' :: rest =>
    (readString [] rest).map fun (units, rest) => (.text ((joinUnits [] units).map String.ofList), rest)
  | 't' :: 'r' :: 'u' :: 'e' :: rest => some (.scalar (.bool true), rest)
  | 'f' :: 'a' :: 'l' :: 's' :: 'e' :: rest => some (.scalar (.bool false), rest)
  | 'n' :: 'u' :: 'l' :: 'l' :: rest => some (.scalar .null, rest)
  | cs => (readNumeral cs).map fun (numeral, rest) => (.scalar (numeral.toJson.getD .unusable), rest)

/-- The tokens of a text, in reverse; every token takes a character, so the length is fuel enough. -/
def tokens : Nat → List Token → List Char → Option (List Token)
  | _, acc, [] => some acc
  | 0, _, _ :: _ => none
  | fuel + 1, acc, c :: rest =>
    if isSpace c then tokens fuel acc rest
    else
      match readToken (c :: rest) with
      | some (t, rest) => tokens fuel (t :: acc) rest
      | none => none

/-! ## Assembly -/

/-- Items or members in reverse.  A member has no name when its name is unusable. -/
inductive Open where
  | array (items : List Json)
  | object (members : List (Option String × Json))
  | member (members : List (Option String × Json)) (name : Option String)

inductive Expect where
  | value (orClose : Bool)
  | name (orClose : Bool)
  | colon
  | separator
  | nothing

structure Assembly where
  stack : List Open
  expect : Expect
  result : Json

def maxDepth : Nat := 127

def sealed (stack : List Open) (j : Json) : Json :=
  if (stack.drop (maxDepth - 1)).isEmpty then j else .unusable

def nameAll : Members → List (Option String × Json) → Option Members
  | acc, [] => some acc
  | acc, (some n, v) :: rest => nameAll ((n, v) :: acc) rest
  | _, (none, _) :: _ => none

def objectOf (members : List (Option String × Json)) : Json := ((nameAll [] members).map .obj).getD .unusable

def Assembly.give (s : Assembly) (j : Json) : Option Assembly :=
  match s.stack with
  | [] => some ⟨[], .nothing, j⟩
  | .array items :: rest => some ⟨.array (j :: items) :: rest, .separator, s.result⟩
  | .member members name :: rest => some ⟨.object ((name, j) :: members) :: rest, .separator, s.result⟩
  | .object _ :: _ => none

def Assembly.close (s : Assembly) (t : Token) : Option Assembly :=
  match s.stack, t with
  | .array items :: rest, .closeArray =>
    Assembly.give ⟨rest, s.expect, s.result⟩ (sealed rest (.arr items.reverse))
  | .object members :: rest, .closeObject =>
    Assembly.give ⟨rest, s.expect, s.result⟩ (sealed rest (objectOf members))
  | _, _ => none

def Assembly.feed (s : Assembly) (t : Token) : Option Assembly :=
  match s.expect, t with
  | .value _, .scalar j => s.give j
  | .value _, .text v => s.give ((v.map .str).getD .unusable)
  | .value _, .openArray => some ⟨.array [] :: s.stack, .value true, s.result⟩
  | .value _, .openObject => some ⟨.object [] :: s.stack, .name true, s.result⟩
  | .value true, .closeArray => s.close t
  | .name _, .text n =>
    match s.stack with
    | .object members :: rest => some ⟨.member members n :: rest, .colon, s.result⟩
    | _ => none
  | .name true, .closeObject => s.close t
  | .colon, .colon => some { s with expect := .value false }
  | .separator, .comma =>
    match s.stack with
    | .array _ :: _ => some { s with expect := .value false }
    | .object _ :: _ => some { s with expect := .name false }
    | _ => none
  | .separator, t => s.close t
  | _, _ => none

def assemble (ts : List Token) : Option Json := do
  let s ← ts.foldlM Assembly.feed ⟨[], .value false, .null⟩
  match s.expect with
  | .nothing => some s.result
  | _ => none

def scan (text : String) : Option Json := do
  let cs := text.toList
  let ts ← tokens cs.length [] cs
  assemble ts.reverse

def read (text : String) : Option Json := (scan text).filter usable

end TokenAudit.Json
