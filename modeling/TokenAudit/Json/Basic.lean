import TokenAudit.Number.Binary64
import TokenAudit.Text.Quoted

/-!
# JSON values

A number without fraction and exponent that fits 64 bits is an integer; any other number is a double.

A part of a well-formed text that has no value, such as a number beyond the doubles or half of a surrogate pair, is
`unusable`.
-/

namespace TokenAudit

inductive Json where
  | null
  | bool (value : Bool)
  | int (value : Int)
  | real (value : Number.Binary64)
  | str (value : String)
  | arr (items : List Json)
  | obj (members : List (String × Json))
  | unusable
  deriving Inhabited

namespace Json

abbrev Members := List (String × Json)

def putMember (name : String) (value : Json) : Members → Members
  | [] => [(name, value)]
  | (n, v) :: rest =>
    match compare name n with
    | .lt => (name, value) :: (n, v) :: rest
    | .eq => (n, value) :: rest
    | .gt => (n, v) :: putMember name value rest

mutual

def normal : Json → Json
  | .arr items => .arr (normalItems items)
  | .obj members => .obj (normalMembers [] members)
  | j => j

def normalItems : List Json → List Json
  | [] => []
  | j :: rest => normal j :: normalItems rest

def normalMembers : Members → Members → Members
  | acc, [] => acc
  | acc, (n, v) :: rest => normalMembers (putMember n (normal v) acc) rest

end

mutual

def usable : Json → Bool
  | .arr items => usableItems items
  | .obj members => usableMembers members
  | .unusable => false
  | _ => true

def usableItems : List Json → Bool
  | [] => true
  | j :: rest => usable j && usableItems rest

def usableMembers : Members → Bool
  | [] => true
  | (_, v) :: rest => usable v && usableMembers rest

end

/-! ## Writing -/

def hexDigit (n : Nat) : Char := (Nat.toDigits 16 n).headD '0'

def escapeChar (c : Char) : String :=
  if c == '"' then "\\\""
  else if c == '\\' then "\\\\"
  else if c == '\n' then "\\n"
  else if c == '\r' then "\\r"
  else if c == '\t' then "\\t"
  else if c.toNat == 8 then "\\b"
  else if c.toNat == 12 then "\\f"
  else if c.toNat < 32 then
    "\\u00" ++ String.ofList [hexDigit (c.toNat / 16), hexDigit (c.toNat % 16)]
  else c.toString

def escape (s : String) : String := "\"" ++ String.join (s.toList.map escapeChar) ++ "\""

mutual

def compact : Json → String
  | .null => "null"
  | .unusable => "null"
  | .bool b => if b then "true" else "false"
  | .int i => toString i
  | .real x => x.render
  | .str s => escape s
  | .arr items => "[" ++ ",".intercalate (compactItems items) ++ "]"
  | .obj members => "\x7b" ++ ",".intercalate (compactMembers members) ++ "\x7d"

def compactItems : List Json → List String
  | [] => []
  | j :: rest => compact j :: compactItems rest

def compactMembers : Members → List String
  | [] => []
  | (n, v) :: rest => (escape n ++ ":" ++ compact v) :: compactMembers rest

end

def indent (depth : Nat) : String := String.ofList (List.replicate (2 * depth) ' ')

mutual

def prettyAt (depth : Nat) : Json → String
  | .arr [] => "[]"
  | .arr (j :: rest) =>
    "[\n" ++ ",\n".intercalate (prettyItems (depth + 1) (j :: rest)) ++ "\n" ++ indent depth ++ "]"
  | .obj [] => "\x7b\x7d"
  | .obj (m :: rest) =>
    "\x7b\n" ++ ",\n".intercalate (prettyMembers (depth + 1) (m :: rest)) ++ "\n" ++ indent depth ++ "\x7d"
  | j => compact j

def prettyItems (depth : Nat) : List Json → List String
  | [] => []
  | j :: rest => (indent depth ++ prettyAt depth j) :: prettyItems depth rest

def prettyMembers (depth : Nat) : Members → List String
  | [] => []
  | (n, v) :: rest => (indent depth ++ escape n ++ ": " ++ prettyAt depth v) :: prettyMembers depth rest

end

def pretty (j : Json) : String := prettyAt 0 j

end Json

end TokenAudit
