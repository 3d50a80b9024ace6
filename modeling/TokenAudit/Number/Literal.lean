import TokenAudit.Text.Blank

/-!
# Integer literals

A decimal literal starts with a digit and may hold underscores after it; a hexadecimal literal holds digits only,
and with none of them it is zero.
-/

namespace TokenAudit.Number

def decimalDigit? (c : Char) : Option Nat :=
  if '0' ≤ c ∧ c ≤ '9' then some (c.toNat - '0'.toNat) else none

def hexDigit? (c : Char) : Option Nat :=
  if '0' ≤ c ∧ c ≤ '9' then some (c.toNat - '0'.toNat)
  else if 'a' ≤ c ∧ c ≤ 'f' then some (c.toNat - 'a'.toNat + 10)
  else if 'A' ≤ c ∧ c ≤ 'F' then some (c.toNat - 'A'.toNat + 10)
  else none

/-- The bytes that the digits stand for, two to a byte. -/
def hexBytes : List Char → Option (List Nat)
  | [] => some []
  | [_] => none
  | high :: low :: rest => do
    let h ← hexDigit? high
    let l ← hexDigit? low
    let bytes ← hexBytes rest
    some ((16 * h + l) :: bytes)

def ofBytes (bytes : List Nat) : Nat := bytes.foldl (256 * · + ·) 0

/-- An odd number of digits is read with a zero before them. -/
def readHex (digits : List Char) : Option Nat :=
  let padded := if digits.length % 2 = 1 then '0' :: digits else digits
  (hexBytes padded).map ofBytes

def readDigits : Nat → List Char → Option Nat
  | acc, [] => some acc
  | acc, '_' :: rest => readDigits acc rest
  | acc, c :: rest =>
    match decimalDigit? c with
    | some d => readDigits (10 * acc + d) rest
    | none => none

def readNat : List Char → Option Nat
  | [] => none
  | c :: rest =>
    match decimalDigit? c with
    | some d => readDigits d rest
    | none => none

def readInt : List Char → Option Int
  | '-' :: rest => (readNat rest).map fun n => -(n : Int)
  | '+' :: rest => (readNat rest).map Int.ofNat
  | cs => (readNat cs).map Int.ofNat

def readLiteral (s : String) : Option Int :=
  match Text.trim s.toList with
  | '0' :: 'x' :: digits => (readHex digits).map Int.ofNat
  | '0' :: 'X' :: digits => (readHex digits).map Int.ofNat
  | cs => readInt cs

end TokenAudit.Number
