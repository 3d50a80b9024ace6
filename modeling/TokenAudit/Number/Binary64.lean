/-!
# Doubles in exact arithmetic

A finite double is a sign, a mantissa below `2 ^ 53` and a power of two.  Every operation is computed exactly and then
rounded to the nearest double, an exact half to the even mantissa.
-/

namespace TokenAudit.Number

structure Binary64 where
  negative : Bool
  mantissa : Nat
  exponent : Int
  deriving DecidableEq, Repr

namespace Binary64

def minExponent : Int := -1074

def maxExponent : Int := 971

def leadingBit : Nat := 4503599627370496

def zero (negative : Bool) : Binary64 := ⟨negative, 0, minExponent⟩

def scaleBy (num den : Nat) (e : Int) : Nat × Nat :=
  if e < 0 then (num * Nat.pow 2 (-e).toNat, den) else (num, den * Nat.pow 2 e.toNat)

def roundHalfEven (num den : Nat) : Nat :=
  let q := num / den
  let twice := 2 * (num % den)
  if twice < den then q else if den < twice then q + 1 else if q % 2 = 0 then q else q + 1

def ofRatio (negative : Bool) (num den : Nat) : Option Binary64 :=
  if num = 0 then some (zero negative) else
  let guess : Int := (Nat.log2 num : Int) - (Nat.log2 den : Int) - 52
  let (n, d) := scaleBy num den guess
  let e := max minExponent (if n < leadingBit * d then guess - 1 else guess)
  let (n, d) := scaleBy num den e
  let m := roundHalfEven n d
  let (m, e) := if m = 2 * leadingBit then (leadingBit, e + 1) else (m, e)
  if maxExponent < e then none else some ⟨negative, m, e⟩

def ratio (x : Binary64) : Nat × Nat :=
  if x.exponent < 0 then (x.mantissa, Nat.pow 2 (-x.exponent).toNat) else (x.mantissa * Nat.pow 2 x.exponent.toNat, 1)

def ofNat (n : Nat) : Option Binary64 := ofRatio false n 1

def mul (x y : Binary64) : Option Binary64 :=
  let (a, b) := x.ratio
  let (c, d) := y.ratio
  ofRatio (x.negative != y.negative) (a * c) (b * d)

def div (x y : Binary64) : Option Binary64 :=
  let (a, b) := x.ratio
  let (c, d) := y.ratio
  ofRatio (x.negative != y.negative) (a * d) (b * c)

def powerOfTen (k : Nat) : Option Binary64 := ofNat (Nat.pow 10 k)

/-- Scales `x` by ten to the power `e`, one rounding for each factor of at most `10 ^ 308`.
Two factors already bring every 64-bit significand to zero, so three rounds are enough. -/
def scaleTen : Nat → Binary64 → Int → Option Binary64
  | 0, x, _ => some (zero x.negative)
  | rounds + 1, x, e =>
    if e.natAbs ≤ 308 then
      match powerOfTen e.natAbs with
      | some p => if e < 0 then x.div p else x.mul p
      | none => none
    else if x.mantissa = 0 then some x
    else if 0 < e then none
    else
      match powerOfTen 308 with
      | some p =>
        match x.div p with
        | some y => scaleTen rounds y (e + 308)
        | none => none
      | none => none

def ofDecimal (negative : Bool) (significand : Nat) (e : Int) : Option Binary64 :=
  match ofNat significand with
  | some x => (scaleTen 4 x e).map fun y => { y with negative := negative }
  | none => none

/-! ## Shortest decimal digits -/

def leadingZeros (num den : Nat) : Nat → Nat
  | 0 => 0
  | fuel + 1 => if den ≤ num then 0 else leadingZeros (num * 10) den fuel + 1

def magnitude (num den : Nat) : Int :=
  if den ≤ num then ((Nat.toDigits 10 (num / den)).length : Int) - 1
  else -(leadingZeros num den 400 : Int)

structure Decimal where
  digits : Nat
  power : Int
  deriving DecidableEq, Repr

def Decimal.over (d : Decimal) (den : Nat) : Nat × Nat :=
  if d.power < 0 then (d.digits * den, Nat.pow 10 (-d.power).toNat) else (d.digits * Nat.pow 10 d.power.toNat * den, 1)

/-- The neighbour of `x` with `count` digits that lies in the interval of numbers rounding to `x`. -/
def candidate (x : Binary64) (count : Nat) : Option Decimal :=
  let (num, den) := ({ x with mantissa := 4 * x.mantissa } : Binary64).ratio
  let den := 4 * den
  let below := if x.mantissa = leadingBit ∧ minExponent < x.exponent then 1 else 2
  let unit := num / (4 * x.mantissa)
  let lo := num - below * unit
  let hi := num + 2 * unit
  let closed := x.mantissa % 2 = 0
  let power := magnitude num den - (count : Int) + 1
  let digits := if power < 0 then num * Nat.pow 10 (-power).toNat / den else num / (den * Nat.pow 10 power.toNat)
  let inside (d : Decimal) : Bool :=
    let (n, m) := d.over den
    if closed then lo * m ≤ n && n ≤ hi * m else lo * m < n && n < hi * m
  let distance (d : Decimal) : Nat :=
    let (n, m) := d.over den
    (n - num * m) + (num * m - n)
  let floor : Decimal := ⟨digits, power⟩
  let ceil : Decimal := ⟨digits + 1, power⟩
  match inside floor, inside ceil with
  | true, true =>
    if distance floor < distance ceil then some floor
    else if distance ceil < distance floor then some ceil
    else if digits % 2 = 0 then some floor else some ceil
  | true, false => some floor
  | false, true => some ceil
  | false, false => none

def shortest (x : Binary64) : Decimal :=
  ((List.range 17).findSome? fun i => candidate x (i + 1)).getD ⟨0, 0⟩

def Decimal.reduce : Nat → Decimal → Decimal
  | 0, d => d
  | fuel + 1, d => if d.digits ≠ 0 ∧ d.digits % 10 = 0 then reduce fuel ⟨d.digits / 10, d.power + 1⟩ else d

def zeros (n : Nat) : List Char := List.replicate n '0'

def exponentMark (e : Int) : List Char := 'e' :: (if e < 0 then '-' else '+') :: Nat.toDigits 10 e.natAbs

/-- Positional notation from `10 ^ -5` up to `10 ^ 16`, always with a decimal point. -/
def Decimal.render (d : Decimal) : List Char :=
  let ds := Nat.toDigits 10 d.digits
  let len : Int := ds.length
  let point := len + d.power
  if 0 ≤ d.power ∧ point ≤ 16 then ds ++ zeros d.power.toNat ++ ['.', '0']
  else if 0 < point ∧ point ≤ 16 then ds.take point.toNat ++ '.' :: ds.drop point.toNat
  else if -5 < point ∧ point ≤ 0 then '0' :: '.' :: zeros (-point).toNat ++ ds
  else
    let mark := exponentMark (point - 1)
    match ds with
    | [d] => d :: mark
    | d :: rest => d :: '.' :: rest ++ mark
    | [] => mark

def render (x : Binary64) : String :=
  let body := if x.mantissa = 0 then ['0', '.', '0'] else (x.shortest.reduce 20).render
  String.ofList (if x.negative then '-' :: body else body)

end Binary64

end TokenAudit.Number
