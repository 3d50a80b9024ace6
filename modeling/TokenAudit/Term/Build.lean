import TokenAudit.Term.Basic

/-!
# Building terms

One function for each operator: it refuses operands of the wrong sort, folds literals, and drops neutral operands.
-/

namespace TokenAudit

inductive SortError where
  | mismatch (context : String) (left right : SmtSort)
  | predicate (sort : SmtSort)
  deriving DecidableEq, Repr

def SortError.message : SortError → String
  | .mismatch context left right => context ++ ": " ++ left.describe ++ " vs " ++ right.describe
  | .predicate sort => "predicate of sort " ++ sort.describe

namespace Term

def mismatch (context : String) (a b : Term) : SortError := .mismatch context a.sort b.sort

/-! ## Fitting a literal to a sort -/

def coerce : SmtSort → Term → Term
  | .bool, .int i => if i = 0 then .bool false else if i = 1 then .bool true else .int i
  | .int, .bool b => .int (if b then 1 else 0)
  | _, t => t

def fit (sort : SmtSort) (t : Term) : Option Term :=
  let t := coerce sort t
  if t.sort = sort then some t else none

def coercePair (a b : Term) : Term × Term :=
  let b := coerce a.sort b
  (coerce b.sort a, b)

/-! ## Connectives -/

def mkNot : Term → Term
  | .bool b => .bool !b
  | .not t => t
  | t => .not t

/-- The parts of a junction with one level of the same junction opened and neutral literals dropped;
none when an absorbing literal comes first. -/
def flatten (j : Junction) : List Term → Option (List Term)
  | [] => some []
  | .bool b :: rest => if b = j.neutral then flatten j rest else none
  | .junction j' ts :: rest =>
    if j' = j then (flatten j rest).map (ts ++ ·) else (flatten j rest).map (.junction j' ts :: ·)
  | t :: rest => (flatten j rest).map (t :: ·)

def mkJunction (j : Junction) (ts : List Term) : Term :=
  match flatten j ts with
  | none => .bool !j.neutral
  | some [] => .bool j.neutral
  | some [t] => t
  | some flat => .junction j flat

def mkAnd (ts : List Term) : Term := mkJunction .all ts

def mkOr (ts : List Term) : Term := mkJunction .any ts

def mkImplies (a b : Term) : Term := mkOr [mkNot a, b]

/-! ## Equality and order -/

def mkEq (a b : Term) : Except SortError Term :=
  let (a, b) := coercePair a b
  if a.sort ≠ b.sort then .error (mismatch "==" a b)
  else
    match a, b with
    | .int x, .int y => .ok (.bool (x == y))
    | .bool x, .bool y => .ok (.bool (x == y))
    | .str x, .str y => .ok (.bool (x == y))
    | a, b => .ok (if a = b then .bool true else .eq a b)

def mkNe (a b : Term) : Except SortError Term := (mkEq a b).map mkNot

end Term

namespace OrderOp

def symbol : OrderOp → String
  | .lt => "<"
  | .le => "<="
  | .gt => ">"
  | .ge => ">="

def holds : OrderOp → Int → Int → Bool
  | .lt, x, y => x < y
  | .le, x, y => x ≤ y
  | .gt, x, y => x > y
  | .ge, x, y => x ≥ y

end OrderOp

namespace Term

def mkOrder (op : OrderOp) (a b : Term) : Except SortError Term :=
  if a.sort ≠ .int ∨ b.sort ≠ .int then .error (mismatch op.symbol a b)
  else
    match a, b with
    | .int x, .int y => .ok (.bool (op.holds x y))
    | a, b => .ok (.order op a b)

def mkLt (a b : Term) : Except SortError Term := mkOrder .lt a b

def mkLe (a b : Term) : Except SortError Term := mkOrder .le a b

def mkGt (a b : Term) : Except SortError Term := mkOrder .gt a b

def mkGe (a b : Term) : Except SortError Term := mkOrder .ge a b

end Term

/-! ## Arithmetic -/

namespace ArithOp

def symbol : ArithOp → String
  | .add => "+"
  | .sub => "-"
  | .mul => "*"
  | .div => "/"
  | .mod => "%"

/-- The operation on two literals; division and remainder only for a non-negative dividend and a
positive divisor, where every rounding agrees. -/
def literal : ArithOp → Int → Int → Option Int
  | .add, x, y => some (x + y)
  | .sub, x, y => some (x - y)
  | .mul, x, y => some (x * y)
  | .div, x, y => if 0 ≤ x ∧ 0 < y then some (x / y) else none
  | .mod, x, y => if 0 ≤ x ∧ 0 < y then some (x % y) else none

def hasLeftUnit : ArithOp → Int → Bool
  | .add, x => x == 0
  | .mul, x => x == 1
  | _, _ => false

def hasRightUnit : ArithOp → Int → Bool
  | .add, y => y == 0
  | .sub, y => y == 0
  | .mul, y => y == 1
  | .div, y => y == 1
  | .mod, _ => false

def simplify (op : ArithOp) (a b : Term) : Term :=
  let unlessRightUnit : Term :=
    match b with
    | .int y => if op.hasRightUnit y then a else .arith op a b
    | _ => .arith op a b
  match a, b with
  | .int x, .int y =>
    match op.literal x y with
    | some z => .int z
    | none => unlessRightUnit
  | .int x, _ => if op.hasLeftUnit x then b else unlessRightUnit
  | _, _ => unlessRightUnit

end ArithOp

namespace Term

def mkArith (op : ArithOp) (a b : Term) : Except SortError Term :=
  if a.sort ≠ .int ∨ b.sort ≠ .int then .error (mismatch op.symbol a b) else .ok (op.simplify a b)

def mkAdd (a b : Term) : Except SortError Term := mkArith .add a b

def mkSub (a b : Term) : Except SortError Term := mkArith .sub a b

def mkMul (a b : Term) : Except SortError Term := mkArith .mul a b

def mkDiv (a b : Term) : Except SortError Term := mkArith .div a b

def mkMod (a b : Term) : Except SortError Term := mkArith .mod a b

def timesPower (a : Term) : Nat → Term → Except SortError Term
  | 0, acc => .ok acc
  | n + 1, acc =>
    match mkMul acc a with
    | .ok acc => timesPower a n acc
    | .error e => .error e

def mkPow (a b : Term) : Except SortError (Option Term) :=
  if a.sort ≠ .int ∨ b.sort ≠ .int then .error (mismatch "**" a b)
  else
    match a, b with
    | .int x, .int (.ofNat e) => .ok (if e ≤ 256 then some (.int (Int.pow x e)) else none)
    | _, .int (.ofNat 0) => .ok (some (.int 1))
    | a, .int (.ofNat (e + 1)) => if e + 1 ≤ 8 then (timesPower a e a).map some else .ok none
    | _, _ => .ok none

/-! ## Choice and predicates -/

def mkIte (c a b : Term) : Except SortError Term :=
  let (a, b) := coercePair a b
  if a.sort ≠ b.sort then .error (mismatch "ite" a b)
  else
    match c with
    | .bool true => .ok a
    | .bool false => .ok b
    | c => .ok (.ite c a b)

def truthy (t : Term) : Except SortError Term :=
  match t.sort with
  | .bool => .ok t
  | .int => mkNe t zero
  | s => .error (.predicate s)

/-! ## Arrays -/

def mkSelect (a key : Term) : Except SortError Term :=
  match a.sort with
  | .array domain _ =>
    let key := coerce domain key
    if key.sort ≠ domain then .error (mismatch "select index" a key)
    else
      match a with
      | .store _ written value => if written = key then .ok value else .ok (.select a key)
      | a => .ok (.select a key)
  | _ => .error (mismatch "select on non-array" a key)

def mkStore (a key value : Term) : Except SortError Term :=
  match a.sort with
  | .array domain range =>
    let key := coerce domain key
    let value := coerce range value
    if key.sort ≠ domain then .error (mismatch "store index" a key)
    else if value.sort ≠ range then .error (mismatch "store value" a value)
    else .ok (.store a key value)
  | _ => .error (mismatch "store on non-array" a key)

end Term

end TokenAudit
