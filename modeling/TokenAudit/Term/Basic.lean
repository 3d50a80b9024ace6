import TokenAudit.Term.Sort

/-!
# Terms

Symbolic terms over booleans, integers, strings and arrays.  The constructors build a term as it is;
the functions of `TokenAudit.Term.Build` check sorts and simplify.
-/

namespace TokenAudit

inductive ArithOp where
  | add
  | sub
  | mul
  | div
  | mod
  deriving DecidableEq, Repr, Inhabited

inductive OrderOp where
  | lt
  | le
  | gt
  | ge
  deriving DecidableEq, Repr, Inhabited

inductive Junction where
  | all
  | any
  deriving DecidableEq, Repr, Inhabited

def Junction.neutral : Junction → Bool
  | .all => true
  | .any => false

inductive Term where
  | var (name : String) (sort : SmtSort)
  | int (value : Int)
  | bool (value : Bool)
  | str (value : String)
  | arith (op : ArithOp) (left right : Term)
  | order (op : OrderOp) (left right : Term)
  | eq (left right : Term)
  | not (body : Term)
  | junction (j : Junction) (parts : List Term)
  | ite (cond yes no : Term)
  | select (array key : Term)
  | store (array key value : Term)
  deriving Repr, Inhabited

namespace Term

mutual

def same : Term → Term → Bool
  | .var n s, .var n' s' => n == n' && s == s'
  | .int i, .int i' => i == i'
  | .bool b, .bool b' => b == b'
  | .str s, .str s' => s == s'
  | .arith o a b, .arith o' a' b' => o == o' && same a a' && same b b'
  | .order o a b, .order o' a' b' => o == o' && same a a' && same b b'
  | .eq a b, .eq a' b' => same a a' && same b b'
  | .not a, .not a' => same a a'
  | .junction j ts, .junction j' ts' => j == j' && sameAll ts ts'
  | .ite c a b, .ite c' a' b' => same c c' && same a a' && same b b'
  | .select a k, .select a' k' => same a a' && same k k'
  | .store a k v, .store a' k' v' => same a a' && same k k' && same v v'
  | _, _ => false

def sameAll : List Term → List Term → Bool
  | [], [] => true
  | t :: ts, t' :: ts' => same t t' && sameAll ts ts'
  | _, _ => false

end

mutual

theorem same_iff (a b : Term) : same a b = true ↔ a = b := by
  cases a <;> cases b <;> simp [same]
  case arith.arith o a b o' a' b' => rw [same_iff a a', same_iff b b', and_assoc]
  case order.order o a b o' a' b' => rw [same_iff a a', same_iff b b', and_assoc]
  case eq.eq a b a' b' => rw [same_iff a a', same_iff b b']
  case not.not a a' => exact same_iff a a'
  case junction.junction j ts j' ts' => intro _; exact sameAll_iff ts ts'
  case ite.ite c a b c' a' b' => rw [same_iff c c', same_iff a a', same_iff b b', and_assoc]
  case select.select a k a' k' => rw [same_iff a a', same_iff k k']
  case store.store a k v a' k' v' => rw [same_iff a a', same_iff k k', same_iff v v', and_assoc]

theorem sameAll_iff (as bs : List Term) : sameAll as bs = true ↔ as = bs := by
  cases as with
  | nil => cases bs <;> simp [sameAll]
  | cons a as =>
    cases bs with
    | nil => simp [sameAll]
    | cons b bs => simp [sameAll, same_iff a b, sameAll_iff as bs]

end

instance : DecidableEq Term := fun a b => decidable_of_iff _ (same_iff a b)

def sort : Term → SmtSort
  | .var _ s => s
  | .int _ => .int
  | .bool _ => .bool
  | .str _ => .str
  | .arith _ _ _ => .int
  | .order _ _ _ => .bool
  | .eq _ _ => .bool
  | .not _ => .bool
  | .junction _ _ => .bool
  | .ite _ yes _ => sort yes
  | .select a _ =>
    match sort a with
    | .array _ range => range
    | other => other
  | .store a _ _ => sort a

def zero : Term := .int 0

def varName? : Term → Option String
  | .var name _ => some name
  | _ => none

def defaultOf : SmtSort → Option Term
  | .bool => some (.bool false)
  | .int => some zero
  | .str => some (.str "")
  | .array _ _ => none

end Term

/-- The value of a variable: a single term, or one value for each item of a tuple. -/
inductive Value where
  | term (t : Term)
  | tuple (items : List Value)
  deriving Repr, Inhabited

namespace Value

mutual

def same : Value → Value → Bool
  | .term t, .term t' => t == t'
  | .tuple vs, .tuple vs' => sameAll vs vs'
  | _, _ => false

def sameAll : List Value → List Value → Bool
  | [], [] => true
  | v :: vs, v' :: vs' => same v v' && sameAll vs vs'
  | _, _ => false

end

mutual

theorem same_iff (a b : Value) : same a b = true ↔ a = b := by
  cases a <;> cases b <;> simp [same]
  case tuple.tuple vs vs' => exact sameAll_iff vs vs'

theorem sameAll_iff (as bs : List Value) : sameAll as bs = true ↔ as = bs := by
  cases as with
  | nil => cases bs <;> simp [sameAll]
  | cons a as =>
    cases bs with
    | nil => simp [sameAll]
    | cons b bs => simp [sameAll, same_iff a b, sameAll_iff as bs]

end

instance : DecidableEq Value := fun a b => decidable_of_iff _ (same_iff a b)

def term? : Value → Option Term
  | .term t => some t
  | .tuple _ => none

end Value

end TokenAudit
