import TokenAudit.Term.Basic

/-!
# SMT-LIB text

Symbols are always quoted; the two characters that a quoted symbol cannot hold become underscores.
`Term.smt` writes a term, and symbols derived from a term take their name from that text.
-/

namespace TokenAudit

def quoteSymbol (name : String) : String :=
  "|" ++ String.ofList (name.toList.map fun c => if c == '|' || c == '\\' then '_' else c) ++ "|"

def ArithOp.smt : ArithOp → String
  | .add => "+"
  | .sub => "-"
  | .mul => "*"
  | .div => "div"
  | .mod => "mod"

def OrderOp.smt : OrderOp → String
  | .lt => "<"
  | .le => "<="
  | .gt => ">"
  | .ge => ">="

def Junction.smt : Junction → String
  | .all => "and"
  | .any => "or"

def boolText (b : Bool) : String := if b then "true" else "false"

def quoteString (s : String) : String :=
  "\"" ++ String.join (s.toList.map fun c => if c == '"' then "\"\"" else c.toString) ++ "\""

def intText : Int → String
  | .ofNat n => toString n
  | .negSucc n => "(- " ++ toString (n + 1) ++ ")"

namespace Term

def applied (head : String) (args : List String) : String :=
  "(" ++ " ".intercalate (head :: args) ++ ")"

mutual

def smt : Term → String
  | .var name _ => quoteSymbol name
  | .int i => intText i
  | .bool b => boolText b
  | .str s => quoteString s
  | .arith op a b => applied op.smt [smt a, smt b]
  | .order op a b => applied op.smt [smt a, smt b]
  | .eq a b => applied "=" [smt a, smt b]
  | .not a => applied "not" [smt a]
  | .junction j [] => boolText j.neutral
  | .junction j (t :: ts) => applied j.smt (smt t :: smtAll ts)
  | .ite c a b => applied "ite" [smt c, smt a, smt b]
  | .select a k => applied "select" [smt a, smt k]
  | .store a k v => applied "store" [smt a, smt k, smt v]

def smtAll : List Term → List String
  | [] => []
  | t :: ts => smt t :: smtAll ts

end

def nameHint : Term → String
  | .var name _ => name
  | t => String.ofList (t.smt.toList.filter fun c => c != '|')

def derived (t : Term) (suffix : String) (sort : SmtSort) : Term :=
  .var (t.nameHint ++ "." ++ suffix) sort

end Term

end TokenAudit
