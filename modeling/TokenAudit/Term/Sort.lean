import TokenAudit.ContractType.Basic

/-!
# Sorts

Booleans, unbounded integers, strings and arrays.  `ofType` gives the sort of a declared contract type:
mappings and arrays become integer-indexed arrays, and inside them only `bool` keeps a sort of its own.
-/

namespace TokenAudit

inductive SmtSort where
  | bool
  | int
  | str
  | array (domain range : SmtSort)
  deriving DecidableEq, Repr, Inhabited

namespace SmtSort

def stored : ContractType → SmtSort
  | .mapping _ value => .array .int (stored value)
  | .array item _ => .array .int (stored item)
  | .named n => if n = "bool" then .bool else .int
  | .tuple _ => .int

def ofType (t : ContractType) : SmtSort := if t.isString then .str else stored t

def isArray : SmtSort → Bool
  | .array _ _ => true
  | _ => false

def smt : SmtSort → String
  | .bool => "Bool"
  | .int => "Int"
  | .str => "String"
  | .array d r => "(Array " ++ smt d ++ " " ++ smt r ++ ")"

def describe : SmtSort → String
  | .bool => "Bool"
  | .int => "Int"
  | .str => "Str"
  | .array d r => "Array(" ++ describe d ++ ", " ++ describe r ++ ")"

end SmtSort

end TokenAudit
