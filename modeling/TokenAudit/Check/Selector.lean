import TokenAudit.Program.Variable
import TokenAudit.Text.Quoted

/-!
# Selectors and conditions

A selector says where a rule finds a value; a condition compares selected values.
-/

namespace TokenAudit

inductive Selector where
  | funcParam (index : Nat)
  | eventParam (index : Nat)
  | callParam (index : Nat)
  /-- The state variable behind the getter `anchor`, indexed by `keys` level by level. -/
  | stateVar (anchor : String) (keys : List Selector)
  | constant (value : Constant)
  | msgSender
  | arrLength (array : Selector)
  | callReturn (function : String)
  | noneValue
  deriving Repr, Inhabited

inductive CompOp where
  | eq
  | notEq
  | gt
  | lt
  | gte
  | lte
  deriving DecidableEq, Repr, Inhabited

inductive ChangeType where
  | unspecified
  | tokenCreation
  | tokenBurn
  deriving DecidableEq, Repr, Inhabited

inductive Condition where
  | comparison (left right : Selector) (op : CompOp)
  | logic (parts : List Condition) (op : Junction)
  | written (value : Selector) (change : ChangeType)
  | usedInCheck (value : Selector)
  deriving Repr, Inhabited

namespace Condition

mutual

def mentionsUsedInCheck : Condition → Bool
  | .comparison _ _ _ => false
  | .logic parts _ => anyMentionsUsedInCheck parts
  | .written _ _ => false
  | .usedInCheck _ => true

def anyMentionsUsedInCheck : List Condition → Bool
  | [] => false
  | c :: rest => mentionsUsedInCheck c || anyMentionsUsedInCheck rest

end

mutual

def writtenSelectors : Condition → List Selector
  | .comparison _ _ _ => []
  | .logic parts _ => allWrittenSelectors parts
  | .written value _ => [value]
  | .usedInCheck _ => []

def allWrittenSelectors : List Condition → List Selector
  | [] => []
  | c :: rest => writtenSelectors c ++ allWrittenSelectors rest

end

end Condition

/-! ## Diagnostics -/

namespace Describe

def record (head : String) (fields : List (String × String)) : String :=
  head ++ " \x7b " ++ ", ".intercalate (fields.map fun f => f.1 ++ ": " ++ f.2) ++ " \x7d"

def list (items : List String) : String := "[" ++ ", ".intercalate items ++ "]"

end Describe

def Constant.describe : Constant → String
  | .bool b => "Bool(" ++ (if b then "true" else "false") ++ ")"
  | .int i => "Int(" ++ toString i ++ ")"
  | .str s => "Str(" ++ Text.quoted s ++ ")"

namespace Selector

mutual

def describe : Selector → String
  | .funcParam index => Describe.record "FuncParam" [("index", toString index)]
  | .eventParam index => Describe.record "EventParam" [("index", toString index)]
  | .callParam index => Describe.record "FnCallParam" [("index", toString index)]
  | .stateVar anchor keys =>
    Describe.record "StateVar" [("anchor_fn", Text.quoted anchor), ("keys", Describe.list (describeAll keys))]
  | .constant value => Describe.record "Constant" [("value", value.describe)]
  | .msgSender => "MsgSender"
  | .arrLength array => Describe.record "ArrLength" [("value", describe array)]
  | .callReturn function => Describe.record "FnCallRet" [("fn_name", Text.quoted function)]
  | .noneValue => "NoneValue"

def describeAll : List Selector → List String
  | [] => []
  | s :: rest => describe s :: describeAll rest

end

end Selector

def CompOp.describe : CompOp → String
  | .eq => "Eq"
  | .notEq => "NotEq"
  | .gt => "Gt"
  | .lt => "Lt"
  | .gte => "Gte"
  | .lte => "Lte"

def Junction.describe : Junction → String
  | .all => "And"
  | .any => "Or"

def ChangeType.describe : ChangeType → String
  | .unspecified => "Unspecified"
  | .tokenCreation => "TokenCreation"
  | .tokenBurn => "TokenBurn"

namespace Condition

mutual

def describe : Condition → String
  | .comparison left right op =>
    Describe.record "Comparison"
      [("left", left.describe), ("right", right.describe), ("op", op.describe)]
  | .logic parts op =>
    Describe.record "Logic" [("cond", Describe.list (describeAll parts)), ("op", op.describe)]
  | .written value change =>
    Describe.record "Written" [("value", value.describe), ("change_type", change.describe)]
  | .usedInCheck value => Describe.record "UsedInCheck" [("value", value.describe)]

def describeAll : List Condition → List String
  | [] => []
  | c :: rest => describe c :: describeAll rest

end

end Condition

end TokenAudit
