import TokenAudit.Program.Variable

/-!
# Instructions

The closed vocabulary that function bodies are lowered to.
-/

namespace TokenAudit

inductive UnaryOp where
  | not
  | complement
  deriving DecidableEq, Repr

inductive BinaryOp where
  | add
  | sub
  | mul
  | div
  | mod
  | pow
  | eq
  | ne
  | lt
  | gt
  | le
  | ge
  | and
  | or
  | bitAnd
  | bitOr
  | bitXor
  | shiftLeft
  | shiftRight
  deriving DecidableEq, Repr

structure CallSignature where
  name : String
  params : List ContractType
  returns : List ContractType
  deriving DecidableEq, Repr

inductive Instruction where
  /-- Language builtins such as `require(bool)`, `revert()` or `code(address)`. -/
  | builtinCall (function : String) (arguments : List Operand) (target : Option Variable)
  | assignment (target : Variable) (source : Operand)
  | conversion (target : Variable) (source : Operand)
  | internalCall (function : String) (arguments : List Operand) (target : Option Variable)
  | libraryCall (library function : String) (arguments : List Operand) (target : Option Variable)
  | highLevelCall (destination : Operand) (callee : CallSignature) (arguments : List Operand)
      (target : Option Variable)
  | lowLevelCall (destination : Operand) (function : String) (arguments : List Operand)
      (target : Option Variable)
  | unary (op : UnaryOp) (source : Operand) (target : Variable)
  /-- `checked` arithmetic reverts instead of wrapping around. -/
  | binary (op : BinaryOp) (left right : Operand) (target : Variable) (checked : Bool)
  | length (array target : Variable)
  | eventCall (name : String) (arguments : List Operand)
  | index (target base : Variable) (key : Operand)
  | delete (target erased : Variable)
  | newElementary (target : Variable)
  | ret (values : List Operand)
  | unpack (target tuple : Variable) (index : Nat)
  | member (target : Variable) (base : Operand) (field : String)
  | condition (value : Operand)
  | transfer (destination amount : Operand)
  | send (destination amount : Operand) (target : Option Variable)
  | newArray (target : Variable) (arguments : List Operand)
  | initArray (target : Variable) (values : List Operand)
  | codeSize (target : Variable) (account : Operand)
  /-- Anything outside the vocabulary. -/
  | unsupported (description : String) (target : Option Variable)
  deriving Repr

namespace Instruction

def target? : Instruction → Option Variable
  | .builtinCall _ _ target => target
  | .assignment target _ => some target
  | .conversion target _ => some target
  | .internalCall _ _ target => target
  | .libraryCall _ _ _ target => target
  | .highLevelCall _ _ _ target => target
  | .lowLevelCall _ _ _ target => target
  | .unary _ _ target => some target
  | .binary _ _ _ target _ => some target
  | .length _ target => some target
  | .eventCall _ _ => none
  | .index target _ _ => some target
  | .delete target _ => some target
  | .newElementary target => some target
  | .ret _ => none
  | .unpack target _ _ => some target
  | .member target _ _ => some target
  | .condition _ => none
  | .transfer _ _ => none
  | .send _ _ target => target
  | .newArray target _ => some target
  | .initArray target _ => some target
  | .codeSize target _ => some target
  | .unsupported _ target => target

def reads : Instruction → List Operand
  | .builtinCall _ arguments _ => arguments
  | .assignment _ source => [source]
  | .conversion _ source => [source]
  | .internalCall _ arguments _ => arguments
  | .libraryCall _ _ arguments _ => arguments
  | .highLevelCall destination _ arguments _ => destination :: arguments
  | .lowLevelCall destination _ arguments _ => destination :: arguments
  | .unary _ source _ => [source]
  | .binary _ left right _ _ => [left, right]
  | .length _ _ => []
  | .eventCall _ arguments => arguments
  | .index _ _ key => [key]
  | .delete _ _ => []
  | .newElementary _ => []
  | .ret values => values
  | .unpack _ _ _ => []
  | .member _ base _ => [base]
  | .condition value => [value]
  | .transfer destination amount => [destination, amount]
  | .send destination amount _ => [destination, amount]
  | .newArray _ arguments => arguments
  | .initArray _ values => values
  | .codeSize _ account => [account]
  | .unsupported _ _ => []

def isRequire : Instruction → Bool
  | .builtinCall function _ _ => Text.startsWith function.toList "require("
  | _ => false

def isRevert : Instruction → Bool
  | .builtinCall function _ _ => Text.startsWith function.toList "revert"
  | _ => false

end Instruction

end TokenAudit
