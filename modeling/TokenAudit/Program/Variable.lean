import TokenAudit.Term.Basic

/-!
# Variables and operands

A variable is identified by its name and its scope; its type never tells two variables apart.
-/

namespace TokenAudit

inductive Scope where
  | param (function : String) (index : Nat)
  | localIn (function : String)
  | temporary (function : String)
  | reference (function : String)
  | state
  /-- Values of the call environment, such as the sender. -/
  | builtin
  deriving DecidableEq, Repr

def Scope.function? : Scope → Option String
  | .param f _ => some f
  | .localIn f => some f
  | .temporary f => some f
  | .reference f => some f
  | .state => none
  | .builtin => none

structure VarId where
  name : String
  scope : Scope
  deriving DecidableEq, Repr

structure Variable where
  name : String
  scope : Scope
  type : ContractType
  deriving DecidableEq, Repr

namespace Variable

def id (v : Variable) : VarId := ⟨v.name, v.scope⟩

def isState (v : Variable) : Bool := v.scope == .state

def ofState (name : String) (type : ContractType) : Variable := ⟨name, .state, type⟩

def sender : Variable := ⟨"msg.sender", .builtin, .address⟩

def this : Variable := ⟨"this", .builtin, .address⟩

def sentValue : Variable := ⟨"msg.value", .builtin, .uint256⟩

end Variable

inductive Constant where
  | bool (value : Bool)
  | int (value : Int)
  | str (value : String)
  deriving DecidableEq, Repr

def Constant.term : Constant → Term
  | .bool b => .bool b
  | .int i => .int i
  | .str s => .str s

inductive Operand where
  | var (v : Variable)
  | const (c : Constant)
  deriving DecidableEq, Repr

def Operand.var? : Operand → Option Variable
  | .var v => some v
  | .const _ => none

end TokenAudit
