import TokenAudit.Data.Table
import TokenAudit.Program.Instruction

/-!
# Programs

One compilation unit.  A program is `valid` when every node stands at the position of its number and every edge leads to
a node.
-/

namespace TokenAudit

inductive ContractKind where
  | contract
  | library
  | interface
  deriving DecidableEq, Repr, Inhabited

inductive Visibility where
  | publicAccess
  | externalAccess
  | internalAccess
  | privateAccess
  deriving DecidableEq, Repr, Inhabited

def Visibility.isEntryPoint : Visibility → Bool
  | .publicAccess => true
  | .externalAccess => true
  | .internalAccess => false
  | .privateAccess => false

inductive Mutability where
  | pure
  | view
  | payable
  | nonpayable
  deriving DecidableEq, Repr, Inhabited

inductive NodeKind where
  | entry
  | expression
  | declaration
  | ifBranch
  | ifLoop
  | startLoop
  | endLoop
  | endIf
  | ret
  | throw
  | tryCall
  | catchClause
  | placeholder
  | other
  deriving DecidableEq, Repr, Inhabited

structure StateVariable where
  name : String
  type : ContractType
  visibility : Visibility := .publicAccess
  initializer : Option Constant := none
  deriving Repr, Inhabited

structure EventParam where
  name : String
  type : ContractType
  indexed : Bool
  deriving DecidableEq, Repr, Inhabited

structure EventDecl where
  name : String
  params : List EventParam
  deriving DecidableEq, Repr, Inhabited

structure Param where
  name : String
  type : ContractType
  deriving DecidableEq, Repr, Inhabited

structure Node where
  id : Nat := 0
  kind : NodeKind := default
  instructions : List Instruction := []
  sons : List Nat := []
  sonTrue : Option Nat := none
  sonFalse : Option Nat := none
  declared : Option Variable := none
  deriving Repr, Inhabited

structure Function where
  name : String := ""
  params : List Param := []
  returns : List ContractType := []
  visibility : Visibility := default
  mutability : Mutability := default
  isConstructor : Bool := false
  entry : Nat := 0
  nodes : List Node := []
  source : Option String := none
  deriving Repr, Inhabited

structure Contract where
  name : String := ""
  kind : ContractKind := default
  stateVariables : List StateVariable := []
  functions : List Function := []
  events : List EventDecl := []
  deriving Repr, Inhabited

structure Program where
  contracts : List Contract
  deriving Repr, Inhabited

structure FnId where
  contract : Nat
  function : Nat
  deriving DecidableEq, Repr, Inhabited

namespace Node

def edges (n : Node) : List Nat := n.sons ++ n.sonTrue.toList ++ n.sonFalse.toList

def isBranching (n : Node) : Bool := 1 < n.sons.length || (n.sonTrue.isSome && n.sonFalse.isSome)

end Node

namespace Function

def param? (f : Function) (i : Nat) : Option Variable :=
  (f.params[i]?).map fun p => ⟨p.name, .param f.name i, p.type⟩

def node? (f : Function) (i : Nat) : Option Node := f.nodes[i]?

def instructions (f : Function) : List Instruction := f.nodes.flatMap Node.instructions

def isMutating (f : Function) : Bool := f.mutability != .pure && f.mutability != .view

def signature (f : Function) : String :=
  f.name ++ "(" ++ ",".intercalate (f.params.map fun p => p.type.render) ++ ")"

end Function

namespace Contract

/-- The first function of that name, constructors apart, with that many parameters if a number is given. -/
def functionIndex? (c : Contract) (name : String) (arity : Option Nat) : Option Nat :=
  c.functions.findIdx? fun f =>
    f.name == name && !f.isConstructor && (arity.map (f.params.length == ·)).getD true

def stateVariable? (c : Contract) (name : String) : Option (Nat × StateVariable) :=
  match c.stateVariables.findIdx? (·.name == name) with
  | some i => (c.stateVariables[i]?).map (i, ·)
  | none => none

def event? (c : Contract) (name : String) : Option (Nat × EventDecl) :=
  match c.events.findIdx? (·.name == name) with
  | some i => (c.events[i]?).map (i, ·)
  | none => none

def constructor? (c : Contract) : Option Function := c.functions.find? (·.isConstructor)

/-- The first constant that a sequence of instructions assigns to the state variable `name`, following
constants through the variables in `known`. -/
def firstConstant (name : String) : Table VarId Constant → List Instruction → Option Constant
  | _, [] => none
  | known, .assignment target source :: rest =>
    let value := match source with
      | .const c => some c
      | .var v => known.get? v.id
    match value with
    | some c =>
      if target.isState && target.name == name then some c
      else firstConstant name (known.insert target.id c) rest
    | none => firstConstant name known rest
  | known, .conversion target (.const c) :: rest => firstConstant name (known.insert target.id c) rest
  | known, _ :: rest => firstConstant name known rest

def initialConstant? (c : Contract) (name : String) : Option Constant :=
  match c.stateVariable? name with
  | none => none
  | some (_, sv) =>
    match sv.initializer with
    | some k => some k
    | none =>
      match c.constructor? with
      | some f => firstConstant name .empty f.instructions
      | none => none

end Contract

namespace Program

def contractIndex? (p : Program) (name : String) : Option Nat := p.contracts.findIdx? (·.name == name)

def contract? (p : Program) (i : Nat) : Option Contract := p.contracts[i]?

def function? (p : Program) (id : FnId) : Option Function :=
  match p.contracts[id.contract]? with
  | some c => c.functions[id.function]?
  | none => none

end Program

/-! ## Validity -/

inductive Fault where
  | missingEntry (entry : Nat)
  | misplacedNode (position id : Nat)
  | danglingEdge (node son : Nat)
  deriving DecidableEq, Repr

def Fault.message : Fault → String
  | .missingEntry entry => "entry node " ++ toString entry ++ " does not exist"
  | .misplacedNode position id => "node at position " ++ toString position ++ " has id " ++ toString id
  | .danglingEdge node son => "node " ++ toString node ++ " points to missing node " ++ toString son

namespace Function

def nodesFault? (size : Nat) : Nat → List Node → Option Fault
  | _, [] => none
  | i, n :: rest =>
    if n.id ≠ i then some (.misplacedNode i n.id)
    else
      match n.edges.find? (size ≤ ·) with
      | some son => some (.danglingEdge i son)
      | none => nodesFault? size (i + 1) rest

def fault? (f : Function) : Option Fault :=
  if !f.nodes.isEmpty && f.nodes.length ≤ f.entry then some (.missingEntry f.entry)
  else nodesFault? f.nodes.length 0 f.nodes

end Function

def Program.fault? (p : Program) : Option (String × String × Fault) :=
  p.contracts.findSome? fun c => c.functions.findSome? fun f => f.fault?.map fun e => (c.name, f.name, e)

end TokenAudit
