import TokenAudit.Config
import TokenAudit.Fact
import TokenAudit.Path.Symbols
import TokenAudit.Term.Smt

/-!
# The machine

A step works on the path as a state and may fail; what it did to the path before it failed stays done.
-/

namespace TokenAudit

structure Machine where
  program : Program
  contract : Contract
  contractId : Nat
  tracking : Tracking
  config : Config

abbrev StepM := ExceptT PathError (StateM Path)

inductive Successor where
  | goto (next : Location) (constraint : Option Term)
  | throws (constraint : Option Term)
  | finish
  deriving DecidableEq, Repr

namespace Successor

def next? : Successor → Option Location
  | .goto next _ => some next
  | .throws _ => none
  | .finish => none

def constraint? : Successor → Option Term
  | .goto _ constraint => constraint
  | .throws constraint => constraint
  | .finish => none

end Successor

namespace Machine

def ofProgram? (program : Program) (contractId : Nat) (tracking : Tracking) (config : Config) : Option Machine :=
  (program.contract? contractId).map fun contract => ⟨program, contract, contractId, tracking, config⟩

/-! ## Primitive operations -/

def sorted {α : Type} (e : Except SortError α) : StepM α :=
  match e with
  | .ok a => pure a
  | .error e => throw (.sort e)

def single (v : Value) : StepM Term :=
  match v with
  | .term t => pure t
  | .tuple _ => throw .tupleAsValue

def assume (t : Term) : StepM Unit := modify (·.assume t)

def bind (v : Variable) (value : Value) : StepM Unit := modify (·.bind v.id value)

def redefine (v : Variable) : StepM Value := modifyGet (Path.redefine v)

def read (M : Machine) (v : Variable) : StepM Value := modifyGet (Path.read M.contract v)

def valueOf (M : Machine) (operand : Operand) : StepM Value := modifyGet (Path.valueOf M.contract operand)

def termOf (M : Machine) (operand : Operand) : StepM Term := do single (← M.valueOf operand)

def valuesOf (M : Machine) : List Operand → StepM (List Value)
  | [] => pure []
  | o :: rest => do
    let v ← M.valueOf o
    let vs ← M.valuesOf rest
    pure (v :: vs)

/-- The value as it can be held by `target`: fitted to its sort, or else a fresh symbol. -/
def fitted (target : Variable) (value : Value) : StepM Value :=
  match value with
  | .term t =>
    match Term.fit (.ofType target.type) t with
    | some t => pure (.term t)
    | none => redefine target
  | .tuple items => pure (.tuple items)

end Machine

end TokenAudit
