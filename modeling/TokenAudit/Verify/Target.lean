import TokenAudit.Program.Basic
import TokenAudit.Text.Quoted

/-!
# Targets

The function that a check runs against, named by the caller or given by its place in the program.
-/

namespace TokenAudit

inductive Target where
  | named (name : String) (arity : Option Nat)
  | function (id : FnId)
  deriving DecidableEq, Repr

namespace Target

def describe : Target → String
  | .named name none => "Named \x7b name: " ++ Text.quoted name ++ ", arity: None \x7d"
  | .named name (some n) => "Named \x7b name: " ++ Text.quoted name ++ ", arity: Some(" ++ toString n ++ ") \x7d"
  | .function id =>
    "Function(FnId \x7b contract: " ++ toString id.contract ++ ", function: " ++ toString id.function ++ " \x7d)"

end Target

structure Subject where
  program : Program
  contract : Contract
  function : Function
  id : FnId

namespace Subject

def indexOf? (contractId : Nat) (contract : Contract) : Target → Option Nat
  | .named name arity => contract.functionIndex? name arity
  | .function id => if id.contract = contractId then some id.function else none

def find? (program : Program) (contractId : Nat) (contract : Contract) (target : Target) : Option Subject := do
  let i ← indexOf? contractId contract target
  let f ← contract.functions[i]?
  return ⟨program, contract, f, ⟨contractId, i⟩⟩

end Subject

end TokenAudit
