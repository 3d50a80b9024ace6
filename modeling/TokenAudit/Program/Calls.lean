import TokenAudit.Data.OrdSet
import TokenAudit.Program.Basic

/-!
# Calls and state access

Which functions a function reaches, and which state variables and events it touches on the way.
-/

namespace TokenAudit

/-! ## State access of one function -/

abbrev Roots := Table VarId Variable

namespace Roots

def rootOf (roots : Roots) (v : Variable) : Variable := roots.getD v.id v

def extend (roots : Roots) : Instruction → Roots
  | .index target base _ => roots.insert target.id (roots.rootOf base)
  | .member target (.var base) _ => roots.insert target.id (roots.rootOf base)
  | _ => roots

end Roots

namespace Function

def roots (f : Function) : Roots := f.instructions.foldl Roots.extend .empty

def stateRoot? (roots : Roots) (v : Variable) : Option String :=
  let root := roots.rootOf v
  if root.isState then some root.name else none

def readVariables (i : Instruction) : List Variable :=
  i.reads.filterMap Operand.var? ++
    match i with
    | .index _ base _ => [base]
    | .length array _ => [array]
    | _ => []

def writtenVariable? : Instruction → Option Variable
  | .index _ _ _ => none
  | .length _ _ => none
  | .member _ _ _ => none
  | .delete _ erased => some erased
  | i => i.target?

def directReads (f : Function) : OrdSet String :=
  let roots := f.roots
  .ofList (f.instructions.flatMap fun i => (readVariables i).filterMap (stateRoot? roots))

def directWrites (f : Function) : OrdSet String :=
  let roots := f.roots
  .ofList (f.instructions.filterMap fun i => (writtenVariable? i).bind (stateRoot? roots))

end Function

namespace Program

/-! ## Resolution of calls -/

def resolveInternal? (p : Program) (contract : Nat) (name : String) (arity : Nat) : Option FnId :=
  match p.contracts[contract]? with
  | none => none
  | some c =>
    ((c.functions.findIdx? fun f => f.name == name && f.params.length == arity).or
      (c.functions.findIdx? fun f => f.name == name)).map fun i => ⟨contract, i⟩

def resolveLibrary? (p : Program) (library name : String) (arity : Nat) : Option FnId :=
  match p.contractIndex? library with
  | none => none
  | some contract => p.resolveInternal? contract name arity

def callee? (p : Program) (contract : Nat) : Instruction → Option FnId
  | .internalCall function arguments _ => p.resolveInternal? contract function arguments.length
  | .libraryCall library function arguments _ => p.resolveLibrary? library function arguments.length
  | _ => none

def instructionsOf (p : Program) (id : FnId) : List Instruction :=
  ((p.function? id).map Function.instructions).getD []

def callees (p : Program) (id : FnId) : List FnId :=
  (p.instructionsOf id).filterMap (p.callee? id.contract)

/-! ## Reachable functions -/

def fresh (seen : List FnId) : List FnId → List FnId
  | [] => []
  | id :: rest => if id ∈ seen then fresh seen rest else id :: fresh (seen ++ [id]) rest

def visit (p : Program) : Nat → List FnId → List FnId → List FnId
  | 0, _, seen => seen
  | _ + 1, [], seen => seen
  | fuel + 1, id :: queue, seen =>
    let found := fresh seen (p.callees id)
    p.visit fuel (queue ++ found) (seen ++ found)

def functionCount (p : Program) : Nat := p.contracts.foldr (fun c n => c.functions.length + n) 0

/-- Each function enters the queue once, so their number bounds the visits. -/
def reachable (p : Program) (root : FnId) : List FnId := p.visit (p.functionCount + 1) [root] [root]

def reachableFunctions (p : Program) (root : FnId) : List Function :=
  (p.reachable root).filterMap p.function?

def stateVariablesRead (p : Program) (root : FnId) : OrdSet String :=
  .ofList ((p.reachableFunctions root).flatMap fun f => f.directReads.toList)

def stateVariablesWritten (p : Program) (root : FnId) : OrdSet String :=
  .ofList ((p.reachableFunctions root).flatMap fun f => f.directWrites.toList)

def eventsEmitted (p : Program) (root : FnId) : OrdSet String :=
  .ofList ((p.reachableFunctions root).flatMap fun f => f.instructions.filterMap fun
    | .eventCall name _ => some name
    | _ => none)

def highLevelCall? (p : Program) (root : FnId) (name : String) : Option CallSignature :=
  (p.reachableFunctions root).findSome? fun f => f.instructions.findSome? fun
    | .highLevelCall _ callee _ _ => if callee.name == name then some callee else none
    | _ => none

/-- The state variable that a getter stands for: the only one the function of that name reads, or,
without such a function, the public state variable of that name. -/
def anchored? (p : Program) (contract : Nat) (anchor : String) : Option Nat :=
  match p.contracts[contract]? with
  | none => none
  | some c =>
    match c.functionIndex? anchor none with
    | some f =>
      match (p.stateVariablesRead ⟨contract, f⟩).toList with
      | [name] => (c.stateVariable? name).map Prod.fst
      | _ => none
    | none =>
      match c.stateVariable? anchor with
      | some (i, sv) => if sv.visibility == .publicAccess then some i else none
      | none => none

end Program

end TokenAudit
