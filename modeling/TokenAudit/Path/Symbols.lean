import TokenAudit.Path.Basic
import TokenAudit.Program.Calls

/-!
# Symbols of a path

A variable gets a symbol when it is first read and a fresh one at every redefinition.
-/

namespace TokenAudit

mutual

/-- The symbol `name` for a value of a type; the items of a tuple get numbered symbols. -/
def symbolFor (name : String) : ContractType → Value
  | .tuple items => .tuple (symbolsFor name 0 items)
  | t => .term (.var name (.ofType t))

def symbolsFor (name : String) : Nat → List ContractType → List Value
  | _, [] => []
  | i, t :: rest => symbolFor (name ++ "_" ++ toString i) t :: symbolsFor name (i + 1) rest

end

namespace Path

def symbolBase (p : Path) (v : VarId) : String :=
  let qualified := (v.scope.function?).getD "" ++ "." ++ v.name
  match v.scope with
  | .param function index => if function = p.entryName then "p" ++ toString index else qualified
  | .state => v.name
  | .builtin => v.name
  | _ => qualified

/-- A state variable read for the first time holds the constant it was constructed with. -/
def pinInitial (p : Path) (c : Contract) (v : Variable) (value : Value) : Path :=
  if v.isState then
    match c.initialConstant? v.name, value with
    | some k, .term t =>
      match Term.mkEq t k.term with
      | .ok e => p.assume e
      | .error _ => p
    | _, _ => p
  else p

def read (c : Contract) (v : Variable) (p : Path) : Value × Path :=
  match p.bindings.get? v.id with
  | some value => (value, p)
  | none =>
    let value := symbolFor (p.symbolBase v.id) v.type
    (value, (p.pinInitial c v value).bind v.id value)

def valueOf (c : Contract) (operand : Operand) (p : Path) : Value × Path :=
  match operand with
  | .const k => (.term k.term, p)
  | .var v => p.read c v

def redefine (v : Variable) (p : Path) : Value × Path :=
  let n := p.versions.getD v.id 0 + 1
  let value := symbolFor (p.symbolBase v.id ++ "!" ++ toString n) v.type
  (value, { p with versions := p.versions.insert v.id n, bindings := p.bindings.insert v.id value })

def assumeUnsigned (p : Path) (value : Value) (t : ContractType) : Path :=
  if t.isUnsigned then
    match value with
    | .term x =>
      match Term.mkGe x .zero with
      | .ok e => p.assume e
      | .error _ => p
    | .tuple _ => p
  else p

def readUnsigned (c : Contract) (p : Path) (v : Variable) : Path :=
  let (value, p) := p.read c v
  p.assumeUnsigned value v.type

def seed (program : Program) (c : Contract) (f : Function) (entry : FnId) (p : Path) : Path :=
  let params := (List.range f.params.length).filterMap f.param?
  let names := (program.stateVariablesRead entry).insertAll (program.stateVariablesWritten entry).toList
  let state := names.toList.filterMap fun n =>
    (c.stateVariable? n).map fun (_, sv) => Variable.ofState sv.name sv.type
  let p := (params ++ state).foldl (readUnsigned c) p
  let p := (p.read c .sender).2
  let p := (p.read c .this).2
  p.readUnsigned c .sentValue

end Path

end TokenAudit
