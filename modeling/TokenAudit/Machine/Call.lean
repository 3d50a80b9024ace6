import TokenAudit.Hash.Keccak
import TokenAudit.Machine.Record

/-!
# Calls and events

Builtins, internal calls, calls of other contracts, and events.
-/

namespace TokenAudit.Machine

def builtinName (function : String) : String := String.ofList (function.toList.takeWhile (· != '('))

def havoc (M : Machine) (target : Option Variable) (operands : List Operand) : StepM Unit :=
  match target with
  | none => pure ()
  | some t => do
    M.recordOperands t operands
    let _ ← redefine t

def checkedCondition (M : Machine) (name : String) (arguments : List Operand) : StepM Term :=
  match arguments with
  | [] => throw (.missingArgument name)
  | operand :: _ => do
    if M.tracking.usedInCheck then modify (Path.markUsedInCheck operand)
    sorted (Term.truthy (← M.termOf operand))

def codeSuffix? (name : String) : Option String :=
  if name == "code" then some "code"
  else if name == "extcodehash" || name == "codehash" then some "codehash"
  else none

def hashedLiteral? (name : String) (arguments : List Operand) : Option String :=
  if name == "keccak256" || name == "sha3" then
    match arguments with
    | [.const (.str s)] => some s
    | _ => none
  else none

def builtinValue (M : Machine) (name : String) (arguments : List Operand) (target : Option Variable) : StepM Unit :=
  match target, codeSuffix? name, arguments, hashedLiteral? name arguments with
  | some t, some suffix, account :: _, _ => do
    bind t (.term ((← M.termOf account).derived suffix .int))
  | some t, _, _, some text => bind t (.term (.int (Keccak.digestNat text.toUTF8.toList)))
  | _, _, _, _ => M.havoc target arguments

/-- `require` and `revert` end the node, `assert` is assumed, anything else yields a value. -/
def builtinCall (M : Machine) (loc : Location) (function : String) (arguments : List Operand)
    (target : Option Variable) : StepM (Option (List Successor)) := do
  let name := builtinName function
  if name == "require" then
    let cond ← M.checkedCondition name arguments
    pure (some [.goto loc.next (some cond), .throws (some (Term.mkNot cond))])
  else if name == "assert" then
    assume (← M.checkedCondition name arguments)
    pure none
  else if name == "revert" then pure (some [.throws none])
  else
    M.builtinValue name arguments target
    pure none

/-! ## Internal calls -/

def passArgument (M : Machine) (param : Variable) (argument : Operand) : StepM Unit := do
  match argument with
  | .var v =>
    modify (·.addAlias param.id v.id)
    M.recordDependencies param [v]
  | .const _ => pure ()
  bind param (← M.valueOf argument)

/-- Arguments beyond the last parameter are ignored. -/
def passArguments (M : Machine) (f : Function) : Nat → List Operand → StepM Unit
  | _, [] => pure ()
  | i, argument :: rest =>
    match f.param? i with
    | none => pure ()
    | some param => do
      M.passArgument param argument
      M.passArguments f (i + 1) rest

/-- The target holds a fresh symbol until the function returns; a function without a body is passed over. -/
def enter (M : Machine) (loc : Location) (callee : FnId) (arguments : List Operand)
    (target : Option Variable) : StepM (Option (List Successor)) := do
  match M.program.function? callee with
  | none => throw .missingFunction
  | some f =>
    modify fun p => { p with calledFunctions := p.calledFunctions.insert f.name }
    M.passArguments f 0 arguments
    match target with
    | some t => let _ ← redefine t
    | none => pure ()
    if f.nodes.isEmpty then pure none
    else
      modify fun p => { p with stack := ⟨loc.next, target⟩ :: p.stack }
      pure (some [.goto (.start callee f.entry) none])

/-! ## Calls of other contracts -/

def pinCallArgs (M : Machine) (callee : CallSignature) (occurrence : Nat) (arguments : List Operand) :
    List Nat → StepM Unit
  | [] => pure ()
  | index :: rest => do
    match arguments[index]? with
    | some argument =>
      let value ← M.termOf argument
      let sort := ((callee.params[index]?).map SmtSort.ofType).getD value.sort
      assume (← sorted (Term.mkEq (Fact.callArg callee.name occurrence index sort).term value))
    | none => pure ()
    M.pinCallArgs callee occurrence arguments rest

def firstItem (v : Value) : StepM (Option Term) :=
  match v with
  | .term t => pure (some t)
  | .tuple [] => pure none
  | .tuple (item :: _) => do return some (← single item)

def noteCall (p : Path) (receiver name : String) : Nat × Path :=
  let occurrence := p.callCounts.getD name 0 + 1
  let p := p.assume (Fact.called receiver name).term
  let p := { p with
    calledOn := p.calledOn.insert ⟨receiver, name⟩
    calledFunctions := p.calledFunctions.insert name
    callCounts := p.callCounts.insert name occurrence }
  (occurrence, if p.returnsTracked.contains name then p.assume (Fact.fnCalled name).term else p)

/-- What holds of the receiver of a call on a path that finishes: it has code, and it is neither zero nor
the sender. -/
def deferReceiver (M : Machine) (destination : Term) : StepM Unit := do
  let sender ← single (← M.read .sender)
  let hasCode ← sorted (Term.mkGt (destination.derived "code.length" .int) .zero)
  modify fun p => { p with deferred := p.deferred ++ [hasCode] }
  let notZero ← sorted (Term.mkNe destination .zero)
  modify fun p => { p with deferred := p.deferred ++ [notZero] }
  let notSender ← sorted (Term.mkNe destination sender)
  modify fun p => { p with deferred := p.deferred ++ [notSender] }

def pinReturn (callee : CallSignature) (value : Value) : StepM Unit := do
  if (← get).returnsTracked.contains callee.name then
    let sort := ((callee.returns.head?).map SmtSort.ofType).getD .int
    match ← firstItem value with
    | some ret => assume (← sorted (Term.mkEq (Fact.callReturn callee.name sort).term ret))
    | none => pure ()

def highLevelCall (M : Machine) (destination : Operand) (callee : CallSignature)
    (arguments : List Operand) (target : Option Variable) : StepM Unit := do
  let receiver ← M.termOf destination
  let occurrence ← modifyGet (noteCall · receiver.nameHint callee.name)
  M.deferReceiver receiver
  if M.tracking.callArgs then
    match (← get).callArgsTracked.get? callee.name with
    | some indices => M.pinCallArgs callee occurrence arguments indices.toList
    | none => pure ()
  match target with
  | none => pure ()
  | some t =>
    M.recordOperands t (destination :: arguments)
    pinReturn callee (← redefine t)

/-! ## Events -/

def pinEventArgs (M : Machine) (event : EventDecl) (occurrence : Nat) (arguments : List Operand) :
    List Nat → StepM Unit
  | [] => pure ()
  | index :: rest => do
    match arguments[index]? with
    | some argument =>
      let value ← M.termOf argument
      let sort := ((event.params[index]?).map fun param => SmtSort.ofType param.type).getD value.sort
      assume (← sorted (Term.mkEq (Fact.emittedArg event.name occurrence index sort).term value))
    | none => pure ()
    M.pinEventArgs event occurrence arguments rest

def noteEmission (p : Path) (i : Nat) (name : String) : Nat × Path :=
  let p :=
    if p.eventsEmitted.contains i then p
    else { p with eventsEmitted := p.eventsEmitted.insert i }.assume (Fact.emitted name).term
  let occurrence := p.emitCounts.getD i 0 + 1
  (occurrence, { p with emitCounts := p.emitCounts.insert i occurrence })

def emit (M : Machine) (name : String) (arguments : List Operand) : StepM Unit := do
  if M.tracking.emit then
    match M.contract.event? name with
    | none => pure ()
    | some (i, event) =>
      let occurrence ← modifyGet (noteEmission · i name)
      if M.tracking.emitArgs then
        match (← get).eventArgsTracked.get? i with
        | some indices => M.pinEventArgs event occurrence arguments indices.toList
        | none => pure ()

end TokenAudit.Machine
