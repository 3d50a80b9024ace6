import TokenAudit.Machine.Basic

/-!
# Bookkeeping

What a step notes on the path: dependencies, writes of state variables, and which variables decided a check.
-/

namespace TokenAudit

namespace Path

def rootOf (p : Path) (v : Variable) : Variable := p.roots.getD v.id v

def addDependencies (p : Path) (target : VarId) (vars : List VarId) : Path :=
  { p with definedBy := p.definedBy.update target [] fun deps => vars.foldl (fun s v => insertNew v s) deps }

def addAlias (p : Path) (target source : VarId) : Path :=
  { p with aliases := p.aliases.update target [] (insertNew source) }

/-! ## Variables that decide a check -/

def dependencies (p : Path) (v : VarId) : List VarId := p.definedBy.getD v [] ++ p.aliases.getD v []

def follow (deps : VarId → List VarId) : Nat → List VarId → List VarId → List VarId
  | 0, _, seen => seen
  | _ + 1, [], seen => seen
  | fuel + 1, v :: stack, seen =>
    if v ∈ seen then follow deps fuel stack seen else follow deps fuel (deps v ++ stack) (seen ++ [v])

def edgeCount (t : Table VarId (List VarId)) : Nat := t.entries.foldr (fun e n => e.2.length + n) 0

/-- Each edge is followed once, so their number bounds the walk. -/
def dependencyClosure (p : Path) (v : VarId) : List VarId :=
  follow p.dependencies (edgeCount p.definedBy + edgeCount p.aliases + 1) [v] []

def markUsed (p : Path) (v : VarId) : Path :=
  if v ∈ p.checkTracked ∧ v ∉ p.usedInCheck then
    { p with usedInCheck := p.usedInCheck ++ [v] }.assume (Fact.usedInCheck (p.symbolBase v)).term
  else p

def markUsedInCheck (operand : Operand) (p : Path) : Path :=
  match operand with
  | .var v => (p.dependencyClosure v.id).foldl markUsed p
  | .const _ => p

/-! ## Writes of state variables -/

def noteWrite (p : Path) (i : Nat) (name : String) (count : Bool) : Path :=
  let p :=
    if p.varsWritten.contains i then p
    else { p with varsWritten := p.varsWritten.insert i }.assume (Fact.written name).term
  if count then { p with writeCounts := p.writeCounts.update i 0 (· + 1) } else p

end Path

namespace Machine

def stateRoot? (M : Machine) (p : Path) (v : Variable) : Option (Nat × String) :=
  let root := p.rootOf v
  if root.isState then (M.contract.stateVariable? root.name).map fun (i, _) => (i, root.name) else none

def recordDependencies (M : Machine) (target : Variable) (vars : List Variable) : StepM Unit :=
  if M.tracking.defBy then modify (·.addDependencies target.id (vars.map Variable.id)) else pure ()

def recordOperands (M : Machine) (target : Variable) (operands : List Operand) : StepM Unit :=
  M.recordDependencies target (operands.filterMap Operand.var?)

def recordWrite (M : Machine) (target : Variable) : StepM Unit :=
  if M.tracking.write then
    modify fun p =>
      match M.stateRoot? p target with
      | some (i, name) => p.noteWrite i name M.tracking.writeCount
      | none => p
  else pure ()

def pinKeys (name : String) (write : Nat) (keys : List Term) : List Nat → StepM Unit
  | [] => pure ()
  | level :: rest => do
    match keys[level]? with
    | some key => assume (← sorted (Term.mkEq (Fact.writtenKey name write level).term key))
    | none => pure ()
    pinKeys name write keys rest

/-- Pins the keys of a write through `target`, outermost first, at the levels a check asks about. -/
def recordKeys (M : Machine) (target : Variable) (keys : List Term) : StepM Unit := do
  let p ← get
  if M.tracking.writtenKey then
    match M.stateRoot? p target with
    | some (i, name) =>
      match p.keyLevels.get? i with
      | some levels => pinKeys name (p.writeCounts.getD i 0) keys levels.toList
      | none => pure ()
    | none => pure ()

/-! ## Assignment -/

/-- Returns the keys passed on the way, outermost first.  The number of links bounds the walk. -/
def writeBack : Nat → VarId → Term → List Term → StepM (List Term)
  | 0, v, value, keys => do
    modify (·.bind v (.term value))
    pure keys
  | fuel + 1, v, value, keys => do
    modify (·.bind v (.term value))
    match (← get).links.get? v with
    | none => pure keys
    | some link => do
      let outer ← sorted (Term.mkStore link.baseValue link.key value)
      writeBack fuel link.base outer (link.key :: keys)

def assign (M : Machine) (target : Variable) (value : Value) : StepM Unit := do
  let p ← get
  match p.links.get? target.id with
  | none => bind target (← fitted target value)
  | some link =>
    let t ← single value
    let updated ← sorted (Term.mkStore link.baseValue link.key t)
    bind target (.term t)
    let keys ← writeBack p.links.entries.length link.base updated [link.key]
    M.recordKeys target keys

end Machine

end TokenAudit
