import TokenAudit.Config
import TokenAudit.Hash.Keccak
import TokenAudit.Verify.Resolve

/-!
# Preparing a check

The paths from which a check is explored: assumptions, lengths of array parameters, the facts to record, the condition
under which the check applies, and the formula that holds exactly on a violation.
-/

namespace TokenAudit

structure Prepared where
  subject : Subject
  tracking : Tracking
  paths : List Path
  expectedCalls : List CallOn
  vacuous : Bool

def Prepared.buggy? (prepared : Prepared) : Option Term := prepared.paths.head?.bind Path.buggy

inductive Outlook where
  | vacuous
  | ready (expected : List CallOn)

namespace Prepare

open Resolve Term

/-! ## Registrations -/

def assume (t : Term) : ResolveM Unit := onPath (·.assume t)

def demandAll (ts : List Term) : ResolveM Unit := onPath fun p => { p with required := p.required ++ ts }

def demand (t : Term) : ResolveM Unit := demandAll [t]

def trackVariable (i : Nat) : ResolveM Unit := onPath fun p => { p with varsTracked := p.varsTracked.insert i }

def trackLevel (i level : Nat) : ResolveM Unit :=
  onPath fun p => { p with keyLevels := p.keyLevels.update i .empty (·.insert level) }

def trackEvent (i : Nat) : ResolveM Unit := onPath fun p => { p with eventsTracked := p.eventsTracked.insert i }

def trackEventArg (i index : Nat) : ResolveM Unit :=
  onPath fun p => { p with eventArgsTracked := p.eventArgsTracked.update i .empty (·.insert index) }

def trackCallArg (callee : String) (index : Nat) : ResolveM Unit :=
  onPath fun p => { p with callArgsTracked := p.callArgsTracked.update callee .empty (·.insert index) }

def setBuggy (parts : List Term) : ResolveM Unit := onPath fun p => { p with buggy := some (mkOr parts) }

def demandCondition (S : Subject) (opts : Reading) (cond : Option Condition) : ResolveM Unit :=
  match cond with
  | some c => do demand (← condition S opts c)
  | none => pure ()

/-- The ways in which one argument is wrong, each put in its surroundings by `within`. -/
def argumentBugs (S : Subject) (opts : Reading) (within : Term → Term) (arg : Term) (a : ArgCheck) :
    ResolveM (List Term) := do
  let wrongValue ← match a.value with
    | none => pure []
    | some s =>
      match ← selector S opts s with
      | some value => do pure [within (← sorted (mkNe arg value))]
      | none => pure []
  let wrongCond ← match a.cond with
    | none => pure []
    | some c => do pure [within (mkNot (← condition S opts c))]
  pure (wrongValue ++ wrongCond)

/-! ## Throws and results -/

def comparesOnly : Condition → Bool
  | .comparison _ _ _ => true
  | .logic _ _ => true
  | _ => false

def throws (S : Subject) (opts : Reading) (v : ThrowCheck) : ResolveM Outlook := do
  if comparesOnly v.cond then
    demand (← condition S opts v.cond)
    demandAll ((← get).returnsOf.toList.map fun f => (Fact.fnCalled f).term)
    pure (.ready [])
  else throw (.unsupported (.throwCondition v.cond))

def returns (S : Subject) (opts : Reading) (v : ReturnCheck) : ResolveM Outlook := do
  demandCondition S opts v.cond
  pure (.ready [])

/-! ## Calls -/

def calledFact (c : CallOn) : Fact := .called c.receiver c.function

def codeTerms (receiver : Term) : Except SortError (Term × Term) := do
  let hasCode ← mkGt (receiver.derived "code.length" .int) .zero
  let hash := receiver.derived "codehash" .int
  let hasHash := mkAnd [← mkNe hash .zero, ← mkNe hash (.int Keccak.emptyCodeHash)]
  return (hasCode, hasHash)

def callArgumentBugs (S : Subject) (opts : Reading) (callee : String) (within : Term → Term) :
    List ArgCheck → ResolveM (List Term)
  | [] => pure []
  | a :: rest => do
    trackCallArg callee a.index
    let bugs ← argumentBugs S opts within (callParam S callee a.index) a
    return bugs ++ (← callArgumentBugs S opts callee within rest)

/-- The call is made exactly when the receiver is a contract, with the expected arguments. -/
def calls (S : Subject) (opts : Reading) (v : CallCheck) : ResolveM Outlook := do
  if v.cond != "is_contract" then throw (.unsupported (.callCondition v.cond))
  let receiver ← required .noneReceiver (← selector S opts v.receiver)
  let expected := (v.callee :: v.alternatives).map fun f => CallOn.mk receiver.nameHint f
  let made := mkOr (expected.map fun c => (calledFact c).term)
  let notMade := mkAnd (expected.map fun c => (calledFact c).denial)
  let (hasCode, hasHash) ← match codeTerms receiver with
    | .ok terms => pure terms
    | .error e => throw (.path (.sort e))
  let isContract := mkOr [hasCode, hasHash]
  assume (mkImplies hasCode hasHash)
  assume (mkImplies hasHash hasCode)
  demand (← sorted (mkNe receiver .zero))
  let wrongArgs ← callArgumentBugs S { opts with callee := some v.callee } v.callee
    (fun t => mkAnd [made, isContract, t]) v.args
  setBuggy ([mkAnd [notMade, isContract], mkAnd [made, mkNot isContract]] ++ wrongArgs)
  pure (.ready expected)

/-! ## Events -/

def trackNamedEvents (S : Subject) : List String → ResolveM Unit
  | [] => pure ()
  | name :: rest => do
    match S.contract.event? name with
    | some (i, _) => trackEvent i
    | none => assume (Fact.emitted name).denial
    trackNamedEvents S rest

def cellAtFirstWrite (i : Nat) (name : String) : List Nat → Term × Term → ResolveM (Term × Term)
  | [], cells => pure cells
  | level :: rest, (pre, post) => do
    trackLevel i level
    let key := (Fact.writtenKey name 1 level).term
    let post ← sorted (mkSelect post key)
    let pre ← sorted (mkSelect pre key)
    cellAtFirstWrite i name rest (pre, post)

/-- The mapping was written once, and the written cell grew or shrank. -/
def balanceChange (S : Subject) (i : Nat) (v : Variable) (change : ChangeType) : ResolveM (List Term) := do
  let levels := v.type.mappingKeys.length
  if levels = 0 then throw (.unsupported (.balanceChange v.name))
  let before ← read S v
  let (pre, post) ← cellAtFirstWrite i v.name (List.range levels)
    (before, (Fact.postExec v.name (.ofType v.type)).term)
  let moved ← sorted (if change = .tokenCreation then mkGt post pre else mkLt post pre)
  let once ← sorted (mkEq (Fact.writtenCount v.name).term (.int 1))
  pure [moved, once]

/-- The state condition of an emission with what it says of the change; none when the function never
writes that variable. -/
def stateCondition (S : Subject) (opts : Reading) (cond : Option Condition) :
    ResolveM (Option (Term × List Term)) :=
  match cond with
  | none => pure (some (.bool true, []))
  | some (.written value change) => do
    let (i, v) ← stateVariable S value
    if (S.program.stateVariablesWritten S.id).contains v.name then
      trackVariable i
      let holds ← condition S opts (.written value change)
      if change = .unspecified then pure (some (holds, []))
      else do return some (holds, ← balanceChange S i v change)
    else pure none
  | some other => throw (.unsupported (.stateCondition other))

def eventArgumentBugs (S : Subject) (opts : Reading) (event : String) (i : Nat) (within : Term → Term) :
    List ArgCheck → ResolveM (List Term)
  | [] => pure []
  | a :: rest => do
    trackEventArg i a.index
    let arg ← eventParam S event a.index
    let bugs ← argumentBugs S opts within arg a
    return bugs ++ (← eventArgumentBugs S opts event i within rest)

def emits (S : Subject) (opts : Reading) (v : EmitCheck) : ResolveM Outlook := do
  demandCondition S opts v.cond
  let events := v.event :: v.alternatives
  trackNamedEvents S events
  let anyEmitted := mkOr (events.map fun e => (Fact.emitted e).term)
  let noneEmitted := mkAnd (events.map fun e => (Fact.emitted e).denial)
  match ← stateCondition S opts v.stateCond with
  | none => pure .vacuous
  | some (holds, change) =>
    let inChange (parts : List Term) : Term := mkAnd (parts ++ change)
    let missing := [inChange [holds, noneEmitted]]
    let unprompted :=
      if v.needsStateCond && v.stateCond.isSome then [inChange [mkNot holds, anyEmitted], mkNot holds] else []
    let wrongArgs ←
      if v.args.isEmpty then pure []
      else do
        let (i, _) ← eventNamed S v.event
        eventArgumentBugs S { opts with event := some v.event } v.event i
          (fun t => inChange [holds, anyEmitted, t]) v.args
    setBuggy (missing ++ unprompted ++ wrongArgs)
    pure (.ready [])

/-! ## Assignments and orders -/

def assigns (S : Subject) (v : AssignCheck) : ResolveM Outlook := do
  if v.op != "overwrite" then throw (.unsupported (.assignOperator v.op))
  let (i, _) ← stateVariable S v.state
  trackVariable i
  match v.event with
  | none => pure ()
  | some event =>
    match S.contract.event? event with
    | some (e, decl) =>
      trackEvent e
      onPath fun p => { p with
        eventArgsTracked := p.eventArgsTracked.insert e (.ofList (List.range decl.params.length)) }
    | none => assume (Fact.emitted event).denial
  pure (.ready [])

def orders (S : Subject) (v : OrderCheck) : ResolveM Outlook := do
  match v.target with
  | .event name arg =>
    let (i, _) ← eventNamed S name
    trackEvent i
    trackEventArg i arg
  | .written state level =>
    let (i, _) ← stateVariable S state
    trackVariable i
    trackLevel i level
  pure (.ready [])

def setup (S : Subject) (opts : Reading) (check : Check) : ResolveM Outlook :=
  match check with
  | .throws v => throws S opts v
  | .returns v => returns S opts v
  | .calls v => calls S opts v
  | .emits v => emits S opts v
  | .assigns v => assigns S v
  | .orders v => orders S v

def assumeUnsignedTerms : List Term → ResolveM Unit
  | [] => pure ()
  | t :: rest => do
    assume (← sorted (mkGe t .zero))
    assumeUnsignedTerms rest

/-- Prepares one path.  The last element of an array of known length stands for the array. -/
def onePath (S : Subject) (check : Check) (p : Path) : Except VerifyError (Outlook × Path) :=
  let opts : Reading := { element := p.arrayLength.bind fun n => if n = 0 then none else some (n - 1) }
  let go : ResolveM Outlook := do
    let outlook ← setup S opts check
    let r ← get
    assumeUnsignedTerms r.unsignedTerms
    onPath fun p => { p with returnsTracked := p.returnsTracked.insertAll r.returnsOf.toList }
    pure outlook
  let (result, r) := (go.run (.start p))
  result.map fun outlook => (outlook, r.path)

/-! ## Starting paths -/

/-- The path at the entry of the function: the sender, the contract and zero are different accounts. -/
def basePath (S : Subject) : ResolveM Unit := do
  onPath S.seed
  onPath fun p => { p with calledFunctions := p.calledFunctions.insert S.function.name }
  let sender ← read S .sender
  let this ← read S .this
  assume (← sorted (mkNe sender .zero))
  assume (← sorted (mkNe sender this))
  assume (← sorted (mkNe this .zero))

def arrayParams (f : Function) : List Variable :=
  ((List.range f.params.length).filterMap f.param?).filter (·.type.isArray)

def assumeLengths (S : Subject) (length : Nat) : List Variable → ResolveM Unit
  | [] => pure ()
  | v :: rest => do
    let array ← read S v
    assume (← sorted (mkEq (array.derived "length" .int) (.int length)))
    assumeLengths S length rest

def withLength (S : Subject) (base : Path) (id length : Nat) : Except VerifyError Path :=
  let (result, r) := ((assumeLengths S length (arrayParams S.function)).run
    (.start { base.fork id with arrayLength := some length }))
  result.map fun _ => r.path

def lengthsFor (config : Config) (check : Check) : List Nat :=
  match check with
  | .throws _ => config.throwArrayLengths
  | _ => config.arrayLengths

def startPaths (S : Subject) (config : Config) (check : Check) : Except VerifyError (List Path) :=
  let (result, r) := ((basePath S).run (.start S.entryPath))
  match result with
  | .error e => .error e
  | .ok _ =>
    if (arrayParams S.function).isEmpty then .ok [r.path]
    else (lengthsFor config check).zipIdx.mapM fun (length, i) => withLength S r.path i length

def allPaths (S : Subject) (check : Check) : List Path → Prepared → Except VerifyError Prepared
  | [], prepared => .ok prepared
  | p :: rest, prepared =>
    match onePath S check p with
    | .error e => .error e
    | .ok (.vacuous, _) => .ok { prepared with vacuous := true }
    | .ok (.ready expected, p) =>
      allPaths S check rest { prepared with paths := prepared.paths ++ [p], expectedCalls := expected }

def forSubject (S : Subject) (config : Config) (check : Check) : Except VerifyError Prepared := do
  allPaths S check (← startPaths S config check) ⟨S, check.tracking, [], [], false⟩

end Prepare

def subjectOf (program : Option Program) (contract : String) (target : Target) : Except VerifyError Subject :=
  match program with
  | none => .error .noProgram
  | some program =>
    match (program.contractIndex? contract).bind fun i => (program.contract? i).map fun c => (i, c) with
    | none => .error (.contractNotFound contract)
    | some (i, c) =>
      match Subject.find? program i c target with
      | some S => .ok S
      | none =>
        let name := match target with
          | .named name _ => name
          | .function id => "#" ++ toString id.function
        .error (.functionNotFound c.name name)

def prepare (program : Option Program) (config : Config) (contract : String) (target : Target) (check : Check) :
    Except VerifyError Prepared := do
  Prepare.forSubject (← subjectOf program contract target) config check

end TokenAudit
