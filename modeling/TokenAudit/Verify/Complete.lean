import TokenAudit.Verify.Explore

/-!
# Completing paths

A finished path is closed: every recorded fact that never happened on it is denied, counts and final
values are pinned, and what was put off during the run is assumed.
-/

namespace TokenAudit

namespace Complete

def sorted (e : Except SortError Term) : Except PathError Term :=
  match e with
  | .ok t => .ok t
  | .error e => .error (.sort e)

def denyUnless (happened : Bool) (fact : Fact) (p : Path) : Path := if happened then p else p.assume fact.denial

def closeVariable (c : Contract) (tracking : Tracking) (p : Path) (i : Nat) : Except PathError Path :=
  match c.stateVariables[i]? with
  | none => .ok p
  | some sv => do
    let p := denyUnless (p.varsWritten.contains i) (.written sv.name) p
    let p ←
      if tracking.writeCount then do
        let count := p.writeCounts.getD i 0
        pure (p.assume (← sorted (Term.mkEq (Fact.writtenCount sv.name).term (.int count))))
      else pure p
    let (value, p) := p.read c (.ofState sv.name sv.type)
    match value with
    | .term now => do
      pure (p.assume (← sorted (Term.mkEq (Fact.postExec sv.name (.ofType sv.type)).term now)))
    | .tuple _ => pure p

def closeEvent (c : Contract) (p : Path) (i : Nat) : Path :=
  match c.events[i]? with
  | none => p
  | some e => denyUnless (p.eventsEmitted.contains i) (.emitted e.name) p

def closeCall (p : Path) (c : CallOn) : Path :=
  denyUnless (p.calledOn.contains c) (.called c.receiver c.function) p

def closeReturn (p : Path) (function : String) : Path :=
  denyUnless (p.calledFunctions.contains function) (.fnCalled function) p

def closeChecked (p : Path) (v : VarId) : Path :=
  denyUnless (decide (v ∈ p.usedInCheck)) (.usedInCheck (p.symbolBase v)) p

def close (c : Contract) (tracking : Tracking) (expected : List CallOn) (p : Path) : Except PathError Path := do
  let p ← p.varsTracked.toList.foldlM (closeVariable c tracking) p
  let p := p.eventsTracked.toList.foldl (closeEvent c) p
  let p := expected.foldl closeCall p
  let p := p.returnsTracked.toList.foldl closeReturn p
  let p := p.checkTracked.foldl closeChecked p
  return p.deferred.foldl Path.assume { p with deferred := [] }

end Complete

def complete {m : Type → Type} [Monad m] (solver : Solver m) (c : Contract) (tracking : Tracking)
    (expected : List CallOn) : List Path → m (Except PathError (List Path))
  | [] => pure (.ok [])
  | p :: rest => do
    if p.status = .finished then
      match Complete.close c tracking expected p with
      | .error e => pure (.error e)
      | .ok p =>
        match ← Explore.feasibleIfRequired solver p with
        | .error e => pure (.error (.solver e))
        | .ok applies =>
          let p := if applies then p else { p with status := .unsat }
          return (← complete solver c tracking expected rest).map (p :: ·)
    else return (← complete solver c tracking expected rest).map (p :: ·)

abbrev Prepared.complete {m : Type → Type} [Monad m] (prepared : Prepared) (solver : Solver m) (paths : List Path) :
    m (Except PathError (List Path)) :=
  TokenAudit.complete solver prepared.subject.contract prepared.tracking prepared.expectedCalls paths

end TokenAudit
