import TokenAudit.Verify.Complete

/-!
# Judging a check

Paths are looked at in order until one of them violates the check.
-/

namespace TokenAudit

inductive Finding where
  | holds
  | silent
  | violated
  deriving DecidableEq, Repr

abbrev Looked := Except VerifyError Finding × Path

namespace Judge

open Resolve

variable {m : Type → Type} [Monad m]

def scan (look : Path → m Looked) :
    List Path → m (Except VerifyError (List Finding) × List Path)
  | [] => pure (.ok [], [])
  | p :: rest => do
    let (result, p) ← look p
    match result with
    | .error e => pure (.error e, p :: rest)
    | .ok .violated => pure (.ok [.violated], p :: rest)
    | .ok finding =>
      let (result, rest) ← scan look rest
      pure (result.map (finding :: ·), p :: rest)

def ifFinished (look : Path → m Looked) (p : Path) : m Looked :=
  if p.status = .finished then look p else pure (.ok .silent, p)

/-- Whether the path is possible together with `extra`; an undecided answer does not count. -/
def satisfiable (solver : Solver m) (p : Path) (extra : List Term) : m (Except VerifyError Bool) := do
  match ← solver.checkSat (p.constraints.extended extra) with
  | .ok result => pure (.ok (result == .sat))
  | .error e => pure (.error (.solver e))

def violatedIf (b : Bool) : Finding := if b then .violated else .holds

def violatedWhen (solver : Solver m) (p : Path) (extra : List Term) : m Looked := do
  return ((← satisfiable solver p extra).map violatedIf, p)

def noneViolated (findings : List Finding) : Bool := !findings.contains .violated

/-! ## Throws, events and calls -/

/-- A finished path violates a check that demands a throw when it is possible where the check applies; a
thrown path violates the opposite check when it is possible only there. -/
def lookThrow (solver : Solver m) (op : ThrowOp) (p : Path) : m Looked :=
  match op, p.status with
  | .throws, .finished => violatedWhen solver p ((p.buggy.map fun b => [b]).getD p.required)
  | .passes, .threw => do
    match ← satisfiable solver p p.required with
    | .ok true => do
      return ((← satisfiable solver p (p.required.map Term.mkNot)).map fun b => violatedIf !b, p)
    | .ok false => pure (.ok .holds, p)
    | .error e => pure (.error e, p)
  | _, _ => pure (.ok .silent, p)

def lookBuggy (solver : Solver m) (p : Path) : m Looked :=
  match p.buggy with
  | some b => violatedWhen solver p [b]
  | none => pure (.ok .silent, p)

def lookEmit (solver : Solver m) (v : EmitCheck) (p : Path) : m Looked :=
  match v.within with
  | some f => if p.calledFunctions.contains f then lookBuggy solver p else pure (.ok .silent, p)
  | none => lookBuggy solver p

/-! ## Assignments -/

def assignBug (S : Subject) (v : AssignCheck) : ResolveM Term := do
  let opts : Reading := { event := v.event }
  let state ← required .noneState (← selector S opts v.state)
  let expected ← match ← selector S opts v.value with
    | some t => pure t
    | none =>
      match Term.defaultOf state.sort with
      | some t => pure t
      | none => throw (.unsupported .arrayDefault)
  let wrong ← sorted (Term.mkNe state expected)
  pure (Term.mkAnd (wrong :: (v.event.map fun e => (Fact.emitted e).term).toList))

def lookAssign (solver : Solver m) (S : Subject) (v : AssignCheck) (p : Path) : m Looked :=
  let (result, r) := ((assignBug S v).run (.start p))
  match result with
  | .error e => pure (.error e, r.path)
  | .ok bug => violatedWhen solver r.path [bug]

/-! ## Results -/

def returnedTerm? (p : Path) : Option Term :=
  match p.returned with
  | some (.constant c) => some c.term
  | some (.symbolic v) => v.term?
  | none => none

/-- That the path returns the expected value; none when there is no value to compare. -/
def returnMatch (S : Subject) (v : ReturnCheck) : ResolveM (Option Term) := do
  let expected ← selector S {} v.expected
  match returnedTerm? (← get).path, expected with
  | some ret, some exp => do return some (← sorted (Term.mkEq ret exp))
  | _, _ => pure none

def returnFinding (v : ReturnCheck) (ok : Bool) : Finding :=
  if ok then .holds else if v.atLeastOne then .silent else .violated

def lookReturn (solver : Solver m) (S : Subject) (v : ReturnCheck) (p : Path) : m Looked :=
  let (result, r) := ((returnMatch S v).run (.start p))
  match result with
  | .error e => pure (.error e, r.path)
  | .ok none => pure (.ok (returnFinding v false), r.path)
  | .ok (some (.bool b)) => pure (.ok (returnFinding v b), r.path)
  | .ok (some eq) => do return ((← satisfiable solver r.path [eq]).map (returnFinding v), r.path)

/-! ## Orders -/

def eventMismatches (event : String) (arg : Nat) (sort : SmtSort) (ordered : Term) :
    List Nat → Except SortError (List Term)
  | [] => .ok []
  | k :: rest => do
    let expected ← Term.mkSelect ordered (.int k)
    let wrong ← Term.mkNe (Fact.emittedArg event (k + 1) arg sort).term expected
    return wrong :: (← eventMismatches event arg sort ordered rest)

def keyOutOfOrder (solver : Solver m) (p : Path) (name : String) (level : Nat) (ordered : Term) :
    Nat → Nat → m (Except VerifyError Finding)
  | 0, _ => pure (.ok .holds)
  | left + 1, i => do
    let wrong : Except SortError Term := do
      let expected ← Term.mkSelect ordered (.int i)
      Term.mkNe (Fact.writtenKey name ((i + 1) * 2) level).term expected
    match wrong with
    | .error e => pure (.error (.path (.sort e)))
    | .ok wrong =>
      match ← satisfiable solver p [wrong] with
      | .error e => pure (.error e)
      | .ok true => pure (.ok .violated)
      | .ok false => keyOutOfOrder solver p name level ordered left (i + 1)

/-- That the emissions are out of order; fewer than two of them have none. -/
def eventOrderBug (S : Subject) (event : String) (arg : Nat) (ordered : Term) (p : Path) :
    Except VerifyError (Option Term) :=
  match S.contract.event? event with
  | none => .error (.eventNotFound S.contract.name event)
  | some (i, decl) =>
    let count := p.emitCounts.getD i 0
    if count < 2 then .ok none
    else
      let sort := ((decl.params[arg]?).map fun param => SmtSort.ofType param.type).getD .int
      match eventMismatches event arg sort ordered (List.range count) with
      | .error e => .error (.path (.sort e))
      | .ok wrong => .ok (some (Term.mkOr wrong))

def modelLength? (model : Option Model) (length : Term) : Option Nat :=
  match model.bind (·.int? length) with
  | some (.ofNat n) => Number.word? n
  | _ => none

def lookWriteOrder (solver : Solver m) (i : Nat) (v : Variable) (level : Nat) (ordered : Term) (p : Path) :
    m (Except VerifyError Finding) := do
  if !p.varsWritten.contains i || p.writeCounts.getD i 0 < 2 then pure (.ok .silent)
  else
    let length := ordered.derived "length" .int
    match ← solver.model p.constraints.terms [length] with
    | .error e => pure (.error (.solver e))
    | .ok model =>
      match modelLength? model length with
      | none => pure (.error (.unsupported (.noLength length.nameHint)))
      | some n => keyOutOfOrder solver p v.name level ordered n 0

def ordering (S : Subject) (s : Selector) : ResolveM Term := do required .noneOrdering (← selector S {} s)

def lookOrder (solver : Solver m) (S : Subject) (v : OrderCheck) (p : Path) : m Looked := do
  let (result, r) := ((ordering S v.orderedBy).run (.start p))
  match result with
  | .error e => pure (.error e, r.path)
  | .ok ordered =>
    match v.target with
    | .event name arg =>
      match eventOrderBug S name arg ordered r.path with
      | .error e => pure (.error e, r.path)
      | .ok none => pure (.ok .silent, r.path)
      | .ok (some bug) => violatedWhen solver r.path [bug]
    | .written state level =>
      match ((stateVariable S state).run r).1 with
      | .error e => pure (.error e, r.path)
      | .ok (i, var) => return (← lookWriteOrder solver i var level ordered r.path, r.path)

end Judge

def judge {m : Type → Type} [Monad m] (solver : Solver m) (S : Subject) (check : Check) (paths : List Path) :
    m (Except VerifyError Bool × List Path) := do
  match check with
  | .throws v =>
    let (result, paths) ← Judge.scan (Judge.lookThrow solver v.op) paths
    let possible := v.op = .throws || paths.any fun p => p.status = .finished
    pure (result.map fun fs => Judge.noneViolated fs && possible, paths)
  | .emits v =>
    let (result, paths) ← Judge.scan (Judge.ifFinished (Judge.lookEmit solver v)) paths
    pure (result.map Judge.noneViolated, paths)
  | .calls _ =>
    let (result, paths) ← Judge.scan (Judge.ifFinished (Judge.lookBuggy solver)) paths
    pure (result.map Judge.noneViolated, paths)
  | .assigns v =>
    let (result, paths) ← Judge.scan (Judge.ifFinished (Judge.lookAssign solver S v)) paths
    pure (result.map Judge.noneViolated, paths)
  | .returns v =>
    if paths.isEmpty then pure (.ok false, paths)
    else
      let (result, paths) ← Judge.scan (Judge.ifFinished (Judge.lookReturn solver S v)) paths
      pure (result.map fun fs => Judge.noneViolated fs && (!v.atLeastOne || fs.contains .holds), paths)
  | .orders v =>
    let (result, paths) ← Judge.scan (Judge.ifFinished (Judge.lookOrder solver S v)) paths
    pure (result.map Judge.noneViolated, paths)

end TokenAudit
