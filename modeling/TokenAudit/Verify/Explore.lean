import TokenAudit.Machine.Walk
import TokenAudit.Verify.Prepare

/-!
# Exploring paths

Paths are stepped one at a time, the latest first, until every path has ended or a budget runs out.
-/

namespace TokenAudit

structure Clock (m : Type → Type) where
  now : m Nat

namespace Path

def endAs (p : Path) (status : Status) : Path := { p with status := status, location := none }

def fail (p : Path) (e : PathError) : Path := p.endAs (.failed (.error e))

def giveUp (p : Path) (b : Budget) : Path := { p with status := .failed (.budget b) }

end Path

/-- The paths of a run, those that still go on by place with the latest first, and the next number. -/
structure Search where
  paths : List Path
  pending : List Nat
  nextId : Nat

namespace Search

def start (paths : List Path) : Search where
  paths := paths
  pending := (List.range paths.length).reverse
  nextId := ((paths.map Path.id).max?.map (· + 1)).getD 0

abbrev awaiting (s : Search) (rest : List Nat) : Search := { s with pending := rest }

def put (s : Search) (i : Nat) (p : Path) : Search := { s with paths := s.paths.set i p }

def giveUp (s : Search) (b : Budget) : List Path :=
  s.pending.foldl (fun paths i => paths.modify i (·.giveUp b)) s.paths

end Search

namespace Explore

variable {m : Type → Type} [Monad m]

def feasible (solver : Solver m) (p : Path) : m (Except SolverError Bool) := do
  match ← solver.checkSat (p.constraints.extended p.required) with
  | .ok result => pure (.ok (result != .unsat))
  | .error e => pure (.error e)

def feasibleIfRequired (solver : Solver m) (p : Path) : m (Except SolverError Bool) :=
  if p.required.isEmpty then pure (.ok true) else feasible solver p

def take (solver : Solver m) (way : Successor) (p : Path) : m (Except SolverError Bool × Path) :=
  match way with
  | .throws constraint => pure (.ok false, ((p.assumeEdge constraint).endAs .threw).assume Fact.threw.term)
  | .finish => pure (.ok false, (p.endAs .finished).assume Fact.threw.denial)
  | .goto next none => pure (.ok true, { p with location := some next })
  | .goto next (some constraint) => do
    let p := p.assume constraint
    match ← feasible solver p with
    | .ok true => pure (.ok true, { p with location := some next })
    | .ok false => pure (.ok false, p.endAs .unsat)
    | .error e => pure (.error e, p)

/-- Takes the ways in turn, each on the path at its place; gives the places of the paths that go on. -/
def takeAll (solver : Solver m) :
    List (Nat × Successor) → List Path → m (Except SolverError (List Nat) × List Path)
  | [], paths => pure (.ok [], paths)
  | (place, way) :: rest, paths =>
    match paths[place]? with
    | none => takeAll solver rest paths
    | some p => do
      let (result, p) ← take solver way p
      let paths := paths.set place p
      match result with
      | .error e => pure (.error e, paths)
      | .ok goesOn =>
        let (result, paths) ← takeAll solver rest paths
        pure (result.map fun running => if goesOn then place :: running else running, paths)

/-- Copies the path for every way but the first, then takes them all.  If the solver fails, the path
fails and none of the ways is followed. -/
def branch (solver : Solver m) (s : Search) (i : Nat) (p : Path) (ways : List Successor) : m Search := do
  let copies := ways.length - 1
  let forks := (List.range copies).map fun k => p.fork (s.nextId + k)
  let places := i :: (List.range copies).map (s.paths.length + ·)
  let (result, paths) ← takeAll solver (places.zip ways) (s.paths.set i p ++ forks)
  let s := { s with nextId := s.nextId + copies }
  match result with
  | .ok running => pure { s with paths := paths, pending := running.reverse ++ s.pending }
  | .error e => pure { s with paths := paths.modify i (·.fail (.solver e)) }

def advance (M : Machine) (solver : Solver m) (s : Search) (i : Nat) : m Search :=
  match s.paths[i]? with
  | none => pure s
  | some p => do
    let (result, p) := M.stepOn p
    match result with
    | .error e => pure (s.put i (p.fail e))
    | .ok ways =>
      match ← feasibleIfRequired solver p with
      | .error e => pure (s.put i (p.fail (.solver e)))
      | .ok false => pure (s.put i (p.endAs .unsat))
      | .ok true => branch solver s i p ways

def exhausted (config : Config) (clock : Clock m) (started : Nat) (s : Search) : m (Option Budget) :=
  if config.maxPaths < s.paths.length then pure (some (.paths s.paths.length))
  else
    match config.timeBudgetMs with
    | none => pure none
    | some budget => do
      let now ← clock.now
      pure (if budget * 1000000 < now - started then some (.time budget) else none)

def search (M : Machine) (solver : Solver m) (clock : Clock m) (started : Nat) : Nat → Search → m (List Path)
  | 0, s => pure (s.giveUp (.steps M.config.maxSteps))
  | left + 1, s =>
    match s.pending with
    | [] => pure s.paths
    | i :: rest => do
      match ← exhausted M.config clock started s with
      | some b => pure (s.giveUp b)
      | none => search M solver clock started left (← advance M solver (s.awaiting rest) i)

end Explore

def Subject.machine (S : Subject) (tracking : Tracking) (config : Config) : Machine :=
  ⟨S.program, S.contract, S.id.contract, tracking, config⟩

abbrev Prepared.machine (prepared : Prepared) (config : Config) : Machine :=
  prepared.subject.machine prepared.tracking config

def explore {m : Type → Type} [Monad m] (solver : Solver m) (clock : Clock m) (config : Config)
    (prepared : Prepared) : m (List Path) := do
  let started ← clock.now
  Explore.search (prepared.machine config) solver clock started config.maxSteps
    (.start prepared.paths)

end TokenAudit
