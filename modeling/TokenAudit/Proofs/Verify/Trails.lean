import TokenAudit.Proofs.Verify.Exclusive

/-!
# The trail of an explored path

The exploration comes to a path from a starting path, stepping one path after the other and going on with a copy of
what the step left (`Trail`).
-/

namespace TokenAudit

open List Search

/-- From `start` the exploration comes to the path, stepping the paths of the list in this order. -/
inductive Trail (M : Machine) (start : Path) : List Path → Path → Prop
  | here : Trail M start [] start
  | on {visited : List Path} {p q : Path} {ways : List Successor} {way : Successor} {next : Location}
      (before : Trail M start visited p) (runs : Machine.Runs M.step p ways q) (member : way ∈ ways)
      (goes : way.next? = some next) (id : Nat) : Trail M start (visited ++ [p]) ((q.fork id).go way)

/-- The path finished from `start`, after the paths of the list were stepped. -/
inductive FinishedBy (M : Machine) (start : Path) : List Path → Path → Prop
  | by_step {visited : List Path} {p q : Path} {ways : List Successor} (before : Trail M start visited p)
      (runs : Machine.Runs M.step p ways q) (member : .finish ∈ ways) (id : Nat) :
      FinishedBy M start (visited ++ [p]) (((q.fork id).endAs .finished).assume Fact.threw.denial)

variable {visited : List Path} {start : Path}

theorem Trail.running {M : Machine} {p : Path} (trail : Trail M start visited p)
    (running : start.status = .running) : p.status = .running := by
  induction trail with
  | here => exact running
  | @on visited p q ways way next before runs member goes id ih =>
    rw [Path.go_eq]
    exact (Machine.step_sameTask runs).status.trans ih

namespace Explore

variable {may : Saying} {way : Successor} {M : Machine} {starts : List Path}
  {p q : Path} {goesOn : Bool}

inductive Left (may : Saying) (M : Machine) (p : Path) : Path → Prop
  | givenUp (b : Budget) : Left may M p (p.giveUp b)
  | stepped {q : Path} (expanded : Expanded may M p q false) : Left may M p q

def Emerges (may : Saying) (M : Machine) (starts : List Path) (q : Path) : Prop :=
  ∃ start ∈ starts, ∃ visited p, Trail M start visited p ∧ Left may M p q

/-- To the pending paths of the search the exploration has come, and the others emerge. -/
structure Traced (may : Saying) (M : Machine) (starts : List Path) (s : Search) : Prop where
  pending : ∀ ⦃x : Nat⦄ ⦃q : Path⦄, s.paths[x]? = some q → x ∈ s.pending →
    ∃ start ∈ starts, ∃ visited, Trail M start visited q
  settled : ∀ ⦃x : Nat⦄ ⦃q : Path⦄, s.paths[x]? = some q → x ∉ s.pending → Emerges may M starts q

theorem traced_start : Traced may M starts (.start starts) := by
  refine ⟨fun x q found _ => ⟨q, mem_of_getElem? found, [], .here⟩, fun x q found settled => ?_⟩
  exact absurd (pending_start found) settled

theorem replace_traced {s : Search} {i : Nat} {rest : List Nat} {first : Path × Bool} {later : List (Path × Bool)}
    (formed : s.WellFormed) (pending : s.pending = i :: rest) (found : s.paths[i]? = some p)
    (traced : Traced may M starts s) (expands : Expands may M p (first :: later)) :
    Traced may M starts (replace (s.awaiting rest) i first later) := by
  obtain ⟨placed, settled⟩ := formed.placed.pop pending
  have inRange := (List.getElem?_eq_some_iff.mp found).1
  obtain ⟨start, among, visited, trail⟩ := traced.pending found (pending ▸ mem_cons_self ..)
  constructor
  · intro x q there goes
    rcases replace_found placed settled inRange there with ⟨_, old, same⟩ | ⟨goesOn, site, same⟩
    · exact traced.pending old (pending ▸ mem_cons_of_mem i (same.mp goes))
    · cases same.mp goes
      obtain ⟨ways, r, way, next, id, runs, member, leads, rfl⟩ := (expands.expanded (mem_of_site site)).goes
      exact ⟨start, among, _, .on trail runs member leads id⟩
  · intro x q there rests
    rcases replace_found placed settled inRange there with ⟨apart, old, same⟩ | ⟨goesOn, site, same⟩
    · refine traced.settled old ?_
      rw [pending]
      exact not_mem_cons_of_ne_of_not_mem apart (mt same.mpr rests)
    · cases Bool.eq_false_iff.mpr (mt same.mpr rests)
      exact ⟨start, among, visited, p, trail, .stepped (expands.expanded (mem_of_site site))⟩

theorem explore_emerges {σ : Type} {solver : Solver (StateM σ)} {clock : Clock (StateM σ)} {config : Config}
    {prepared : Prepared} (running : ∀ p ∈ prepared.paths, p.status = .running) {w w' : σ} {final : List Path}
    (explores : Returns (explore solver clock config prepared) w final w') :
    ∀ q ∈ final, Emerges solver.Says (prepared.machine config) prepared.paths q := by
  obtain ⟨started, v, _, explores⟩ := explores.of_bind
  obtain ⟨u, traced, ends⟩ := search_keeps replace_traced (wellFormed_start running) traced_start explores
  intro q member
  obtain ⟨x, found⟩ := List.getElem?_of_mem member
  rcases ends with ⟨rfl, none⟩ | ⟨b, rfl⟩
  · exact traced.settled found (none ▸ not_mem_nil)
  · rcases giveUp_found found with ⟨p, pending, there, rfl⟩ | ⟨settled, old⟩
    · obtain ⟨start, among, visited, trail⟩ := traced.pending there pending
      exact ⟨start, among, visited, p, trail, .givenUp b⟩
    · exact traced.settled old settled

theorem Left.ends (left : Left may M p q) (running : p.status = .running) :
    (q.status ≠ .finished ∧ q.status ≠ .threw) ∨ (q.status = .threw ∧ ∃ r : Path, q = r.assume Fact.threw.term) ∨
      ∃ ways r id, Machine.Runs M.step p ways r ∧ .finish ∈ ways ∧
        q = ((r.fork id).endAs .finished).assume Fact.threw.denial := by
  have alive {r : Path} (status : r.status = .running) : r.status ≠ .finished ∧ r.status ≠ .threw := by
    simp [status]
  cases left with
  | givenUp b => exact .inl ⟨nofun, nofun⟩
  | stepped expanded =>
    cases expanded with
    | broken | failed | unmet | halted => exact .inl ⟨nofun, nofun⟩
    | stuck runs => exact .inl (alive ((Machine.step_sameTask runs).status.trans running))
    | @copied ways way r _ _ runs member copied =>
      have status : r.status = .running := (Machine.step_sameTask runs).status.trans running
      cases copied with
      | untaken id => exact .inl (alive status)
      | took id took =>
        cases took with
        | threw => exact .inr (.inl ⟨rfl, _, rfl⟩)
        | finished => exact .inr (.inr ⟨ways, r, id, runs, member, rfl⟩)
        | dropped => exact .inl ⟨nofun, nofun⟩
        | failed => exact .inl (alive status)
        | @went next constraint => cases constraint <;> exact .inl (alive status)

theorem Emerges.threw (emerges : Emerges may M starts q) (running : ∀ p ∈ starts, p.status = .running)
    (threw : q.status = .threw) : Fact.threw.term ∈ q.constraints.terms := by
  obtain ⟨start, among, visited, p, trail, left⟩ := emerges
  rcases left.ends (trail.running (running start among)) with ⟨_, not⟩ | ⟨_, r, rfl⟩ | ⟨_, _, _, _, _, rfl⟩
  · exact absurd threw not
  · exact Path.mem_terms_assume (by simp [Fact.term])
  · cases threw

theorem Emerges.finished (emerges : Emerges may M starts q) (running : ∀ p ∈ starts, p.status = .running)
    (finished : q.status = .finished) : ∃ start ∈ starts, ∃ visited, FinishedBy M start visited q := by
  obtain ⟨start, among, visited, p, trail, left⟩ := emerges
  rcases left.ends (trail.running (running start among)) with ⟨not, _⟩ | ⟨threw, _⟩ | ⟨ways, r, id, runs, member, rfl⟩
  · exact absurd finished not
  · exact absurd (threw.symm.trans finished) (by simp)
  · exact ⟨start, among, _, .by_step trail runs member id⟩

open Machine.Upkeep (FairWays)

/-- The invariant withstands what the exploration does to a path.  Its first argument tells whether the path has
come to an end, and whether it threw there. -/
structure Withstands (M : Machine) (Fair : Term → Prop) (J : Option Bool → Path → Prop) : Prop where
  step : Keeps (J none) (FairWays Fair) M.step
  assume {ended : Option Bool} {p : Path} {t : Term} (inv : J ended p) (fair : Fair t) : J ended (p.assume t)
  move {ended : Option Bool} {p : Path} (id : Nat) (status : Status) (location : Option Location) (inv : J ended p) :
    J ended { p with id := id, status := status, location := location }
  threw {p : Path} (inv : J none p) : J (some true) (p.assume Fact.threw.term)
  finished {p : Path} (inv : J none p) : J (some false) (p.assume Fact.threw.denial)

namespace Withstands

variable {Fair : Term → Prop} {J : Option Bool → Path → Prop} (withstands : Withstands M Fair J)

include withstands

theorem assumeEdge (fair : ∀ t, way.constraint? = some t → Fair t) (inv : J none p) :
    J none (p.assumeEdge way.constraint?) := by
  cases constraint : way.constraint? with
  | none => exact inv
  | some t => exact withstands.assume inv (fair t constraint)

theorem go (fair : ∀ t, way.constraint? = some t → Fair t) (inv : J none p) : J none (p.go way) := by
  have assumed := withstands.assumeEdge fair inv
  exact withstands.move _ (p.assumeEdge way.constraint?).status way.next? assumed

theorem trail (trail : Trail M start visited p) (inv : J none start) : J none p := by
  induction trail with
  | here => exact inv
  | @on visited p q ways way next before runs member goes id ih =>
    obtain ⟨kept, fair⟩ := withstands.step.ends ih runs
    exact withstands.go (fair way member) (withstands.move id q.status q.location kept)

theorem took {said : Except SolverError Bool} (took : Took may way p said q)
    (fair : ∀ t, way.constraint? = some t → Fair t) (inv : J none p) : ∃ ended, J ended q := by
  have assumed := withstands.assumeEdge fair inv
  cases took with
  | threw constraint => exact ⟨_, withstands.threw (withstands.move _ _ _ assumed)⟩
  | finished => exact ⟨_, withstands.finished (withstands.move _ _ _ inv)⟩
  | went next => exact ⟨_, withstands.go fair inv⟩
  | dropped next => exact ⟨_, withstands.move _ _ _ assumed⟩
  | failed next => exact ⟨_, assumed⟩

theorem copied (copied : Copied may p way (q, goesOn)) (fair : ∀ t, way.constraint? = some t → Fair t)
    (inv : J none p) : ∃ ended, J ended q := by
  cases copied with
  | untaken id => exact ⟨_, withstands.move id p.status p.location inv⟩
  | took id took => exact withstands.took took fair (withstands.move id p.status p.location inv)

theorem expanded (expanded : Expanded may M p q goesOn) (inv : J none p) : ∃ ended, J ended q := by
  cases expanded with
  | @broken e r fails =>
    have kept := (withstands.step inv).1
    have same : outcome M.step p = (.error e, r) := fails
    rw [same] at kept
    exact ⟨_, withstands.move r.id _ none kept⟩
  | failed runs | unmet runs => exact ⟨_, withstands.move _ _ none (withstands.step.ends inv runs).1⟩
  | stuck runs => exact ⟨_, (withstands.step.ends inv runs).1⟩
  | copied runs member copied =>
    obtain ⟨kept, fair⟩ := withstands.step.ends inv runs
    exact withstands.copied copied (fair _ member) kept
  | halted runs member copied e =>
    obtain ⟨kept, fair⟩ := withstands.step.ends inv runs
    obtain ⟨ended, inv⟩ := withstands.copied copied (fair _ member) kept
    exact ⟨ended, withstands.move _ _ none inv⟩

theorem left (left : Left may M p q) (inv : J none p) : ∃ ended, J ended q := by
  cases left with
  | givenUp b => exact ⟨_, withstands.move p.id _ p.location inv⟩
  | stepped expanded => exact withstands.expanded expanded inv

theorem finishedBy (finishes : FinishedBy M start visited p) (inv : J none start) : J (some false) p := by
  cases finishes with
  | @by_step visited p q ways before runs member id =>
    have kept := (withstands.step.ends (withstands.trail before inv) runs).1
    have forked : J none (q.fork id) := withstands.move id q.status q.location kept
    exact withstands.finished (withstands.move id .finished none forked)

end Withstands

end Explore

structure Trial where
  program : Program
  function : String
  check : Check

namespace Trial

def config : Config := { timeBudgetMs := none, maxSteps := 20, arrayLengths := [1, 2] }

def prepared (t : Trial) : Except VerifyError Prepared :=
  prepare (some t.program) config "Token" (.named t.function none) t.check

def explored (prepared : Prepared) : StateM Unit (List Path) := explore agreeable ⟨pure 0⟩ config prepared

def completed (prepared : Prepared) (paths : List Path) : StateM Unit (Except PathError (List Path)) :=
  complete agreeable prepared.subject.contract prepared.tracking prepared.expectedCalls paths

def outcome? (t : Trial) : Option (Prepared × List Path × List Path) := do
  let prepared ← t.prepared.toOption
  let paths := ((explored prepared).run ()).1
  let final ← ((completed prepared paths).run ()).1.toOption
  return (prepared, paths, final)

theorem outcome_runs {t : Trial} {prepared : Prepared} {paths final : List Path}
    (ends : t.outcome? = some (prepared, paths, final)) : t.prepared = .ok prepared ∧
      Returns (explored prepared) () paths () ∧ Returns (completed prepared paths) () (.ok final) () := by
  obtain ⟨_, prepares, ends⟩ := Option.bind_eq_some_iff.mp ends
  obtain ⟨_, completes, ends⟩ := Option.bind_eq_some_iff.mp ends
  cases ends
  refine ⟨ok_of_toOption prepares, rfl, ?_⟩
  rw [← ok_of_toOption completes]
  rfl

end Trial

end TokenAudit
