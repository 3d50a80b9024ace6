import TokenAudit.Proofs.Verify.Asking
import TokenAudit.Proofs.Verify.Lockstep
import TokenAudit.Proofs.Verify.Trails
import TokenAudit.Proofs.Verify.Trigger

/-!
# Pruning and the verdict

A path is dropped when the solver finds that its log excludes what is required of it: after a step, on a way under a
condition, and when it is completed.
-/

namespace TokenAudit

open List

section

variable {m : Type → Type} [Monad m]

def Solver.lenient (solver : Solver m) : Solver m := { solver with checkSat := fun _ => pure (.ok .sat) }

/-- Explores and completes as if every path were feasible; only the verdict asks the solver. -/
def runUnpruned (solver : Solver m) (clock : Clock m) (config : Config) (check : Check) (prepared : Prepared) :
    m (Except VerifyError Bool × List Path) := do
  let paths ← explore solver.lenient clock config prepared
  match ← prepared.complete solver.lenient paths with
  | .error e => pure (.error (.path e), [])
  | .ok paths => judge solver prepared.subject check paths

def verifyUnpruned (solver : Solver m) (clock : Clock m) (program : Option Program) (config : Config)
    (contract : String) (target : Target) (check : Check) : m (Except VerifyError Bool × List Path) :=
  match prepare program config contract target check with
  | .error e => pure (.error e, [])
  | .ok prepared =>
    if prepared.vacuous then pure (.ok true, []) else runUnpruned solver clock config check prepared

end

def Unbroken {σ : Type} (solver : Solver (StateM σ)) (clock : Clock (StateM σ)) (config : Config)
    (prepared : Prepared) (w : σ) : Prop :=
  ∃ explored completed v v', Returns (explore solver clock config prepared) w explored v ∧
    (∀ p ∈ explored, ∀ cause, p.status ≠ .failed cause) ∧
    Returns (prepared.complete solver explored) v
      (.ok completed) v'

section

variable {σ : Type} {solver : Solver (StateM σ)} {w w' : σ} {final explored completed paths : List Path}
  {clock : Clock (StateM σ)} {contract : String} {target : Target} {prepared : Prepared} {p q : Path}
  {program : Option Program} {check : Check} {config : Config} {result : Except VerifyError Bool}

def Check.Faults (check : Check) (p : Path) : Prop :=
  match check with
  | .throws _ => p.status = .finished ∧ p.Admits ((p.buggy.map fun b => [b]).getD p.required)
  | _ => check.Concerns p ∧ ∃ b, p.buggy = some b ∧ p.Admits [b]

namespace Judge

theorem lookThrow_faults (truthful : solver.Truthful) :
    Finds (lookThrow solver .throws) fun p =>
      p.status = .finished ∧ p.Admits ((p.buggy.map fun b => [b]).getD p.required) := by
  intro p w result q w' looks
  unfold lookThrow at looks
  split at looks
  · rename_i finished
    obtain ⟨answer, v, asks, ends⟩ := looks.of_bind
    obtain ⟨found, rfl, meaning⟩ := satisfiable_truthful truthful asks
    cases ends.of_pure
    refine ⟨rfl, violatedIf found, rfl, ?_⟩
    dsimp only
    rw [← meaning]
    cases found <;> simp [violatedIf, finished]
  · contradiction
  · rename_i other _
    cases looks.of_pure
    have unfinished : p.status ≠ .finished := fun finished => other rfl finished
    exact ⟨rfl, .silent, rfl, by simp [unfinished]⟩

end Judge

/-- A throw is demanded, or an event without a condition. -/
def Check.Untriggered (check : Check) : Prop :=
  (∃ cond, check = .throws ⟨cond, .throws⟩) ∨ ∃ v, check = .emits v ∧ v.cond = none

theorem judge_decides (truthful : solver.Truthful) {S : Subject} (kind : check.Untriggered)
    (judges : Returns (judge solver S check paths) w (result, final) w') :
    final = paths ∧ ∃ b, result = .ok b ∧ (b = false ↔ ∃ p ∈ paths, check.Faults p) := by
  rcases kind with ⟨cond, rfl⟩ | ⟨v, rfl, _⟩
  · exact Judge.verdict_decided (Judge.lookThrow_faults truthful)
      (fun paths findings => Judge.noneViolated findings && (ThrowOp.throws = .throws ||
        paths.any fun p => p.status = .finished)) (by simp) judges
  · have emits := Judge.ifFinished_finds (Judge.lookEmit_finds truthful v)
    have decided := Judge.verdict_decided emits (fun _ => Judge.noneViolated) (fun _ _ => rfl) judges
    simpa only [Check.Faults, Check.Concerns, and_assoc] using decided

namespace Prepare

open Resolve

theorem throws_unaccused {v : ThrowCheck}
    (prepares : prepare program config contract target (.throws v) = .ok prepared) :
    ∀ p ∈ prepared.paths, p.buggy = none := by
  intro q member
  obtain ⟨_, _, starts, used, started, initial, ready⟩ := prepare_ends prepares
  obtain ⟨p, among, expected, one⟩ := exists_of_mem_right ready member
  obtain ⟨opts, r, r', sets, assumes, rfl⟩ := onePath_ends _ one
  have standing : Upholding prepared.subject (fun _ => True) (fun _ => True) (fun _ => True) (fun _ _ => True)
      fun r => r.path.buggy = none := standing_upholding (Q := fun bug _ => bug = none)
  have entered := startPaths_unaccused started p (initial.subset among)
  have set := ((standing.preparing (J := fun _ r => r.path.buggy = none) (fun inv => inv) fun inv => inv).throws opts
    (Check.permits_all _) fun _ _ => trivial).ends entered sets
  have keeps := keeps_assumeUnsignedTerms (I := fun s => s.path.buggy = none) r.unsignedTerms
    fun inv _ _ => inv
  exact (keeps.ends set assumes).1

end Prepare

theorem fault_admits (kind : check.Untriggered) (prepares : prepare program config contract target check = .ok prepared)
    (explores : Returns (explore solver clock config prepared) w explored w') (member : p ∈ explored)
    (finished : p.status = .finished)
    (closes : Complete.close prepared.subject.contract prepared.tracking prepared.expectedCalls p = .ok q)
    (fault : check.Faults q) : q.Admits q.required := by
  have task := Complete.close_task closes
  rcases kind with ⟨cond, rfl⟩ | ⟨v, rfl, unconditional⟩
  · obtain ⟨start, among, _, same⟩ := explored_origin prepares explores member (by simp [finished])
    have none : q.buggy = none :=
      task.buggy.trans (same.trans (Prepare.throws_unaccused prepares start among))
    obtain ⟨_, admits⟩ := fault
    rw [none] at admits
    exact admits
  · have none : q.required = [] :=
      task.required.trans (explored_untriggered unconditional prepares explores member finished)
    obtain ⟨_, b, _, admits⟩ := fault
    rw [none]
    exact admits.mono (nil_subset _)

theorem Check.Faults.finished (fault : check.Faults p) : p.status = .finished := by
  cases check with
  | throws v => exact fault.1
  | _ => exact fault.1.1

theorem Check.Faults.fork (fault : check.Faults p) (id : Nat) : check.Faults (p.fork id) := by
  cases check with
  | throws v | emits v | calls v | assigns v | returns v | orders v => exact fault

theorem Solver.lenient_agrees (solver : Solver (StateM σ)) {ts : List Term} {said : Except SolverError Bool}
    (heard : solver.lenient.Says ts said) : said = .ok true := by
  obtain ⟨w, answer, w', answers, rfl⟩ := heard
  cases answers.of_pure
  rfl

theorem Solver.lenient_within (solver : Solver (StateM σ)) : solver.lenient.Within Spared :=
  fun _ _ heard => ⟨true, solver.lenient_agrees heard, fun _ => rfl⟩

theorem faults_iff (truthful : solver.Truthful) (kind : check.Untriggered)
    (prepares : prepare program config contract target check = .ok prepared) {explored' completed' : List Path}
    {v₁ v₂ w₁ w₂ : σ} (explores : Returns (explore solver clock config prepared) w explored w₁)
    (unfailed : ∀ p ∈ explored, ∀ cause, p.status ≠ .failed cause)
    (completes : Returns (prepared.complete solver explored) w₁ (.ok completed) w₂)
    (explores' : Returns (explore solver.lenient clock config prepared) w' explored' v₁)
    (unfailed' : ∀ p ∈ explored', ∀ cause, p.status ≠ .failed cause)
    (completes' : Returns (prepared.complete solver.lenient explored') v₁ (.ok completed') v₂) :
    (∃ q ∈ completed, check.Faults q) ↔ ∃ q ∈ completed', check.Faults q := by
  have covered := explore_covered truthful.within solver.lenient_within explores
    (fun p member ms => unfailed p member _) explores'
  constructor
  · rintro ⟨q, member, fault⟩
    obtain ⟨id, kept⟩ := completed_kept completes completes' truthful.within covered solver.lenient_within
      (fun p member b => unfailed' p member _) member (.inl fault.finished)
    exact ⟨_, kept, fault.fork id⟩
  · rintro ⟨q, member, fault⟩
    rcases completed_covered completes completes' truthful.within covered member (.inl fault.finished) with
      ⟨id, kept⟩ | unmet
    · exact ⟨_, kept, fault.fork id⟩
    · obtain ⟨p, among, finished, closes, _⟩ := complete_finished completes' member fault.finished
      exact absurd (fault_admits kind prepares explores' among finished closes fault) unmet

theorem Explore.Left.unmarked {may : Saying} (spares : ∀ ts, ¬ may ts (.ok false))
    {M : Machine} (left : Explore.Left may M p q) (unmarked : p.status ≠ .unsat) : q.status ≠ .unsat := by
  have stepped {ways : List Successor} {r : Path} (runs : Machine.Runs M.step p ways r) : r.status ≠ .unsat := by
    rw [(Machine.step_sameTask runs).status]
    exact unmarked
  cases left with
  | givenUp b => exact nofun
  | stepped expanded =>
    cases expanded with
    | broken | failed | halted => exact nofun
    | unmet runs heard =>
      unfold Explore.HeardAfter at heard
      split at heard
      · cases heard
      · exact absurd heard (spares _)
    | stuck runs => exact stepped runs
    | copied runs member copied =>
      have kept := stepped runs
      cases copied with
      | untaken id => exact kept
      | took id took =>
        cases took with
        | threw | finished => exact nofun
        | @went next constraint => cases constraint <;> exact kept
        | dropped next heard => exact absurd heard (spares _)
        | failed => exact kept

theorem unpruned_unmarked (prepares : prepare program config contract target check = .ok prepared) {v v' : σ}
    (explores : Returns (explore solver.lenient clock config prepared) w explored w')
    (completes : Returns (prepared.complete solver.lenient explored) v (.ok completed) v') :
    ∀ q ∈ completed, q.status ≠ .unsat := by
  intro q member marked
  have running := Prepare.prepared_running prepares
  obtain ⟨p, among, here⟩ := exists_of_mem_right (complete_settled completes) member
  cases here with
  | kept unfinished =>
    obtain ⟨start, starts, visited, r, trail, left⟩ := Explore.explore_emerges running explores _ among
    have spares (ts : List Term) (heard : solver.lenient.Says ts (.ok false)) : False :=
      nomatch solver.lenient_agrees heard
    exact left.unmarked spares (by simp [trail.running (running start starts)]) marked
  | @closed r applies _ _ finished closes asks =>
    cases applies with
    | false =>
      have heard : Explore.HeardAfter (fun _ said => said = .ok true) _ _ :=
        (Explore.feasibleIfRequired_heard asks).mono fun _ _ => solver.lenient_agrees
      unfold Explore.HeardAfter Explore.Heard at heard
      simp at heard
    | true =>
      have status := (Complete.close_task closes).status
      rw [if_pos rfl] at marked
      rw [marked, finished] at status
      cases status

/-- With a truthful solver and within the budgets, a check that demands a throw, or an event without a condition,
has the verdict that it has when every path is taken to be feasible. -/
theorem pruning_keeps_verdict (truthful : solver.Truthful) {clock : Clock (StateM σ)} {program : Option Program}
    {config : Config} {contract : String} {target : Target} {check : Check} (kind : check.Untriggered)
    {v v' : σ} {result result' : Except VerifyError Bool} {executions executions' : List Path}
    (unbroken : ∀ prepared, prepare program config contract target check = .ok prepared → prepared.vacuous = false →
      Unbroken solver clock config prepared w ∧ Unbroken solver.lenient clock config prepared v)
    (runs : Returns (verify solver clock program config contract target check) w (result, executions) w')
    (unpruned : Returns (verifyUnpruned solver clock program config contract target check) v
      (result', executions') v') :
    result = result' ∧ ∀ q ∈ executions', q.status ≠ .unsat := by
  unfold verify at runs
  unfold verifyUnpruned at unpruned
  cases prepares : prepare program config contract target check with
  | error e =>
    rw [prepares] at runs unpruned
    cases runs.of_pure
    cases unpruned.of_pure
    exact ⟨rfl, fun _ none => nomatch none⟩
  | ok prepared =>
    rw [prepares] at runs unpruned
    dsimp only at runs unpruned
    cases vacuous : prepared.vacuous with
    | true =>
      rw [if_pos vacuous] at runs unpruned
      cases runs.of_pure
      cases unpruned.of_pure
      exact ⟨rfl, fun _ none => nomatch none⟩
    | false =>
      rw [if_neg (by simp [vacuous])] at runs unpruned
      obtain ⟨⟨explored, completed, w₁, w₂, explores, unfailed, completes⟩,
        explored', completed', v₁, v₂, explores', unfailed', completes'⟩ := unbroken prepared prepares vacuous
      have judges : Returns (judge solver prepared.subject check completed) w₂ (result, executions) w' := by
        obtain ⟨_, _, again, runs⟩ := runs.of_bind
        obtain ⟨rfl, rfl⟩ := explores.unique again
        obtain ⟨_, _, again, runs⟩ := runs.of_bind
        obtain ⟨rfl, rfl⟩ := completes.unique again
        exact runs
      have judges' : Returns (judge solver prepared.subject check completed') v₂ (result', executions') v' := by
        obtain ⟨_, _, again, unpruned⟩ := unpruned.of_bind
        obtain ⟨rfl, rfl⟩ := explores'.unique again
        obtain ⟨_, _, again, unpruned⟩ := unpruned.of_bind
        obtain ⟨rfl, rfl⟩ := completes'.unique again
        exact unpruned
      obtain ⟨rfl, b, rfl, verdict⟩ := judge_decides truthful kind judges
      obtain ⟨rfl, b', rfl, verdict'⟩ := judge_decides truthful kind judges'
      refine ⟨?_, unpruned_unmarked prepares explores' completes'⟩
      have same := faults_iff truthful kind prepares explores unfailed completes explores' unfailed' completes'
      rw [← verdict'] at same
      cases b <;> cases b' <;> simp_all

end

namespace Refused

/-- The function should throw if its argument is positive.  It does, and the way for all other arguments is dropped
at once. -/
def program : Program :=
  let positive : Variable := ⟨"positive", .temporary "pay", .named "bool"⟩
  { contracts := [{
      name := "Token"
      functions := [{
        name := "pay"
        params := [⟨"amount", .named "int256"⟩]
        nodes := [
          {
            kind := .ifBranch, sons := [1, 2], sonTrue := some 1, sonFalse := some 2
            instructions := [
              .binary .gt (.var ⟨"amount", .param "pay" 0, .named "int256"⟩) (.const (.int 0)) positive true,
              .condition (.var positive)] },
          { id := 1, kind := .throw },
          { id := 2, kind := .ret }] }] }] }

def config : Config := { timeBudgetMs := none, maxSteps := 20 }

def check : Check := .throws ⟨.comparison (.funcParam 0) (.constant (.int 0)) .gt, .throws⟩

def isPositive : Term := .order .gt (.var "p0" .int) (.int 0)

noncomputable def solver : Solver (StateM Unit) :=
  .informed [Report.baseLog ++ [isPositive]] [[isPositive, .not isPositive]]

theorem solver_truthful : solver.Truthful := by
  apply Solver.informed_truthful
  · simp only [mem_singleton, forall_eq]
    refine ⟨Report.world 1 1 false, ?_⟩
    simp [Report.baseLog, isPositive, Env.Holds, Term.eval, Report.world, Datum.ofCarrier, OrderOp.holds]
  · simpa only [mem_singleton, forall_eq] using not_satisfiable_denied isPositive

noncomputable def ends (s : Solver (StateM Unit)) : Option (List Status × Bool) :=
  (prepare (some program) config "Token" (.named "pay" none) check).toOption.map fun prepared =>
    let explored := ((explore s ⟨pure 0⟩ config prepared).run ()).1
    let closes := complete s prepared.subject.contract prepared.tracking prepared.expectedCalls explored
    (explored.map (·.status), (closes.run ()).1.toOption.isSome)

theorem unbroken {s : Solver (StateM Unit)} {statuses : List Status} (shown : ends s = some (statuses, true))
    (unfailed : ∀ cause, .failed cause ∉ statuses) {prepared : Prepared}
    (prepares : prepare (some program) config "Token" (.named "pay" none) check = .ok prepared) :
    Unbroken s ⟨pure 0⟩ config prepared () := by
  unfold ends at shown
  rw [prepares] at shown
  obtain ⟨rfl, completes⟩ := Prod.mk.inj (Option.some.inj shown)
  obtain ⟨completed, completes⟩ := Option.isSome_iff_exists.mp completes
  refine ⟨_, completed, (), (), rfl, fun p member cause failed => ?_, ?_⟩
  · exact unfailed cause (failed ▸ mem_map_of_mem member)
  · rw [← ok_of_toOption completes]
    rfl

noncomputable def run : StateM Unit (Except VerifyError Bool × List Path) :=
  verify solver ⟨pure 0⟩ (some program) config "Token" (.named "pay" none) check

noncomputable def runUnpruned : StateM Unit (Except VerifyError Bool × List Path) :=
  verifyUnpruned solver ⟨pure 0⟩ (some program) config "Token" (.named "pay" none) check

theorem ends_pruned : ends solver = some ([.threw, .unsat], true) := by
  decide +kernel

theorem ends_unpruned : ends solver.lenient = some ([.threw, .finished], true) := by
  decide +kernel

theorem run_eq : ((run.run ()).1.1.toOption, (run.run ()).1.2.map (·.status)) = (some true, [.threw, .unsat]) := by
  decide +kernel

theorem run_returns : ∃ executions, Returns run () (.ok true, executions) () ∧ ∃ q ∈ executions, q.status = .unsat := by
  obtain ⟨executions, returns, statuses⟩ := returns_of_view (List.map Path.status) run_eq
  exact ⟨executions, returns, mem_map.mp (statuses ▸ mem_cons_of_mem _ (mem_singleton_self _))⟩

end Refused

/-- The verdict stands although one of its paths was dropped. -/
theorem refused_unpruned_same : Refused.solver.Truthful ∧ ∃ executions executions',
    Returns Refused.run () (.ok true, executions) () ∧ (∃ q ∈ executions, q.status = .unsat) ∧
      Returns Refused.runUnpruned () (.ok true, executions') () ∧ ∀ q ∈ executions', q.status ≠ .unsat := by
  obtain ⟨executions, runs, dropped⟩ := Refused.run_returns
  have unpruned := returns_unit Refused.runUnpruned
  generalize (Refused.runUnpruned.run ()).1 = outcome at unpruned
  obtain ⟨result', executions'⟩ := outcome
  obtain ⟨rfl, unmarked⟩ := pruning_keeps_verdict Refused.solver_truthful (.inl ⟨_, rfl⟩)
    (fun _ prepares _ => ⟨Refused.unbroken Refused.ends_pruned (by simp) prepares,
      Refused.unbroken Refused.ends_unpruned (by simp) prepares⟩) runs unpruned
  exact ⟨Refused.solver_truthful, executions, executions', runs, dropped, unpruned, unmarked⟩

end TokenAudit
