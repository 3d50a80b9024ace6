import TokenAudit.Proofs.Verify.Pruning
import TokenAudit.Proofs.Verify.Undecided

/-!
# Verdicts under timeouts

Two runs of one check, with a truthful solver and with one that leaves some queries undecided.
-/

namespace TokenAudit

open List Report

variable {findings : List Finding}

namespace Judge

variable {σ : Type} {solver : Solver (StateM σ)} {oracle : Solver Id} {S : Subject} {check : Check}
  {paths final : List Path} {p q : Path} {w w' : σ} {b : Bool} {result : Except VerifyError Finding} {v : ReturnCheck}

theorem judge_scanned (judges : Returns (judge solver S check paths) w (.ok b, final) w') :
    ((∃ v, check = .returns v) ∧ paths = [] ∧ b = false) ∨ ((∃ v, check = .returns v) → paths ≠ []) ∧
      ∃ findings, Returns (scan (lookFor solver S check) paths) w (.ok findings, final) w' ∧
        b = concludes check final findings := by
  by_cases returning : (∃ v, check = .returns v) → paths ≠ []
  · rw [judge_scans solver S returning] at judges
    obtain ⟨⟨scanned, looked⟩, v, scans, ends⟩ := judges.of_bind
    obtain ⟨same, rfl⟩ := returns_pure.mp ends
    obtain ⟨verdict, rfl⟩ := Prod.mk.inj same
    cases scanned with
    | error e => cases verdict
    | ok findings => exact .inr ⟨returning, findings, scans, (Except.ok.inj verdict).symm⟩
  · simp only [Classical.not_imp, not_not] at returning
    obtain ⟨⟨v, rfl⟩, rfl⟩ := returning
    have ended : Returns (pure (.ok false, []) : StateM σ (Except VerifyError Bool × List Path)) w (.ok b, final) w' :=
      judges
    cases ended.of_pure
    exact .inl ⟨⟨v, rfl⟩, rfl, rfl⟩

theorem concludes_unviolated (complied : concludes check final findings = true) : .violated ∉ findings := by
  have none (quiet : noneViolated findings = true) : .violated ∉ findings := by simpa [noneViolated] using quiet
  cases check with
  | throws v | returns v => exact none (Bool.and_eq_true_iff.mp complied).1
  | _ => exact none complied

theorem ifFinished_same {look : Path → StateM σ Looked} (unfinished : p.status ≠ .finished)
    (looks : Returns (ifFinished look p) w (result, q) w') : q = p := by
  rw [ifFinished, if_neg unfinished] at looks
  exact found_same looks

theorem lookFor_unfinished (unfinished : p.status ≠ .finished)
    (looks : Returns (lookFor solver S check p) w (result, q) w') : q = p := by
  cases check with
  | throws v => exact lookThrow_same looks
  | _ => exact ifFinished_same unfinished looks

theorem scan_unfinished {result : Except VerifyError (List Finding)}
    (scans : Returns (scan (lookFor solver S check) paths) w (result, final) w') (member : p ∈ paths)
    (unfinished : p.status ≠ .finished) : p ∈ final := by
  obtain ⟨q, left, same | ⟨_, _, _, looks⟩⟩ := exists_of_mem_right (scan_final scans).flip member
  · exact same ▸ left
  · exact lookFor_unfinished unfinished looks ▸ left

theorem scan_throws {v : ThrowCheck} {result : Except VerifyError (List Finding)}
    (scans : Returns (scan (lookFor solver S (.throws v)) paths) w (result, final) w') : final = paths := by
  have same : List.Forall₂ (fun p q => p = q) paths final := (scan_final scans).imp fun p q => by
    rintro (same | ⟨_, _, _, looks⟩)
    · exact same.symm
    · exact (lookThrow_same looks).symm
  exact (forall₂_eq_eq_eq ▸ same : paths = final).symm

theorem ifFinished_finished {look : Path → Id Looked}
    (found : (ifFinished look p).run.1 ≠ .ok .silent) : p.status = .finished := by
  by_contra unfinished
  rw [ifFinished, if_neg unfinished] at found
  exact found rfl

theorem lookFor_concluded (found : (lookFor oracle S check p).run.1 ≠ .ok .silent) : p.Concluded := by
  cases check with
  | throws v =>
    cases status : p.status with
    | finished => exact .inl status
    | threw => exact .inr status
    | _ =>
      refine absurd ?_ found
      show (lookThrow oracle v.op p).run.1 = _
      unfold lookThrow
      rw [status]
      cases v.op <;> rfl
  | _ => exact .inl (ifFinished_finished found)

theorem returnFinding_violated (violated : returnFinding v b = .violated) : v.atLeastOne = false := by
  cases every : v.atLeastOne with
  | false => rfl
  | true => cases b <;> simp [returnFinding, every] at violated

theorem lookReturn_violated (looks : Returns (lookReturn solver S v p) w (.ok .violated, q) w') :
    v.atLeastOne = false := by
  obtain ⟨_, _, b, _, _, violated, _⟩ := lookReturn_cases looks
  exact returnFinding_violated violated

theorem lookFor_finished {m : Type → Type} [Monad m] (solver : Solver m) (S : Subject)
    (finished : p.status = .finished) : lookFor solver S (.returns v) p = lookReturn solver S v p :=
  if_pos finished

theorem lookFor_confirmed (heeds : solver.Heeds oracle) {finding : Finding} (finished : p.status = .finished)
    (looks : Returns (lookReturn solver S v p) w (.ok finding, q) w') (confirms : ∀ t, solver.Confirms q [t]) :
    (lookFor oracle S (.returns v) p).run.1 = .ok finding := by
  rw [lookFor_finished oracle S finished]
  exact lookReturn_confirmed looks heeds confirms

end Judge

section

variable {σ : Type} {solver : Solver (StateM σ)} {clock : Clock (StateM σ)} {program : Option Program} {config : Config}
  {contract : String} {target : Target} {check : Check} {prepared : Prepared} {executions : List Path} {w w' : σ}

theorem verify_stages {b : Bool} (prepares : prepare program config contract target check = .ok prepared)
    (runs : Returns (verify solver clock program config contract target check) w (.ok b, executions) w') :
    prepared.vacuous = true ∧ b = true ∨ prepared.vacuous = false ∧ ∃ explored completed v v',
      Returns (explore solver clock config prepared) w explored v ∧
      Returns (prepared.complete solver explored) v
        (.ok completed) v' ∧
      Returns (judge solver prepared.subject check completed) v' (.ok b, executions) w' := by
  unfold verify at runs
  rw [prepares] at runs
  dsimp only at runs
  split at runs
  · rename_i vacuous
    cases runs.of_pure
    exact .inl ⟨vacuous, rfl⟩
  · rename_i live
    obtain ⟨explored, v, explores, runs⟩ := runs.of_bind
    obtain ⟨completed, v', completes, runs⟩ := runs.of_bind
    cases completed with
    | error e => cases runs.of_pure
    | ok completed => exact .inr ⟨Bool.eq_false_iff.mpr live, explored, completed, v, v', explores, completes, runs⟩

end

open Judge

def Unspent (executions : List Path) : Prop := ∀ p ∈ executions, ∀ b, p.status ≠ .failed (.budget b)

namespace Check

/-- The answers that the verdict on the paths needs.  A check that a throw is demanded, an event without a condition,
an assignment and an order need none. -/
def Tolerates {σ : Type} (check : Check) (solver : Solver (StateM σ)) (executions : List Path) : Prop :=
  match check with
  | .throws v => v.op = .passes → Unspent executions ∧
      ∀ p ∈ executions, p.status = .threw → solver.Confirms p (p.required.map Term.mkNot)
  | .emits v => v.cond ≠ none → ∀ p ∈ executions, p.status = .finished → p.Admits [] → p.Admits p.required
  | .calls _ => ∀ p ∈ executions, p.status = .finished → p.Admits [] → p.Admits p.required
  | .returns v => (∀ p ∈ executions, p.status = .finished → ∀ t, solver.Confirms p [t]) ∧
      if v.atLeastOne then Unspent executions
      else ∀ p ∈ executions, p.status = .finished → p.Admits p.required
  | .assigns _ => True
  | .orders _ => True

end Check

section

variable {σ : Type} {solver : Solver (StateM σ)} {oracle : Solver Id} {clock : Clock (StateM σ)}
  {program : Option Program} {config : Config} {contract : String} {target : Target} {check : Check}
  {prepared : Prepared} {explored completed executions : List Path} {w v v' : σ} {p : Path}

theorem completed_task (completes : Returns (prepared.complete solver explored) v (.ok completed) v')
    (member : p ∈ completed) (finished : p.status = .finished) :
    ∃ q ∈ explored, q.status = .finished ∧ q.SameTask p := by
  obtain ⟨q, among, was_finished, closes, _⟩ := complete_finished completes member finished
  exact ⟨q, among, was_finished, Complete.close_task closes⟩

theorem violation_warranted (heeds : solver.Heeds oracle)
    (prepares : prepare program config contract target check = .ok prepared)
    (explores : Returns (explore solver clock config prepared) w explored v)
    (completes : Returns (prepared.complete solver explored) v (.ok completed) v')
    (tolerates : check.Tolerates solver executions) (member : p ∈ completed)
    (found : Found (lookFor solver prepared.subject check) executions p .violated) :
    (lookFor oracle prepared.subject check p).run.1 = .ok .violated ∧ p.Admits p.required := by
  obtain ⟨q, left, u, u', looks⟩ := found
  have undemanded (permits : check.Permits (· ≠ .condition)) (finished : p.status = .finished) (admits : p.Admits []) :
      p.Admits p.required := by
    obtain ⟨r, among, was_finished, task⟩ := completed_task completes member finished
    rw [task.required, explored_undemanded permits prepares explores among was_finished]
    exact admits
  cases check with
  | throws v =>
    cases lookThrow_same looks
    refine lookThrow_warranted heeds (fun finished => ?_) (fun passes => (tolerates passes).2 p left) looks
    obtain ⟨r, among, was_finished, task⟩ := completed_task completes member finished
    obtain ⟨start, starts, _, same⟩ := explored_origin prepares explores among (by simp [was_finished])
    exact task.buggy.trans (same.trans (Prepare.throws_unaccused prepares start starts))
  | emits v =>
    obtain ⟨finished, looked⟩ := ifFinished_violated looks
    cases lookEmit_same looked
    refine (ifFinished_warranted (lookEmit_warranted heeds v) looks).imp_right fun admits => ?_
    by_cases conditional : v.cond = none
    · obtain ⟨r, among, was_finished, task⟩ := completed_task completes member finished
      rw [task.required, explored_untriggered conditional prepares explores among was_finished]
      exact admits
    · exact tolerates conditional p left finished admits
  | calls v =>
    obtain ⟨finished, looked⟩ := ifFinished_violated looks
    cases lookBuggy_same looked
    exact (ifFinished_warranted (lookBuggy_warranted heeds) looks).imp_right (tolerates p left finished)
  | assigns v =>
    exact (ifFinished_warranted (lookAssign_warranted heeds v) looks).imp_right
      (undemanded ⟨nofun, fun _ _ => ⟨nofun, nofun⟩⟩ (ifFinished_violated looks).1)
  | orders v =>
    have permits : (Check.orders v).Permits (· ≠ .condition) := by
      obtain ⟨target, orderedBy⟩ := v
      cases target <;> exact ⟨nofun, nofun⟩
    exact (ifFinished_warranted (lookOrder_warranted heeds v) looks).imp_right
      (undemanded permits (ifFinished_violated looks).1)
  | returns v =>
    obtain ⟨finished, looked⟩ := ifFinished_violated looks
    obtain ⟨adds, status, required⟩ := lookReturn_left looked
    obtain ⟨confirms, kept⟩ := tolerates
    rw [if_neg (by simp [lookReturn_violated looked])] at kept
    rw [required]
    exact ⟨lookFor_confirmed heeds finished looked (confirms q left (status ▸ finished)),
      (kept q left (status ▸ finished)).earlier adds⟩

end

section

variable {σ σ' : Type} {solver : Solver (StateM σ)} {solver' : Solver (StateM σ')} {clock : Clock (StateM σ)}
  {clock' : Clock (StateM σ')} {program : Option Program} {config : Config} {contract : String} {target : Target}
  {check : Check} {prepared : Prepared} {explored explored' completed completed' executions executions' : List Path}
  {w u : σ} {w' u' : σ'} {p : Path} {S : Subject}

theorem executions_failed {findings : Except VerifyError (List Finding)} {c : Contract} {tracking : Tracking}
    {expected : List CallOn} {v : σ}
    (completes : Returns (complete solver c tracking expected explored) w (.ok completed) u)
    (scans : Returns (scan (lookFor solver S check) completed) u (findings, executions) v)
    (member : p ∈ explored) {cause : Failure} (failed : p.status = .failed cause) : p ∈ executions := by
  have unfinished : p.status ≠ .finished := by simp [failed]
  exact scan_unfinished scans (complete_unfinished completes member unfinished) unfinished

theorem found_frozen (consults : solver.Consults (solver.frozen u) []) {finding : Finding}
    (found : Found (lookFor solver S check) executions p finding) :
    (lookFor (solver.frozen u) S check p).run.1 = .ok finding := by
  obtain ⟨q, _, v, v', looks⟩ := found
  have follows := lookFor_follows (consults.mono (nil_subset p.constraints.terms)) S check
  exact (congrArg Prod.fst (follows.result looks)).symm

theorem holds_kept {oracle : Solver Id} {v : ReturnCheck} {id : Nat}
    (heeds : solver'.Heeds oracle) (holds : (lookFor oracle S (.returns v) p).run.1 = .ok .holds)
    (confirms : ∀ q ∈ executions', q.status = .finished → ∀ t, solver'.Confirms q [t])
    (scans : Returns (scan (lookFor solver' S (.returns v)) completed') w' (.ok findings, executions') u')
    (unviolated : .violated ∉ findings) (member : p.fork id ∈ completed') : .holds ∈ findings := by
  obtain ⟨finding, among, q, left, _, _, looks⟩ := (scan_found scans).2 unviolated _ member
  have loud : (lookFor oracle S (.returns v) p).run.1 ≠ .ok .silent := by simp [holds]
  have finished : (p.fork id).status = .finished := ifFinished_finished (p := p) loud
  rw [lookFor_finished solver' S finished] at looks
  have status := (lookReturn_left looks).2.1
  have known := lookFor_confirmed heeds finished looks (confirms q left (status ▸ finished))
  have alike : Alike (lookFor oracle S (.returns v)) := lookFor_alike S _
  cases known.symm.trans ((congrArg Prod.fst (alike p id)).trans holds)
  exact among

/-- A check that is complied with when a truthful solver is asked stays so when some queries are left undecided,
provided that it tolerates what that run ends with. -/
theorem timeouts_tolerated (truthful : solver.Truthful) (echoes : solver'.Echoes solver)
    (complies : Returns (verify solver clock program config contract target check) w (.ok true, executions) u)
    (inTime : ∀ p ∈ executions, ∀ ms, p.status ≠ .failed (.budget (.time ms))) {b : Bool}
    (decides : Returns (verify solver' clock' program config contract target check) w' (.ok b, executions') u')
    (tolerates : check.Tolerates solver' executions') : b = true := by
  cases prepares : prepare program config contract target check with
  | error e =>
    rw [verify, prepares] at complies
    cases complies.of_pure
  | ok prepared =>
  rcases verify_stages prepares decides with
    ⟨_, decided⟩ | ⟨live, explored', completed', _, _, explores', completes', judges'⟩
  · exact decided
  rcases verify_stages prepares complies with
    ⟨vacuous, _⟩ | ⟨_, explored, completed, _, _, explores, completes, judges⟩
  · rw [live] at vacuous
    cases vacuous
  have told := truthful.within
  have spared := echoes.within truthful w
  have heeds := echoes.heeds truthful w
  rcases judge_scanned judges with ⟨_, _, impossible⟩ | ⟨some_path, findings, scans, complied⟩
  · cases impossible
  have covered := explore_covered told spared explores
    (fun p member ms failed => inTime p (executions_failed completes scans member failed) ms failed) explores'
  have unviolated := concludes_unviolated complied.symm
  have clear : ∀ p ∈ completed, (lookFor (solver.frozen w) prepared.subject check p).run.1 ≠ .ok .violated := by
    intro p member violated
    obtain ⟨finding, among, found⟩ := (scan_found scans).2 unviolated p member
    cases (found_frozen (echoes.consults truthful w' w) found).symm.trans violated
    exact unviolated among
  rcases judge_scanned judges' with ⟨returning, none, _⟩ | ⟨_, findings', scans', rfl⟩
  · -- there would have been no path at all
    have unexplored : explored' = [] := by
      rw [none] at completes'
      exact forall₂_nil_right_iff.mp (complete_settled completes')
    rw [covered.none unexplored] at completes
    exact absurd (forall₂_nil_left_iff.mp (complete_settled completes)) (some_path returning)
  have unviolated' : .violated ∉ findings' := by
    intro violated
    obtain ⟨p, member, found⟩ := (scan_found scans').1 _ violated
    obtain ⟨violated, admits⟩ := violation_warranted heeds prepares explores' completes' tolerates member found
    have concluded := lookFor_concluded (by rw [violated]; simp)
    rcases completed_covered completes completes' told covered member concluded with ⟨id, copy⟩ | unmet
    · exact clear _ copy ((congrArg Prod.fst (lookFor_alike prepared.subject check p id)).trans violated)
    · exact unmet admits
  have kept (unspent : Unspent executions') {p : Path} (member : p ∈ completed) (concluded : p.Concluded) :
      ∃ id, p.fork id ∈ completed' :=
    completed_kept completes completes' told covered spared
      (fun p member b failed => unspent p (executions_failed completes' scans' member failed) b failed) member concluded
  cases check with
  | throws v =>
    cases op : v.op with
    | throws => simp [concludes, noneViolated, op, unviolated']
    | passes =>
      rw [scan_throws scans] at complied
      obtain ⟨p, member, finished⟩ : ∃ p ∈ completed, p.status = .finished := by
        simpa [concludes, noneViolated, op, unviolated] using complied
      obtain ⟨id, copy⟩ := kept (tolerates op).1 member (.inl finished)
      have some_finished : ∃ q ∈ completed', q.status = .finished := ⟨p.fork id, copy, finished⟩
      rw [scan_throws scans']
      simpa [concludes, noneViolated, op, unviolated'] using some_finished
  | returns v =>
    cases one : v.atLeastOne with
    | false => simp [concludes, noneViolated, one, unviolated']
    | true =>
      have holds : .holds ∈ findings := by
        simpa [concludes, noneViolated, one, unviolated] using complied
      obtain ⟨p, member, found⟩ := (scan_found scans).1 _ holds
      have known := found_frozen (echoes.consults truthful w' w) found
      obtain ⟨confirms, unspent⟩ := tolerates
      rw [if_pos one] at unspent
      obtain ⟨id, copy⟩ := kept unspent member (lookFor_concluded (by rw [known]; simp))
      have holds' := holds_kept heeds known confirms scans' unviolated' copy
      simp [concludes, noneViolated, unviolated', holds']
  | _ => simp [concludes, noneViolated, unviolated']

end

def Solver.hesitant (solver : Solver (StateM Unit)) (undecided : List Term → Bool) : Solver (StateM Unit) :=
  { solver with checkSat := fun ts => if undecided ts then pure (.ok .unknown) else solver.checkSat ts }

section

variable {solver : Solver (StateM Unit)} {undecided : List Term → Bool} {ts : List Term}

theorem Solver.hesitant_undecided (left : undecided ts = true) :
    (solver.hesitant undecided).checkSat ts = pure (.ok .unknown) :=
  if_pos left

theorem Solver.hesitant_decided (decided : undecided ts = false) :
    (solver.hesitant undecided).checkSat ts = solver.checkSat ts :=
  if_neg (by simp [decided])

theorem Solver.hesitant_echoes (solver : Solver (StateM Unit)) (undecided : List Term → Bool) :
    (solver.hesitant undecided).Echoes solver where
  answer ts _ _ := by
    cases answers : undecided ts with
    | true => exact ⟨.ok .unknown, (), by rw [hesitant_undecided answers]; rfl, .inl rfl⟩
    | false => exact ⟨((solver.checkSat ts).run ()).1, (), by rw [hesitant_decided answers]; rfl, .inr ⟨(), rfl⟩⟩
  model _ _ _ _ := ⟨_, (), (), rfl, rfl⟩

theorem Solver.hesitant_confirms (truthful : solver.Truthful) {p : Path} {extra : List Term}
    (decided : undecided (p.constraints.extended extra) = false) : (solver.hesitant undecided).Confirms p extra := by
  intro admits w answer w' answers
  rw [hesitant_decided decided] at answers
  rcases truthful.answer answers with ⟨_, sat⟩ | ⟨impossible, _⟩
  · exact sat
  · exact absurd (Path.satisfiable_extended.mpr admits) impossible

end

structure Doubt where
  program : Program
  function : String
  check : Check
  steps : Nat
  possible : List (List Term)
  impossible : List (List Term)
  undecided : List Term → Bool

namespace Doubt

variable {d : Doubt}

noncomputable def solver (d : Doubt) : Solver (StateM Unit) := .informed d.possible d.impossible

noncomputable def hesitant (d : Doubt) : Solver (StateM Unit) := d.solver.hesitant d.undecided

def run (d : Doubt) (solver : Solver (StateM Unit)) : StateM Unit (Except VerifyError Bool × List Path) :=
  verify solver ⟨pure 0⟩ (some d.program) { timeBudgetMs := none, maxSteps := d.steps } "Token" (.named d.function none)
    d.check

structure Sound (d : Doubt) : Prop where
  holds : ∀ log ∈ d.possible, Satisfiable log
  fails : ∀ core ∈ d.impossible, ¬ Satisfiable core

theorem Sound.truthful (sound : d.Sound) : d.solver.Truthful :=
  Solver.informed_truthful sound.holds sound.fails

/-- The truthful solver finds the check complied with; left undecided on some queries, it does not. -/
def Misleads (d : Doubt) : Prop :=
  d.solver.Truthful ∧ d.hesitant.Echoes d.solver ∧ ∃ executions executions',
    Returns (d.run d.solver) () (.ok true, executions) () ∧ Returns (d.run d.hesitant) () (.ok false, executions') ()

theorem Sound.misleads (sound : d.Sound) (decided : ((d.run d.solver).run ()).1.1.toOption = some true)
    (undecided : ((d.run d.hesitant).run ()).1.1.toOption = some false) : d.Misleads := by
  obtain ⟨executions, complies⟩ := returns_of_toOption decided
  obtain ⟨executions', reports⟩ := returns_of_toOption undecided
  exact ⟨sound.truthful, d.solver.hesitant_echoes _, executions, executions', complies, reports⟩

def token (function : Function) : Program :=
  { contracts := [{
      name := "Token"
      events := [⟨"Moved", []⟩]
      functions := [function] }] }

def param (function name : String) (i : Nat) : Operand := .var ⟨name, .param function i, .named "int256"⟩

def throwed : Term := .var "#throwed" .bool

def isZero : Term := .eq (.var "p0" .int) (.int 0)

def echoed : Doubt :=
  { program := token {
      name := "echo"
      params := [⟨"x", .named "int256"⟩]
      returns := [.named "int256"]
      nodes := [{ kind := .ret, instructions := [.ret [param "echo" "x" 0]] }] }
    function := "echo"
    check := .returns ⟨.constant (.int 1), none, false⟩
    steps := 20
    possible := [baseLog ++ [.not throwed, .eq (.var "p0" .int) (.int 1)]]
    impossible := []
    undecided := fun _ => true }

theorem echoed_sound : echoed.Sound where
  holds := by
    simp only [echoed, mem_singleton, forall_eq]
    refine ⟨world 1 1 false, ?_⟩
    simp [baseLog, throwed, Env.Holds, Term.eval, world, Datum.ofCarrier, OrderOp.holds]
  fails := nofun

def charged : Doubt :=
  let paid : Variable := ⟨"paid", .temporary "pay", .named "bool"⟩
  let isPaid : Term := .order .gt (.var "p1" .int) (.int 0)
  { program := token {
      name := "pay"
      params := [⟨"x", .named "int256"⟩, ⟨"fee", .named "int256"⟩]
      nodes := [{
        kind := .ret
        instructions := [
          .binary .gt (param "pay" "fee" 1) (.const (.int 0)) paid true,
          .builtinCall "require(bool)" [.var paid] none] }] }
    function := "pay"
    check := .throws ⟨.comparison (.funcParam 0) (.constant (.int 0)) .eq, .passes⟩
    steps := 20
    possible := [baseLog ++ [isPaid, .not throwed, isZero], baseLog ++ [.not isPaid, throwed, isZero],
      baseLog ++ [.not isPaid, throwed, .not isZero]]
    impossible := []
    undecided := fun ts => ts.contains (.not isZero) }

def thrown (param : Int) : Env :=
  { world param 0 true with
    symbol := fun name sort => match sort with
      | .bool => true
      | s => (world param 0 true).symbol name s }

theorem charged_sound : charged.Sound where
  holds := by
    simp only [charged, forall_mem_cons, not_mem_nil, false_imp_iff, implies_true, and_true]
    refine ⟨⟨world 0 1 false, ?_⟩, ⟨thrown 0, ?_⟩, ⟨thrown 1, ?_⟩⟩ <;>
      simp [baseLog, throwed, isZero, thrown, Env.Holds, Term.eval, world, Datum.ofCarrier, OrderOp.holds]
  fails := nofun

def chosen (check : Check) (steps : Nat) (possible : List (List Term)) : Doubt :=
  let zero : Variable := ⟨"zero", .temporary "choose", .named "bool"⟩
  { program := token {
      name := "choose"
      params := [⟨"x", .named "int256"⟩]
      nodes := [
        {
          kind := .ifBranch, sons := [1, 2], sonTrue := some 1, sonFalse := some 2
          instructions := [.binary .eq (param "choose" "x" 0) (.const (.int 0)) zero true, .condition (.var zero)] },
        { id := 1, kind := .ret },
        { id := 2, kind := .throw }] }
    function := "choose"
    check := check
    steps := steps
    possible := possible
    impossible := [[isZero, .not isZero]]
    undecided := fun ts => [isZero, .not isZero] ⊆ ts }

def skipped : Doubt :=
  chosen (.emits {
      event := "Moved", cond := some (.comparison (.funcParam 0) (.constant (.int 0)) .notEq) }) 20
    [baseLog ++ [.not isZero], baseLog ++ [isZero, .not throwed, .not (.var "Moved#emitted" .bool)]]

/-- If the argument is zero, no throw is allowed.  Two steps are enough to see this on the only way with a zero. -/
def hurried (steps : Nat) : Doubt :=
  chosen (.throws ⟨.comparison (.funcParam 0) (.constant (.int 0)) .eq, .passes⟩) steps
    [baseLog ++ [isZero, .not throwed]]

theorem chosen_sound {check : Check} {steps : Nat} {possible : List (List Term)}
    (holds : ∀ log ∈ possible, Satisfiable log) : (chosen check steps possible).Sound where
  holds := holds
  fails := by simpa only [chosen, mem_singleton, forall_eq] using not_satisfiable_denied isZero

theorem skipped_sound : skipped.Sound := by
  apply chosen_sound
  simp only [forall_mem_cons, not_mem_nil, false_imp_iff, implies_true, and_true]
  refine ⟨⟨world 1 1 false, ?_⟩, ⟨world 0 1 false, ?_⟩⟩ <;>
    simp [baseLog, throwed, isZero, Env.Holds, Term.eval, world, Datum.ofCarrier, OrderOp.holds]

theorem hurried_sound (steps : Nat) : (hurried steps).Sound := by
  apply chosen_sound
  simp only [mem_singleton, forall_eq]
  refine ⟨world 0 1 false, ?_⟩
  simp [baseLog, throwed, isZero, Env.Holds, Term.eval, world, Datum.ofCarrier, OrderOp.holds]

def outline (executions : List Path) : List (Status × List Term × List Term) :=
  executions.map fun p => (p.status, p.constraints.terms, p.required)

/-- Given more steps, the way with another argument is explored to its end, as the solver does not exclude it. -/
def unhurried : List (Status × List Term × List Term) :=
  [(.finished, baseLog ++ [isZero, .not throwed], [isZero]),
    (.threw, baseLog ++ [.not isZero, throwed], [isZero])]

theorem hurried_shown : (((hurried 20).run (hurried 20).hesitant).run ()).1.1.toOption.isSome = true ∧
    outline (((hurried 20).run (hurried 20).hesitant).run ()).1.2 = unhurried := by
  decide +kernel

theorem hurried_tolerates {executions : List Path} (shown : outline executions = unhurried) :
    (hurried 20).check.Tolerates (hurried 20).hesitant executions := by
  have viewed {p : Path} (member : p ∈ executions) : (p.status, p.constraints.terms, p.required) ∈ unhurried :=
    shown ▸ mem_map_of_mem member
  intro _
  constructor
  · intro p member b failed
    simpa [unhurried, failed] using viewed member
  · intro p member threw
    obtain ⟨log, required⟩ : p.constraints.terms = baseLog ++ [.not isZero, throwed] ∧ p.required = [isZero] := by
      simpa [unhurried, threw] using viewed member
    refine Solver.hesitant_confirms (hurried_sound 20).truthful ?_
    rw [ConstraintLog.extended, log, required]
    decide

end Doubt

/-- A solver that cannot tell whether a way is excluded leaves the verdict as it is. -/
theorem hurried_tolerated : (Doubt.hurried 20).solver.Truthful ∧ ∃ executions executions',
    Returns ((Doubt.hurried 20).run (Doubt.hurried 20).solver) () (.ok true, executions) () ∧
    executions.map Path.status = [.finished, .unsat] ∧
    Returns ((Doubt.hurried 20).run (Doubt.hurried 20).hesitant) () (.ok true, executions') () ∧
    executions'.map Path.status = [.finished, .threw] := by
  have truthful := (Doubt.hurried_sound 20).truthful
  obtain ⟨executions, complies, ends⟩ := returns_of_view (x := (Doubt.hurried 20).run (Doubt.hurried 20).solver)
    (a := true) (c := [.finished, .unsat]) (List.map Path.status) (by decide +kernel)
  have inTime : ∀ p ∈ executions, ∀ ms, p.status ≠ .failed (.budget (.time ms)) := by
    intro p member ms failed
    have among := mem_map_of_mem (f := Path.status) member
    rw [ends, failed] at among
    simp at among
  have decides := returns_unit ((Doubt.hurried 20).run (Doubt.hurried 20).hesitant)
  obtain ⟨decided, shown⟩ := Doubt.hurried_shown
  generalize (((Doubt.hurried 20).run (Doubt.hurried 20).hesitant).run ()).1 = outcome at decides decided shown
  obtain ⟨result, executions'⟩ := outcome
  cases result with
  | error e => cases decided
  | ok b =>
    obtain rfl := timeouts_tolerated truthful (Solver.hesitant_echoes _ _) complies inTime decides
      (Doubt.hurried_tolerates shown)
    have statuses := congrArg (List.map Prod.fst) shown
    rw [Doubt.outline, map_map] at statuses
    exact ⟨truthful, executions, executions', complies, ends, decides, statuses⟩

/-- Timeouts do produce violations: a result or a throw is not found to be allowed, an event is demanded on a path
that should have been dropped, and paths that should have been dropped use up the steps. -/
theorem timeouts_mislead : Doubt.echoed.Misleads ∧ Doubt.charged.Misleads ∧ Doubt.skipped.Misleads ∧
    (Doubt.hurried 2).Misleads :=
  ⟨Doubt.echoed_sound.misleads (by decide +kernel) (by decide +kernel),
    Doubt.charged_sound.misleads (by decide +kernel) (by decide +kernel),
    Doubt.skipped_sound.misleads (by decide +kernel) (by decide +kernel),
    (Doubt.hurried_sound 2).misleads (by decide +kernel) (by decide +kernel)⟩

end TokenAudit
