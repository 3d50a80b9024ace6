import TokenAudit.Proofs.Verify.Completion
import TokenAudit.Proofs.Verify.Descent
import TokenAudit.Proofs.Verify.Preparation
import TokenAudit.Verify.Run

/-!
# Violations and their trigger

An event or a call is checked on the finished paths that can meet the trigger of the check, and a path violates the
check when it can meet the bug.
-/

namespace TokenAudit

open List

section

variable {σ : Type} {solver : Solver (StateM σ)} {paths final : List Path} {w w' : σ} {q p : Path} {check : Check}
  {clock : Clock (StateM σ)} {program : Option Program} {config : Config} {contract : String} {target : Target}
  {prepared : Prepared} {result : Except VerifyError Bool}

theorem complete_applies (truthful : solver.Truthful) {c : Contract} {tracking : Tracking} {expected : List CallOn}
    (completes : Returns (complete solver c tracking expected paths) w (.ok final) w') (member : q ∈ final)
    (finished : q.status = .finished) :
    (q.required = [] ∨ q.Admits q.required) ∧ ∃ p ∈ paths, p.status = .finished ∧ q.required = p.required := by
  obtain ⟨p, among, completed⟩ := exists_of_mem_right (complete_completed truthful completes) member
  have required := completed.required
  cases completed with
  | kept unfinished => exact absurd finished unfinished
  | closed was_finished closes applies => exact ⟨applies, p, among, was_finished, required⟩
  | ended was_finished closes inapplicable => cases finished

def Check.Concerns (check : Check) (p : Path) : Prop :=
  p.status = .finished ∧ match check with
    | .emits v => ∀ f ∈ v.within, p.calledFunctions.contains f = true
    | _ => True

namespace Judge

variable {σ : Type} {solver : Solver (StateM σ)} {w w' : σ} {p q : Path} {paths final : List Path}
  {look : Path → StateM σ Looked} {Bad : Path → Prop}

/-- The look leaves every path as it is, never fails, and finds a violation on the bad paths. -/
def Finds (look : Path → StateM σ Looked) (Bad : Path → Prop) : Prop :=
  ∀ ⦃p w result q w'⦄, Returns (look p) w (result, q) w' →
    q = p ∧ ∃ finding, result = .ok finding ∧ (finding = .violated ↔ Bad p)

theorem scan_finds (finds : Finds look Bad) {result : Except VerifyError (List Finding)}
    (scans : Returns (scan look paths) w (result, final) w') :
    final = paths ∧ ∃ findings, result = .ok findings ∧ (Finding.violated ∈ findings ↔ ∃ p ∈ paths, Bad p) := by
  induction paths generalizing w w' result final with
  | nil =>
    cases scans.of_pure
    exact ⟨rfl, [], rfl, by simp⟩
  | cons p rest ih =>
    obtain ⟨⟨looked, q⟩, v, looks, scans⟩ := scans.of_bind
    obtain ⟨rfl, finding, rfl, meaning⟩ := finds looks
    by_cases violated : finding = .violated
    · subst violated
      cases scans.of_pure
      exact ⟨rfl, [.violated], rfl, by simp [meaning.mp rfl]⟩
    · have later : Returns (do
          let later ← scan look rest
          pure (later.1.map (finding :: ·), q :: later.2)) v (result, final) w' := by
        cases finding with
        | violated => exact absurd rfl violated
        | holds | silent => exact scans
      obtain ⟨⟨others, rest'⟩, v', scans, ends⟩ := later.of_bind
      obtain ⟨rfl, findings, rfl, found⟩ := ih scans
      cases ends.of_pure
      refine ⟨rfl, finding :: findings, rfl, ?_⟩
      rw [mem_cons, exists_mem_cons_iff, found, ← meaning, eq_comm]

theorem lookBuggy_finds (truthful : solver.Truthful) :
    Finds (lookBuggy solver) fun p => ∃ b, p.buggy = some b ∧ p.Admits [b] := by
  intro p w result q w' looks
  unfold lookBuggy at looks
  split at looks
  · obtain ⟨answer, v, asks, ends⟩ := looks.of_bind
    obtain ⟨possible, rfl, meaning⟩ := satisfiable_truthful truthful asks
    cases ends.of_pure
    refine ⟨rfl, violatedIf possible, rfl, ?_⟩
    cases possible <;> simp_all [violatedIf]
  · rename_i unaccused
    cases looks.of_pure
    exact ⟨rfl, .silent, rfl, by simp [unaccused]⟩

theorem lookEmit_finds (truthful : solver.Truthful) (v : EmitCheck) :
    Finds (lookEmit solver v) fun p =>
      (∀ f ∈ v.within, p.calledFunctions.contains f = true) ∧ ∃ b, p.buggy = some b ∧ p.Admits [b] := by
  intro p w result q w' looks
  unfold lookEmit at looks
  split at looks
  · rename_i f within
    split at looks
    · rename_i called
      simpa [within, called] using lookBuggy_finds truthful looks
    · rename_i uncalled
      cases looks.of_pure
      exact ⟨rfl, .silent, rfl, by simp [within, uncalled]⟩
  · rename_i anywhere
    simpa [anywhere] using lookBuggy_finds truthful looks

theorem ifFinished_finds (finds : Finds look Bad) : Finds (ifFinished look) fun p => p.status = .finished ∧ Bad p := by
  intro p w result q w' looks
  unfold ifFinished at looks
  split at looks
  · rename_i finished
    simpa [finished] using finds looks
  · rename_i unfinished
    cases looks.of_pure
    exact ⟨rfl, .silent, rfl, by simp [unfinished]⟩

theorem verdict_decided (finds : Finds look Bad) (conclude : List Path → List Finding → Bool)
    (concludes : ∀ paths findings, conclude paths findings = noneViolated findings) (judges : Returns (do
      let (result, paths) ← scan look paths
      pure (result.map (conclude paths), paths)) w (result, final) w') :
    final = paths ∧ ∃ b, result = .ok b ∧ (b = false ↔ ∃ p ∈ paths, Bad p) := by
  obtain ⟨⟨scanned, looked⟩, v, scans, ends⟩ := judges.of_bind
  obtain ⟨rfl, findings, rfl, found⟩ := scan_finds finds scans
  cases ends.of_pure
  refine ⟨rfl, _, rfl, ?_⟩
  rw [← found, concludes]
  simp [noneViolated]

end Judge

theorem judge_false_iff (truthful : solver.Truthful) {S : Subject}
    (kind : (∃ v, check = .emits v) ∨ ∃ v, check = .calls v)
    (judges : Returns (judge solver S check paths) w (result, final) w') : final = paths ∧ (result = .ok false ↔
      ∃ p ∈ paths, check.Concerns p ∧ ∃ b, p.buggy = some b ∧ p.Admits [b]) := by
  rcases kind with ⟨v, rfl⟩ | ⟨v, rfl⟩
  · have emits := Judge.ifFinished_finds (Judge.lookEmit_finds truthful v)
    obtain ⟨same, b, rfl, found⟩ := Judge.verdict_decided emits (fun _ => Judge.noneViolated) (fun _ _ => rfl) judges
    exact ⟨same, by simpa only [Except.ok.injEq, Check.Concerns, and_assoc] using found⟩
  · have calls := Judge.ifFinished_finds (Judge.lookBuggy_finds truthful)
    obtain ⟨same, b, rfl, found⟩ := Judge.verdict_decided calls (fun _ => Judge.noneViolated) (fun _ _ => rfl) judges
    exact ⟨same, by simpa only [Except.ok.injEq, Check.Concerns, and_true] using found⟩

theorem Resolve.Registration.required {K : Interest → Prop} (undemanding : ¬ K .condition)
    (registration : Registration K p q) : p.required = q.required := by
  cases registration with
  | read c v => exact (Machine.read_sameTask p c v).required.symm
  | demand ts allowed => exact absurd allowed undemanding
  | _ => rfl

theorem explored_origin (prepares : prepare program config contract target check = .ok prepared)
    (explores : Returns (explore solver clock config prepared) w final w') (member : p ∈ final)
    (survives : ∀ cause, p.status ≠ .failed cause) :
    ∃ start ∈ prepared.paths, p.required = start.required ∧ p.buggy = start.buggy := by
  let kept (p : Path) := (p.required, p.buggy)
  have moves (p q : Path) (move : Explore.Move p q) : Function.onFun Eq kept p q := by
    cases move <;> rfl
  have steps : Machine.Always (Function.onFun Eq kept) (prepared.machine config).step := fun _ _ _ runs =>
    Prod.ext (Machine.step_sameTask runs).required.symm (Machine.step_sameTask runs).buggy.symm
  rcases Explore.explore_descends steps moves (Prepare.prepared_running prepares) explores p member with
    ⟨cause, failed⟩ | ⟨start, among, same⟩
  · exact absurd failed (survives cause)
  · exact ⟨start, among, Prod.ext_iff.mp same.symm⟩

theorem explored_undemanded (permits : check.Permits (· ≠ .condition))
    (prepares : prepare program config contract target check = .ok prepared)
    (explores : Returns (explore solver clock config prepared) w final w') (member : p ∈ final)
    (finished : p.status = .finished) : p.required = [] := by
  have starts := Prepare.prepare_lift
    (fun _ _ => Resolve.Registration.required (fun demands => demands rfl)) (fun _ _ _ => rfl) permits prepares
  obtain ⟨start, among, same, _⟩ := explored_origin prepares explores member (by simp [finished])
  exact same.trans (starts start among).symm

theorem explored_untriggered {v : EmitCheck} (unconditional : v.cond = none)
    (prepares : prepare program config contract target (.emits v) = .ok prepared)
    (explores : Returns (explore solver clock config prepared) w final w') (member : p ∈ final)
    (finished : p.status = .finished) : p.required = [] := by
  have conditions (c : Condition) : c.Permits (· ≠ .condition) := ⟨fun _ => nofun, fun _ => nofun, fun _ => nofun⟩
  have permits : (Check.emits v).Permits (· ≠ .condition) := by
    refine ⟨fun c asked => ?_, nofun, fun c _ => conditions c, fun _ => nofun,
      fun a _ => ⟨nofun, fun _ _ _ => nofun, fun c _ => conditions c⟩⟩
    rw [unconditional] at asked
    cases asked
  exact explored_undemanded permits prepares explores member finished

/-- With a truthful solver, a check of an event or a call fails exactly when some path it is judged on can
meet the trigger and can meet the bug.  One environment does both if the check has no trigger. -/
theorem violation_reported_iff {σ : Type} {solver : Solver (StateM σ)} (truthful : solver.Truthful)
    {clock : Clock (StateM σ)} {program : Option Program} {config : Config} {contract : String} {target : Target}
    {check : Check} (kind : (∃ v, check = .emits v) ∨ ∃ v, check = .calls v) {result : Except VerifyError Bool}
    {executions : List Path} {w w' : σ}
    (runs : Returns (verify solver clock program config contract target check) w (result, executions) w') :
    (result = .ok false ↔ ∃ p ∈ executions, check.Concerns p ∧ ∃ b, p.buggy = some b ∧
      p.Admits p.required ∧ p.Admits [b]) ∧
    ((∃ v, check = .emits v ∧ v.cond = none) → result = .ok false → ∃ p ∈ executions, check.Concerns p ∧
      ∃ b, p.buggy = some b ∧ p.Admits (p.required ++ [b])) := by
  unfold verify at runs
  split at runs
  · cases runs.of_pure
    simp
  rename_i prepared prepares
  split at runs
  · cases runs.of_pure
    simp
  obtain ⟨explored, v, explores, runs⟩ := runs.of_bind
  obtain ⟨completed, v', completes, runs⟩ := runs.of_bind
  cases completed with
  | error e =>
    cases runs.of_pure
    simp
  | ok closed =>
    obtain ⟨rfl, verdict⟩ := judge_false_iff truthful kind runs
    refine ⟨⟨fun reported => ?_, ?_⟩, ?_⟩
    · obtain ⟨p, member, concerned, b, buggy, admits⟩ := verdict.mp reported
      refine ⟨p, member, concerned, b, buggy, ?_, admits⟩
      rcases (complete_applies truthful completes member concerned.1).1 with none | triggered
      · rw [none]
        exact admits.mono (nil_subset _)
      · exact triggered
    · rintro ⟨p, member, concerned, b, buggy, _, admits⟩
      exact verdict.mpr ⟨p, member, concerned, b, buggy, admits⟩
    · rintro ⟨v, rfl, unconditional⟩ reported
      obtain ⟨p, member, concerned, b, buggy, admits⟩ := verdict.mp reported
      obtain ⟨_, start, among, finished, same⟩ := complete_applies truthful completes member concerned.1
      have none : p.required = [] :=
        same.trans (explored_untriggered unconditional prepares explores among finished)
      refine ⟨p, member, concerned, b, buggy, ?_⟩
      rw [none]
      exact admits

end

structure Report where
  program : Program
  function : String
  check : Check
  log : List Term
  required : List Term
  bug : Term

namespace Report

variable {E : Env}

open Classical in
/-- The solver that knows the two last queries to be satisfiable, and the truth about all others. -/
noncomputable def solver (r : Report) : Solver (StateM Unit) where
  checkSat ts :=
    let known : Bool := ts ⊆ r.log ++ r.required || ts ⊆ r.log ++ [r.bug]
    pure (.ok (if known ∨ Satisfiable ts then .sat else .unsat))
  model _ _ := pure (.ok none)

noncomputable def run (r : Report) : StateM Unit (Except VerifyError Bool × List Path) :=
  verify r.solver ⟨pure 0⟩ (some r.program) { timeBudgetMs := none, maxSteps := 20 } "Token"
    (.named r.function none) r.check

structure Made (r : Report) : Prop where
  triggered : Satisfiable (r.log ++ r.required)
  faulty : Satisfiable (r.log ++ [r.bug])
  shown : ((r.run.run ()).1.1.toOption, ((r.run.run ()).1.2.filter (·.status = .finished)).map
    fun p => (p.constraints.terms, p.required, p.buggy)) = (some false, [(r.log, r.required, some r.bug)])

variable {r : Report}

theorem Made.truthful (made : r.Made) : r.solver.Truthful := by
  intro ts w
  by_cases possible : Satisfiable ts
  · exact ⟨w, .inl ⟨possible, by simp [solver, possible]⟩⟩
  · have unknown {known : List Term} (satisfiable : Satisfiable known) : ¬ ts ⊆ known := by
      intro fewer
      obtain ⟨E, holds⟩ := satisfiable
      exact possible ⟨E, fun t member => holds t (fewer member)⟩
    exact ⟨w, .inr ⟨possible, by simp [solver, possible, unknown made.triggered, unknown made.faulty]⟩⟩

theorem Made.returns (made : r.Made) : ∃ executions, Returns r.run () (.ok false, executions) () ∧
    ∀ p ∈ executions, p.status = .finished →
      p.constraints.terms = r.log ∧ p.required = r.required ∧ p.buggy = some r.bug := by
  have shown := made.shown
  have returns : Returns r.run () (r.run.run ()).1 () := rfl
  generalize (r.run.run ()).1 = outcome at shown returns
  obtain ⟨result, executions⟩ := outcome
  obtain ⟨verdict, finished⟩ := Prod.mk.inj shown
  cases result with
  | error e => cases verdict
  | ok b =>
    cases verdict
    refine ⟨executions, returns, fun p member status => ?_⟩
    have among : p ∈ executions.filter (·.status = .finished) :=
      mem_filter.mpr ⟨member, decide_eq_true status⟩
    have viewed := mem_map_of_mem (f := fun p : Path => (p.constraints.terms, p.required, p.buggy)) among
    rw [finished, mem_singleton] at viewed
    simpa only [Prod.mk.injEq] using viewed

/-- The solver tells the truth and the check fails, though no environment has the trigger and the bug. -/
def Groundless (r : Report) : Prop :=
  r.solver.Truthful ∧ ∃ executions, Returns r.run () (.ok false, executions) () ∧
    ∀ p ∈ executions, p.status = .finished → ∀ b, p.buggy = some b → ¬ p.Admits (p.required ++ [b])

theorem Made.groundless (made : r.Made)
    (conflict : ∀ E : Env, (∀ t ∈ r.log, E.Holds t) → (∀ t ∈ r.required, E.Holds t) → ¬ E.Holds r.bug) :
    r.Groundless := by
  obtain ⟨executions, returns, known⟩ := made.returns
  refine ⟨made.truthful, executions, returns, fun p member finished b accused => ?_⟩
  obtain ⟨log, required, buggy⟩ := known p member finished
  cases buggy.symm.trans accused
  rintro ⟨E, satisfies, holds⟩
  rw [Env.Satisfies, log] at satisfies
  rw [required] at holds
  exact conflict E satisfies (fun t among => holds t (mem_append_left _ among)) (holds _ (by simp))

/-- The sender and the contract are two accounts, the first parameter and all other numbers are given. -/
def world (param other : Int) (happens : Bool) : Env where
  symbol name
    | .bool => name != "#throwed" && happens
    | .int =>
      if name = "msg.sender" then (3 : Int) else if name = "this" then (4 : Int)
      else if name = "p0" then param else other
    | s => s.someValue
  quotientByZero := id
  remainderByZero := id

def baseLog : List Term :=
  let sender : Term := .var "msg.sender" .int
  let this : Term := .var "this" .int
  [.order .ge (.var "msg.value" .int) (.int 0), .not (.eq sender (.int 0)), .not (.eq sender this),
    .not (.eq this (.int 0))]

def moved (triggered : Bool) : Report :=
  let positive : Condition := .comparison (.funcParam 0) (.constant (.int 0)) .gt
  let isPositive : Term := .order .gt (.var "p0" .int) (.int 0)
  let emitted : Term := .var "Moved#emitted" .bool
  { program.contracts := [{
      name := "Token"
      events := [⟨"Moved", [⟨"amount", .named "int256", false⟩]⟩]
      functions := [{
        name := "move"
        params := [⟨"amount", .named "int256"⟩]
        nodes := [{
          instructions := [.eventCall "Moved" [.var ⟨"amount", .param "move" 0, .named "int256"⟩]] }] }] }]
    function := "move"
    check := .emits {
      event := "Moved", cond := if triggered then some positive else none, args := [⟨0, none, some positive⟩] }
    log := baseLog ++
      [emitted, .eq (.var "Moved#1#0" .int) (.var "p0" .int), .not (.var "#throwed" .bool)]
    required := if triggered then [isPositive] else []
    bug := .junction .any [.not emitted, .junction .all [emitted, .not isPositive]] }

theorem moved_made (triggered : Bool) : (moved triggered).Made where
  triggered := by
    refine ⟨world 1 1 true, ?_⟩
    cases triggered <;> simp [moved, baseLog, Env.Holds, Term.eval, world, Datum.ofCarrier, OrderOp.holds]
  faulty := by
    refine ⟨world 0 0 true, ?_⟩
    simp [moved, baseLog, Env.Holds, Term.eval, Term.truths, Junction.combine, world, Datum.ofCarrier,
      OrderOp.holds]
  shown := by cases triggered <;> decide +kernel

def given : Report :=
  let account : Variable := ⟨"to", .param "give" 0, .named "address"⟩
  let temp (name type : String) : Variable := ⟨name, .temporary "give", .named type⟩
  let receiver : Term := .var "p0" .int
  let hash : Term := .var "p0.codehash" .int
  let called : Term := .var "p0.onReceived#called" .bool
  let hasCode : Term := .order .gt (.var "p0.code.length" .int) (.int 0)
  let hasHash : Term := .junction .all [.not (.eq hash (.int 0)), .not (.eq hash (.int Keccak.emptyCodeHash))]
  let isContract : Term := .junction .any [hasCode, hasHash]
  { program.contracts := [{
      name := "Token"
      functions := [{
        name := "give"
        params := [⟨"to", .named "address"⟩]
        nodes := [{
          instructions := [
            .codeSize (temp "size" "uint256") (.var account),
            .binary .gt (.var (temp "size" "uint256")) (.const (.int 0)) (temp "code" "bool") true,
            .unary .not (.var (temp "code" "bool")) (temp "empty" "bool"),
            .binary .eq (.var account) (.const (.int 0)) (temp "zero" "bool") true,
            .binary .or (.var (temp "zero" "bool")) (.var (temp "empty" "bool")) (temp "fine" "bool") true,
            .builtinCall "require(bool)" [.var (temp "fine" "bool")] none] }] }] }]
    function := "give"
    check := .calls {
      callee := "onReceived", receiver := .funcParam 0, cond := "is_contract" }
    log := baseLog ++
      [.junction .any [.not hasCode, hasHash], .junction .any [.not hasHash, hasCode],
        .order .ge (.var "p0.code.length" .int) (.int 0), .junction .any [.eq receiver (.int 0), .not hasCode],
        .not (.var "#throwed" .bool), .not called]
    required := [.not (.eq receiver (.int 0))]
    bug := .junction .any
      [.junction .all [.not called, isContract], .junction .all [called, .not isContract]] }

theorem given_made : given.Made where
  triggered := by
    refine ⟨world 1 0 false, ?_⟩
    unfold given
    generalize Keccak.emptyCodeHash = empty
    simp [baseLog, Env.Holds, Term.eval, Term.truths, Junction.combine, world, Datum.ofCarrier, OrderOp.holds]
  faulty := by
    refine ⟨world 0 (Keccak.emptyCodeHash + 1) false, ?_⟩
    unfold given
    generalize Keccak.emptyCodeHash = empty
    simp [baseLog, Env.Holds, Term.eval, Term.truths, Junction.combine, world, Datum.ofCarrier, OrderOp.holds]
    omega
  shown := by decide +kernel

theorem moved_conflict (satisfies : ∀ t ∈ (moved true).log, E.Holds t)
    (meets : ∀ t ∈ (moved true).required, E.Holds t) : ¬ E.Holds (moved true).bug := by
  have emitted : E.Holds (.var "Moved#emitted" .bool) := satisfies _ (by simp [moved])
  have positive : E.Holds (.order .gt (.var "p0" .int) (.int 0)) := meets _ (by simp [moved])
  simp [moved, Env.holds_not, Env.holds_any, Env.holds_all, emitted, positive]

theorem given_conflict (satisfies : ∀ t ∈ given.log, E.Holds t) (meets : ∀ t ∈ given.required, E.Holds t) :
    ¬ E.Holds given.bug := by
  simp only [given, baseLog, cons_append, nil_append, mem_cons, not_mem_nil, or_false,
    forall_eq_or_imp, forall_eq, exists_eq_or_imp, exists_eq_left, Env.holds_not, Env.holds_any,
    Env.holds_all] at satisfies meets ⊢
  obtain ⟨_, _, _, _, _, code_of_hash, _, zero_or_empty, _, uncalled⟩ := satisfies
  have empty := zero_or_empty.resolve_left meets
  have hashless := code_of_hash.resolve_right empty
  rintro (⟨_, code | hash⟩ | ⟨called, _⟩)
  · exact empty code
  · exact hashless hash
  · exact uncalled called

end Report

theorem untriggered_report_possible : (Report.moved false).solver.Truthful ∧ ∃ executions,
    Returns (Report.moved false).run () (.ok false, executions) () ∧ ∃ p ∈ executions,
      (Report.moved false).check.Concerns p ∧ ∃ b, p.buggy = some b ∧ p.Admits (p.required ++ [b]) := by
  have made := Report.moved_made false
  obtain ⟨executions, returns, _⟩ := made.returns
  have joint := (violation_reported_iff made.truthful (.inl ⟨_, rfl⟩) returns).2 ⟨_, rfl, rfl⟩ rfl
  exact ⟨made.truthful, executions, returns, joint⟩

/-- Neither the condition of an event nor the receiver of a call keeps groundless reports away. -/
theorem triggered_reports_groundless : (Report.moved true).Groundless ∧ Report.given.Groundless :=
  ⟨(Report.moved_made true).groundless fun _ => Report.moved_conflict,
    Report.given_made.groundless fun _ => Report.given_conflict⟩

end TokenAudit
