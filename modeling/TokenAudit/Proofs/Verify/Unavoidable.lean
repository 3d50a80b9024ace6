import TokenAudit.Proofs.Verify.Trigger

/-!
# Throws that cannot be avoided

A check that a function passes where a condition holds fails on a path that throws when the path can meet what is
required of it and cannot miss it.
-/

namespace TokenAudit

open List

section

variable {p : Path} {σ : Type} {solver : Solver (StateM σ)} {result : Except VerifyError Bool} {w w' : σ}
  {cond : Condition} {program : Option Program} {config : Config} {contract : String} {target : Target}

def Path.MeetsSome (p : Path) (ts : List Term) : Prop := ∀ E : Env, E.Satisfies p.constraints → ∃ t ∈ ts, E.Holds t

def Path.MeetsAll (p : Path) (ts : List Term) : Prop := ∀ E : Env, E.Satisfies p.constraints → ∀ t ∈ ts, E.Holds t

theorem Path.meetsSome_iff {ts : List Term} : p.MeetsSome ts ↔ ¬ p.Admits (ts.map Term.mkNot) := by
  constructor
  · rintro meets ⟨E, satisfies, denies⟩
    obtain ⟨t, member, holds⟩ := meets E satisfies
    exact Env.holds_mkNot.mp (denies _ (mem_map_of_mem member)) holds
  · intro excluded E satisfies
    by_contra none
    refine excluded ⟨E, satisfies, fun u among => ?_⟩
    obtain ⟨t, member, rfl⟩ := mem_map.mp among
    exact Env.holds_mkNot.mpr fun holds => none ⟨t, member, holds⟩

theorem Path.meetsSome_singleton {t : Term} : p.MeetsSome [t] ↔ p.MeetsAll [t] := by
  simp only [Path.MeetsSome, Path.MeetsAll, mem_singleton, exists_eq_left, forall_eq]

namespace Judge

variable {σ : Type} {solver : Solver (StateM σ)} {w w' : σ} {paths final : List Path}

theorem lookThrow_finds (truthful : solver.Truthful) :
    Finds (lookThrow solver .passes) fun p =>
      p.status = .threw ∧ p.Admits p.required ∧ p.MeetsSome p.required := by
  intro p w result q w' looks
  unfold lookThrow at looks
  split at looks
  · contradiction
  · rename_i threw
    obtain ⟨first, v, asks, looks⟩ := looks.of_bind
    obtain ⟨meets, rfl, meaning⟩ := satisfiable_truthful truthful asks
    cases meets with
    | false =>
      cases looks.of_pure
      have never : ¬ p.Admits p.required := fun admits => Bool.noConfusion (meaning.mpr admits)
      exact ⟨rfl, .holds, rfl, by simp [never]⟩
    | true =>
      obtain ⟨second, v', asks, ends⟩ := looks.of_bind
      obtain ⟨misses, rfl, missing⟩ := satisfiable_truthful truthful asks
      cases ends.of_pure
      refine ⟨rfl, violatedIf !misses, rfl, ?_⟩
      have exact_meaning : p.MeetsSome p.required ↔ ¬ misses = true := by rw [Path.meetsSome_iff, missing]
      cases misses <;> simp [violatedIf, threw, meaning.mp rfl, exact_meaning]
  · rename_i other
    cases looks.of_pure
    have unthrown : p.status ≠ .threw := fun threw => other rfl threw
    exact ⟨rfl, .silent, rfl, by simp [unthrown]⟩

end Judge

theorem judge_passes (truthful : solver.Truthful) {S : Subject} {paths final : List Path}
    (judges : Returns (judge solver S (.throws ⟨cond, .passes⟩) paths) w (result, final) w') :
    final = paths ∧ (result = .ok false ↔
      (∃ p ∈ paths, p.status = .threw ∧ p.Admits p.required ∧ p.MeetsSome p.required) ∨
        ¬ ∃ p ∈ paths, p.status = .finished) := by
  obtain ⟨⟨scanned, looked⟩, v, scans, ends⟩ := judges.of_bind
  obtain ⟨rfl, findings, rfl, found⟩ := Judge.scan_finds (Judge.lookThrow_finds truthful) scans
  cases ends.of_pure
  have violated : Judge.noneViolated findings = false ↔ .violated ∈ findings := by simp [Judge.noneViolated]
  have unpassed : (final.any fun p => p.status = .finished) = false ↔ ¬ ∃ p ∈ final, p.status = .finished := by
    simp
  refine ⟨rfl, ?_⟩
  rw [← found, ← violated, ← unpassed, ← Bool.and_eq_false_iff]
  exact ⟨Except.ok.inj, congrArg Except.ok⟩

namespace Prepare

open Resolve

variable {S : Subject}

theorem throws_required {v : ThrowCheck} (plain : v.cond.callReturns = []) {opts : Reading} {r r' : Resolution}
    (fresh : r.returnsOf = .empty) {outlook : Outlook} (resolves : Resolves (throws S opts v) r outlook r') :
    ∃ t, r'.path.required = r.path.required ++ [t] := by
  have permits : v.cond.Permits fun k => k ≠ .condition ∧ k ≠ .results :=
    ⟨fun _ => by simp, fun _ => by simp, fun refers => absurd plain refers⟩
  unfold throws at resolves
  split at resolves
  · obtain ⟨t, r₁, resolved, resolves⟩ := resolves_bind.mp resolves
    obtain ⟨_, r₂, demands, resolves⟩ := resolves_bind.mp resolves
    obtain ⟨_, _, reads, resolves⟩ := resolves_bind.mp resolves
    obtain ⟨rfl, rfl⟩ := resolves_get.mp reads
    obtain ⟨_, r₃, others, ends⟩ := resolves_bind.mp resolves
    obtain ⟨_, rfl⟩ := resolves_pure.mp ends
    have advances := condition_registers S opts permits resolved
    have kept : r₁.path.required = r.path.required :=
      (advances.path.lift
        fun _ _ => Registration.required (by simp)).symm
    have unreferred : r₁.returnsOf = .empty := (advances.results (by simp)).trans fresh
    rw [← resolves_modify.mp others, ← resolves_modify.mp demands]
    simp [kept, unreferred, OrdSet.empty]
  · exact (resolves_throw resolves).elim

theorem prepared_condition (plain : cond.callReturns = []) {op : ThrowOp} {prepared : Prepared}
    (prepares : prepare program config contract target (.throws ⟨cond, op⟩) = .ok prepared) :
    ∀ p ∈ prepared.paths, ∃ t, p.required = [t] := by
  intro p member
  have undemanding {K : Interest → Prop} (none : ¬ K .condition) (p q : Path) (registration : Registration K p q) :
      Function.onFun Eq Path.required p q := registration.required none
  obtain ⟨_, _, starts, used, started, initial, ready⟩ := prepare_ends prepares
  obtain ⟨start, among, expected, one⟩ := exists_of_mem_right ready member
  obtain ⟨opts, r, r', sets, assumes, rfl⟩ := onePath_ends _ one
  have entered : prepared.subject.entryPath.required = start.required :=
    startPaths_lift (undemanding (K := fun _ => False) id) (fun _ _ _ => rfl) started start (initial.subset among)
  have later : r.path.required = r'.path.required :=
    (assumeUnsignedTerms_registers _ assumes).path.lift (undemanding (K := fun _ => False) id)
  obtain ⟨t, asked⟩ := throws_required plain rfl sets
  refine ⟨t, ?_⟩
  calc r'.path.required = r.path.required := later.symm
    _ = start.required ++ [t] := asked
    _ = [t] := by
      rw [← entered]
      rfl

end Prepare

theorem verify_ends {clock : Clock (StateM σ)} {check : Check} {executions : List Path} (nonempty : executions ≠ [])
    (runs : Returns (verify solver clock program config contract target check) w (result, executions) w') :
    ∃ prepared explored completed v v', prepare program config contract target check = .ok prepared ∧
      Returns (explore solver clock config prepared) w explored v ∧
      Returns (prepared.complete solver explored) v
        (.ok completed) v' ∧
      Returns (judge solver prepared.subject check completed) v' (result, executions) w' := by
  unfold verify at runs
  split at runs
  · cases runs.of_pure
    contradiction
  · rename_i prepared prepares
    split at runs
    · cases runs.of_pure
      contradiction
    · obtain ⟨explored, v, explores, runs⟩ := runs.of_bind
      obtain ⟨outcome, v', completes, runs⟩ := runs.of_bind
      cases outcome with
      | error e =>
        cases runs.of_pure
        contradiction
      | ok completed => exact ⟨prepared, explored, completed, v, v', prepares, explores, completes, runs⟩

/-- With a truthful solver, the check that a function passes under a condition fails on a run with a finished path
exactly when some path throws whatever the environment. -/
theorem unavoidable_throw_reported_iff {σ : Type} {solver : Solver (StateM σ)} (truthful : solver.Truthful)
    {clock : Clock (StateM σ)} {program : Option Program} {config : Config} {contract : String} {target : Target}
    {cond : Condition} {b : Bool} {executions : List Path} {w w' : σ}
    (runs : Returns (verify solver clock program config contract target (.throws ⟨cond, .passes⟩)) w
      (.ok b, executions) w')
    (passes : ∃ p ∈ executions, p.status = .finished) :
    (b = false ↔ ∃ p ∈ executions, p.status = .threw ∧ p.Admits p.required ∧ p.MeetsSome p.required) ∧
    (cond.callReturns = [] → (b = false ↔
      ∃ p ∈ executions, p.status = .threw ∧ p.Admits p.required ∧ p.MeetsAll p.required)) := by
  have nonempty : executions ≠ [] := by
    obtain ⟨_, among, _⟩ := passes
    exact ne_nil_of_mem among
  obtain ⟨prepared, explored, completed, v, v', prepares, explores, completes, judges⟩ := verify_ends nonempty runs
  obtain ⟨rfl, verdict⟩ := judge_passes truthful judges
  have reported : b = false ↔
      ∃ p ∈ executions, p.status = .threw ∧ p.Admits p.required ∧ p.MeetsSome p.required := by
    simpa [passes] using verdict
  refine ⟨reported, fun plain => reported.trans ?_⟩
  refine exists_congr fun p => and_congr_right fun member => and_congr_right fun threw => and_congr_right fun _ => ?_
  -- a path that threw was left alone since its exploration, and required the condition from the start
  obtain ⟨q, among, completes⟩ := exists_of_mem_right (complete_completed truthful completes) member
  obtain rfl : q = p := by
    cases completes with
    | kept unfinished => rfl
    | closed finished closes applies =>
      have same := (Complete.close_task closes).status
      rw [finished, threw] at same
      cases same
    | ended finished closes inapplicable => cases threw
  obtain ⟨start, among, same, _⟩ := explored_origin prepares explores among (by simp [threw])
  obtain ⟨t, single⟩ := Prepare.prepared_condition plain prepares start among
  rw [same, single]
  exact Path.meetsSome_singleton

end

/-- A condition under which a function of `Token` should pass.  The function asks an oracle for a rate and throws
unless its second argument is positive. -/
structure Complaint where
  cond : Condition
  required : List Term
  /-- What is known of the call on every path. -/
  facts : List Term
  /-- Terms that exclude each other, one of them denied by a required one. -/
  core : List Term

namespace Complaint

def program : Program :=
  let temp (name type : String) : Variable := ⟨name, .temporary "check", .named type⟩
  { contracts := [{
      name := "Token"
      functions := [{
        name := "check"
        params := [⟨"oracle", .named "address"⟩, ⟨"x", .named "int256"⟩]
        nodes := [{
          instructions := [
            .highLevelCall (.var ⟨"oracle", .param "check" 0, .named "address"⟩)
              ⟨"rate", [], [.named "int256"]⟩ [] (some (temp "rate" "int256")),
            .binary .gt (.var ⟨"x", .param "check" 1, .named "int256"⟩) (.const (.int 0)) (temp "fine" "bool") true,
            .builtinCall "require(bool)" [.var (temp "fine" "bool")] none] }] }] }] }

def log (c : Complaint) (threw : Bool) : List Term :=
  let oracle : Term := .var "p0" .int
  let positive : Term := .order .gt (.var "p1" .int) (.int 0)
  let throws : Term := .var "#throwed" .bool
  Report.baseLog ++ c.facts ++
    if threw then [.not positive, throws]
    else [positive, .not throws, .order .gt (.var "p0.code.length" .int) (.int 0), .not (.eq oracle (.int 0)),
      .not (.eq oracle (.var "msg.sender" .int))]

noncomputable def solver (c : Complaint) : Solver (StateM Unit) :=
  .informed [c.log false ++ c.required, c.log true ++ c.required] [c.core]

noncomputable def run (c : Complaint) : StateM Unit (Except VerifyError Bool × List Path) :=
  verify c.solver ⟨pure 0⟩ (some program) { timeBudgetMs := none, maxSteps := 20 } "Token" (.named "check" none)
    (.throws ⟨c.cond, .passes⟩)

structure Made (c : Complaint) : Prop where
  passes : Satisfiable (c.log false ++ c.required)
  throws : Satisfiable (c.log true ++ c.required)
  clashes : ¬ Satisfiable c.core
  shown : ((c.run.run ()).1.1.toOption, (c.run.run ()).1.2.map fun p => (p.status, p.constraints.terms, p.required)) =
    (some false, [(.finished, c.log false, c.required), (.threw, c.log true, c.required)])

variable {c : Complaint}

theorem Made.truthful (made : c.Made) : c.solver.Truthful := by
  apply Solver.informed_truthful
  · simp only [forall_mem_cons, not_mem_nil, false_imp_iff, implies_true, and_true]
    exact ⟨made.passes, made.throws⟩
  · simpa only [mem_singleton, forall_eq] using made.clashes

theorem Made.returns (made : c.Made) : ∃ executions, Returns c.run () (.ok false, executions) () ∧
    (∃ p ∈ executions, p.status = .finished) ∧
    ∀ p ∈ executions, p.status = .threw → p.constraints.terms = c.log true ∧ p.required = c.required := by
  have shown := made.shown
  have returns : Returns c.run () (c.run.run ()).1 () := rfl
  generalize (c.run.run ()).1 = outcome at shown returns
  obtain ⟨result, executions⟩ := outcome
  obtain ⟨verdict, paths⟩ := Prod.mk.inj shown
  cases result with
  | error e => cases verdict
  | ok b =>
    cases verdict
    refine ⟨executions, returns, ?_, fun p member threw => ?_⟩
    · obtain ⟨p, member, view⟩ := mem_map.mp (paths ▸ mem_cons_self ..)
      exact ⟨p, member, congrArg Prod.fst view⟩
    · have viewed := mem_map_of_mem (f := fun p : Path => (p.status, p.constraints.terms, p.required)) member
      rw [paths] at viewed
      simpa [threw] using viewed

/-- The oracle answers with the rate; the sender, the contract and the oracle are three accounts. -/
def world (x rate : Int) (throws : Bool) : Env where
  symbol name
    | .bool => name != "#throwed" || throws
    | .int =>
      if name = "msg.sender" then (3 : Int) else if name = "this" then (4 : Int) else if name = "p1" then x
      else if name = "rate#ret" ∨ name = "check.rate!1" then rate else (5 : Int)
    | s => s.someValue
  quotientByZero := id
  remainderByZero := id

def onRate : Complaint :=
  let called : Term := .var "rate#called" .bool
  { cond := .comparison (.callReturn "rate") (.constant (.int 0)) .eq
    required := [.eq (.var "rate#ret" .int) (.int 0), called]
    facts := [.var "p0.rate#called" .bool, called, .eq (.var "rate#ret" .int) (.var "check.rate!1" .int)]
    core := [called, .not called] }

def onSender : Complaint :=
  let zero : Term := .eq (.var "msg.sender" .int) (.int 0)
  { cond := .comparison .msgSender (.constant (.int 0)) .notEq
    required := [.not zero]
    facts := [.var "p0.rate#called" .bool]
    core := [zero, .not zero] }

theorem onRate_made : onRate.Made where
  passes := by
    refine ⟨world 1 0 false, ?_⟩
    simp [onRate, log, Report.baseLog, Env.Holds, Term.eval, world, Datum.ofCarrier, OrderOp.holds]
  throws := by
    refine ⟨world 0 0 true, ?_⟩
    simp [onRate, log, Report.baseLog, Env.Holds, Term.eval, world, Datum.ofCarrier, OrderOp.holds]
  clashes := not_satisfiable_denied _
  shown := by decide +kernel

theorem onSender_made : onSender.Made where
  passes := by
    refine ⟨world 1 0 false, ?_⟩
    simp [onSender, log, Report.baseLog, Env.Holds, Term.eval, world, Datum.ofCarrier, OrderOp.holds]
  throws := by
    refine ⟨world 0 0 true, ?_⟩
    simp [onSender, log, Report.baseLog, Env.Holds, Term.eval, world, Datum.ofCarrier, OrderOp.holds]
  clashes := not_satisfiable_denied _
  shown := by decide +kernel

end Complaint

theorem sender_throw_reported : Complaint.onSender.solver.Truthful ∧ ∃ executions,
    Returns Complaint.onSender.run () (.ok false, executions) () ∧
      ∃ p ∈ executions, p.status = .threw ∧ p.Admits p.required ∧ p.MeetsAll p.required := by
  have made := Complaint.onSender_made
  obtain ⟨executions, returns, passes, _⟩ := made.returns
  have reported := (unavoidable_throw_reported_iff made.truthful returns passes).2 rfl
  exact ⟨made.truthful, executions, returns, reported.mp rfl⟩

/-- The throw is reported though every path that throws can miss the condition, at another rate. -/
theorem rate_throw_groundless : Complaint.onRate.solver.Truthful ∧ ∃ executions,
    Returns Complaint.onRate.run () (.ok false, executions) () ∧ (∃ p ∈ executions, p.status = .finished) ∧
      ∀ p ∈ executions, p.status = .threw → ¬ p.MeetsAll p.required := by
  have made := Complaint.onRate_made
  obtain ⟨executions, returns, passes, known⟩ := made.returns
  refine ⟨made.truthful, executions, returns, passes, fun p member threw meets => ?_⟩
  obtain ⟨log, required⟩ := known p member threw
  have satisfies : (Complaint.world 0 1 true).Satisfies p.constraints := by
    rw [Env.Satisfies, log]
    simp [Complaint.onRate, Complaint.log, Report.baseLog, Env.Holds, Term.eval, Complaint.world, Datum.ofCarrier,
      OrderOp.holds]
  have zero := meets _ satisfies (.eq (.var "rate#ret" .int) (.int 0)) (by simp [required, Complaint.onRate])
  simp [Env.Holds, Term.eval, Complaint.world, Datum.ofCarrier] at zero

end TokenAudit
