import TokenAudit.Proofs.Machine.Tally
import TokenAudit.Proofs.Verify.Consistency

/-!
# What a completed log decides

A log decides a fact when it asserts or denies it.
-/

namespace TokenAudit

open List TokenAudit.Fact Prepare Complete

def Path.Decides (q : Path) (fact : Fact) : Prop :=
  fact.term ∈ q.constraints.terms ∨ fact.denial ∈ q.constraints.terms

instance (q : Path) (fact : Fact) : Decidable (q.Decides fact) :=
  inferInstanceAs (Decidable (fact.term ∈ q.constraints.terms ∨ fact.denial ∈ q.constraints.terms))

def Fact.OccursIn (fact : Fact) (t : Term) : Prop := (fact.symbol, fact.sort) ∈ t.symbols

instance (fact : Fact) (t : Term) : Decidable (fact.OccursIn t) :=
  inferInstanceAs (Decidable ((fact.symbol, fact.sort) ∈ t.symbols))

def Machine.Calls (M : Machine) (visited : List Path) (f : String) : Prop :=
  ∃ i ∈ visited.flatMap M.instructionsIn, i.calledName? = some f

def Machine.Enters (M : Machine) (entry : String) (visited : List Path) (f : String) : Prop :=
  f = entry ∨ ∃ i ∈ visited.flatMap M.instructionsIn, M.enteredName? i = some f

section

variable {M : Machine} {start p : Path} {visited : List Path}

theorem Trail.tally (trail : Trail M start visited p) :
    p.tally = (visited.flatMap M.instructionsIn).foldl M.tallied start.tally := by
  induction trail with
  | here => rfl
  | @on visited p q ways way next before runs member goes id ih =>
    have moved : ((q.fork id).go way).tally = q.tally := by rw [Path.go_eq]; rfl
    rw [moved, Machine.step_tally runs, ih, flatMap_append, foldl_append, flatMap_singleton]

theorem Trail.buggy (trail : Trail M start visited p) : p.buggy = start.buggy := by
  induction trail with
  | here => rfl
  | @on visited p q ways way next before runs member goes id ih =>
    rw [Path.go_eq]
    exact (Machine.step_sameTask runs).buggy.trans ih

section

variable (finishes : FinishedBy M start visited p)

include finishes

theorem FinishedBy.tally : p.tally = (visited.flatMap M.instructionsIn).foldl M.tallied start.tally := by
  obtain ⟨before, runs, member, id⟩ := finishes
  rw [flatMap_append, foldl_append, flatMap_singleton, ← before.tally, ← Machine.step_tally runs]
  rfl

theorem FinishedBy.buggy : p.buggy = start.buggy := by
  obtain ⟨before, runs, member, id⟩ := finishes
  have same := (Machine.step_sameTask runs).buggy
  exact same.trans before.buggy

theorem FinishedBy.counted (fresh : start.callCounts = .empty) (f : String) :
    0 < p.callCounts.getD f 0 ↔ M.Calls visited f := by
  have tally := congrArg Tally.counts finishes.tally
  have counts : p.callCounts = _ := tally
  have none : ¬ 0 < start.callCounts.getD f 0 := by simp [fresh, Table.getD]
  rw [counts, Machine.counts_foldl]
  exact or_iff_right none

theorem FinishedBy.functions {entry : String} (entered : start.calledFunctions = OrdSet.empty.insert entry)
    (f : String) : f ∈ p.calledFunctions.toList ↔ M.Calls visited f ∨ M.Enters entry visited f := by
  have tally := congrArg Tally.functions finishes.tally
  have functions : p.calledFunctions = _ := tally
  have first : f ∈ start.calledFunctions.toList ↔ f = entry := by
    rw [entered]
    simp [OrdSet.insert, OrdSet.empty, OrdSet.mem_insertInto]
  rw [functions, Machine.functions_foldl]
  show f ∈ start.calledFunctions.toList ∨ _ ↔ _
  simp only [first, Machine.Calls, Machine.Enters, and_or_left, exists_or]
  exact or_left_comm

end

end

/-- The log decides every write, emission and use that is tracked, and the expected calls. -/
structure Path.Decided (c : Contract) (expected : List CallOn) (q : Path) : Prop where
  written : ∀ i ∈ q.varsTracked.toList, ∃ sv, c.stateVariables[i]? = some sv ∧ q.Decides (.written sv.name)
  emitted : ∀ i ∈ q.eventsTracked.toList, ∃ event, c.events[i]? = some event ∧ q.Decides (.emitted event.name)
  used : ∀ v ∈ q.checkTracked, q.Decides (.usedInCheck (q.symbolBase v))
  called : ∀ call ∈ expected, q.Decides (.called call.receiver call.function)

/-- A function whose result is tracked is asserted where it was called, and denied where it was neither called nor
entered. -/
structure Path.Reports (M : Machine) (entry : String) (visited : List Path) (q : Path) : Prop where
  asserted : ∀ f ∈ q.returnsTracked.toList, M.Calls visited f → (fnCalled f).term ∈ q.constraints.terms
  denied : ∀ f ∈ q.returnsTracked.toList, ¬ M.Calls visited f → ¬ M.Enters entry visited f →
    (fnCalled f).denial ∈ q.constraints.terms

structure Path.Exact (M : Machine) (entry : String) (visited : List Path) (expected : List CallOn) (q : Path) :
    Prop where
  asserted : ∀ f ∈ q.returnsTracked.toList, ((fnCalled f).term ∈ q.constraints.terms ↔ M.Calls visited f)
  denied : ∀ f ∈ q.returnsTracked.toList,
    ((fnCalled f).denial ∈ q.constraints.terms ↔ ¬ M.Calls visited f ∧ ¬ M.Enters entry visited f)
  called : ∀ receiver f, '.' ∉ f.toList → (q.Decides (.called receiver f) ↔
    ⟨receiver, f⟩ ∈ q.calledOn.toList ∨ ⟨receiver, f⟩ ∈ expected)

namespace Complete

variable {S : Subject} {tracking : Tracking} {expected : List CallOn} {b : Path.Brief} {p q : Path}

theorem close_decided (told : p.Told S.contract b) (tracks : Prepare.Tracks S b)
    (closes : close S.contract tracking expected p = .ok q) : q.Decided S.contract expected := by
  have told' := close_told told closes
  have decides {fact : Fact} (asked : q.Happened S.contract fact ∨ Denied S.contract expected p fact) :
      q.Decides fact :=
    asked.imp (told'.asserted fact) fun denied => close_denied closes denied
  obtain ⟨bindings, log, rfl⟩ := close_log closes
  have asks : p.brief = b := told.asked
  subst asks
  constructor
  · intro i asked
    obtain ⟨name, sv, named⟩ := tracks.vars i asked
    obtain ⟨listed, rfl⟩ := Contract.stateVariable?_listed named
    refine ⟨sv, listed, decides ?_⟩
    by_cases noted : i ∈ p.varsWritten.toList
    · exact .inl ⟨i, sv, named, noted⟩
    · exact .inr (.write asked listed noted)
  · intro i asked
    obtain ⟨name, event, named⟩ := tracks.events i asked
    obtain ⟨listed, rfl⟩ := Contract.event?_listed named
    refine ⟨event, listed, decides ?_⟩
    by_cases noted : i ∈ p.eventsEmitted.toList
    · exact .inl ⟨i, event, named, noted⟩
    · exact .inr (.emission asked listed noted)
  · intro v asked
    refine decides ?_
    by_cases noted : v ∈ p.usedInCheck
    · exact .inl ⟨v, noted, rfl⟩
    · exact .inr (.use asked noted)
  · intro call asked
    refine decides ?_
    by_cases noted : call ∈ p.calledOn.toList
    · exact .inl noted
    · exact .inr (.call asked noted)

variable {M : Machine} {entry : String} {visited : List Path}

theorem close_reports (told : p.Told S.contract b) (counted : ∀ f, 0 < p.callCounts.getD f 0 ↔ M.Calls visited f)
    (functions : ∀ f, f ∈ p.calledFunctions.toList ↔ M.Calls visited f ∨ M.Enters entry visited f)
    (closes : close S.contract tracking expected p = .ok q) : q.Reports M entry visited := by
  have told' := close_told told closes
  obtain ⟨bindings, log, rfl⟩ := close_log closes
  constructor
  · intro f asked called
    exact told'.asserted (.fnCalled f) ⟨asked, (counted f).mpr called⟩
  · intro f asked uncalled unentered
    have asked : f ∈ p.returnsTracked.toList := asked
    have unnoted : f ∉ p.calledFunctions.toList := by
      rw [functions]
      exact not_or.mpr ⟨uncalled, unentered⟩
    exact close_denied closes (.result asked unnoted)

theorem close_exact (tidy : ∀ v ∈ S.contract.stateNames, v.id.Tidy)
    (named : ∀ call ∈ expected, '.' ∉ call.function.toList) {ended : Option Bool}
    (ledger : p.Ledger S.contract (Explore.EndAsserts ended) (Explore.EndDenies S.contract ended))
    (told : p.Told S.contract b) (tracks : Prepare.Tracks S b)
    (counted : ∀ f, 0 < p.callCounts.getD f 0 ↔ M.Calls visited f)
    (functions : ∀ f, f ∈ p.calledFunctions.toList ↔ M.Calls visited f ∨ M.Enters entry visited f)
    (closes : close S.contract tracking expected p = .ok q) : q.Exact M entry visited expected := by
  have accounted := (close_ledger tidy named ledger closes).accounted
  have happened {fact : Fact} (watched : fact.Watched) (other : fact ≠ .threw)
      (asserted : fact.term ∈ q.constraints.terms) : q.Happened S.contract fact :=
    (accounted.asserted watched asserted).resolve_right fun ends => other ends.1
  have denied {fact : Fact} (watched : fact.Watched) (other : fact ≠ .threw ∧ ∀ name, fact ≠ .emitted name)
      (denied : fact.denial ∈ q.constraints.terms) : Denied S.contract expected p fact := by
    rcases accounted.denied watched denied with (⟨name, same, _⟩ | ⟨same, _⟩) | denied
    · exact absurd same (other.2 name)
    · exact absurd same other.1
    · exact denied
  have told' := close_told told closes
  have decided := close_decided told tracks closes
  have reports := close_reports told counted functions closes
  obtain ⟨bindings, log, rfl⟩ := close_log closes
  constructor
  · intro f asked
    have watched : (fnCalled f).Watched := ledger.sound.results f asked
    refine ⟨fun asserted => ?_, reports.asserted f asked⟩
    exact (counted f).mp (happened watched (by simp) asserted).2
  · intro f asked
    have watched : (fnCalled f).Watched := ledger.sound.results f asked
    refine ⟨fun refused => ?_, fun ⟨uncalled, unentered⟩ => reports.denied f asked uncalled unentered⟩
    cases denied watched (by simp) refused with
    | result _ unnoted => exact not_or.mp (mt (functions f).mpr unnoted)
  · intro receiver f undotted
    have watched : (called receiver f).Watched := undotted
    constructor
    · rintro (asserted | refused)
      · exact .inl (happened watched (by simp) asserted)
      · cases denied watched (by simp) refused with
        | call asked _ => exact .inr asked
    · rintro (noted | asked)
      · exact .inl (told'.asserted (.called receiver f) noted)
      · exact decided.called ⟨receiver, f⟩ asked

end Complete

/-- No variable of the program has a hash in its name, and no function that the program calls or the check tells of
has a dot in its name. -/
structure Check.PlainOn (check : Check) (program : Program) : Prop where
  tidy : ∀ v ∈ program.variables, v.id.Tidy
  named : ∀ f ∈ program.calledNames ++ check.callReturns ++ check.callees, '.' ∉ f.toList

instance (check : Check) (program : Program) : Decidable (check.PlainOn program) :=
  decidable_of_iff ((∀ v ∈ program.variables, v.id.Tidy) ∧
      ∀ f ∈ program.calledNames ++ check.callReturns ++ check.callees, '.' ∉ f.toList)
    ⟨fun plain => ⟨plain.1, plain.2⟩, fun plain => ⟨plain.tidy, plain.named⟩⟩

section

variable {program : Program} {config : Config} {contract : String} {target : Target} {check : Check}
  {prepared : Prepared}

theorem Prepare.prepare_expects (prepares : prepare (some program) config contract target check = .ok prepared)
    (tidy : ∀ v ∈ program.variables, v.id.Tidy) {start : Path} (last : prepared.paths.getLast? = some start)
    {bug : Term} (accused : start.buggy = some bug) {receiver f : String}
    (occurs : (called receiver f).OccursIn bug) :
    ∃ call ∈ prepared.expectedCalls,
      (called receiver f).symbol = (called call.receiver call.function).symbol := by
  have located := subjectOf_located (prepare_ends prepares).1
  rcases prepare_last prepares with ⟨none, _⟩ | ⟨starts, started, p, among, q, last', one⟩
  · rw [none] at last
    cases last
  · cases last.symm.trans last'
    have formula := (onePath_formula (balanced_upholding located tidy) (fun _ _ => trivial) one
      (startPaths_balanced located tidy started p among) (startPaths_unaccused started p among)).2 bug accused
    rcases formula.occurring _ occurs with uncalling | ⟨call, expected, same, _⟩
    · exact absurd (by simp [symbol]) (uncalling rfl (receiver ++ "." ++ f).toList)
    · exact ⟨call, expected, same⟩

variable {σ : Type} {solver : Solver (StateM σ)} {clock : Clock (StateM σ)}

/-- The log of a completed path decides every write, emission and use that is tracked, and the expected calls.  A
function whose result is tracked is asserted where it was called and denied where it was neither called nor
entered. -/
theorem completed_logs_decide (prepares : prepare (some program) config contract target check = .ok prepared)
    {w₁ w₂ w₃ w₄ : σ} {paths final : List Path}
    (explores : Returns (explore solver clock config prepared) w₁ paths w₂)
    (completes : Returns (prepared.complete solver paths) w₃ (.ok final) w₄) :
    ∀ q ∈ final, q.status = .finished → q.Decided prepared.subject.contract prepared.expectedCalls ∧
      ∃ start ∈ prepared.paths, ∃ visited, ∃ p ∈ paths,
        FinishedBy (prepared.machine config) start visited p ∧
        close prepared.subject.contract prepared.tracking prepared.expectedCalls p = .ok q ∧
        q.Reports (prepared.machine config) prepared.subject.function.name visited ∧
        (check.PlainOn program →
          q.Exact (prepared.machine config) prepared.subject.function.name visited
            prepared.expectedCalls ∧
          (prepared.paths.getLast? = some start → ∀ bug, q.buggy = some bug → ∀ receiver f,
            (called receiver f).OccursIn bug → q.Decides (.called receiver f))) := by
  intro q member ended
  have located := subjectOf_located (prepare_ends prepares).1
  have running := prepared_running prepares
  obtain ⟨p, among, settled⟩ := exists_of_mem_right (complete_settled completes) member
  obtain ⟨finished, closes, _⟩ := settled.of_finished ended
  obtain ⟨start, first, visited, finishes⟩ :=
    (Explore.explore_emerges running explores p among).finished running finished
  have fresh := prepare_past prepares start first
  have told := Explore.withstands_told.finishedBy finishes (told_of_past fresh)
  have tracks := prepare_tracks prepares start first
  have counted := finishes.counted (congrArg Past.counts fresh)
  have functions := finishes.functions (prepare_functions prepares start first)
  have decided := close_decided told tracks closes
  have reports := close_reports told counted functions closes
  refine ⟨decided, start, first, visited, p, among, finishes, closes, reports, fun plain => ?_⟩
  have named := plain.named
  simp only [forall_mem_append] at named
  obtain ⟨⟨calls, results⟩, callees⟩ := named
  have stated (v : Variable) (among : v ∈ prepared.subject.contract.stateNames) : v.id.Tidy :=
    plain.tidy v (Program.mem_variables_of_state (mem_of_getElem? located.contract) among)
  have same : (prepared.machine config).program = program := located.same
  have ledger := (Explore.withstands_ledger (same ▸ plain.tidy) (same ▸ calls)).finishedBy finishes
    ((prepare_balanced prepares plain.tidy results start first).mono (fun _ => False.elim) fun _ => .inl)
  refine ⟨close_exact stated (fun call among => callees _ (prepare_callees prepares call among)) ledger
    told tracks counted functions closes, fun last bug accused receiver f occurs => ?_⟩
  have accuses : start.buggy = some bug := by
    rw [← finishes.buggy, ← (close_task closes).buggy]
    exact accused
  obtain ⟨call, expected, same⟩ := prepare_expects prepares plain.tidy last accuses occurs
  have decides := decided.called call expected
  have terms : (called receiver f).term = (called call.receiver call.function).term :=
    congrArg (Term.var · .bool) same
  unfold Path.Decides denial at decides ⊢
  rw [terms]
  exact decides

end

def charging : Trial where
  program := paying.program
  function := "pay"
  check := .calls {
    callee := "fee"
    receiver := .stateVar "bank" []
    cond := "is_contract"
    args := [⟨0, none, some (.logic [.usedInCheck (.funcParam 0),
      .comparison (.callReturn "fee") (.constant (.int 0)) .eq] .all)⟩]
    alternatives := ["charge"] }

theorem charged_log_decides : ∃ prepared paths q r, charging.outcome? = some (prepared, paths, [q, r]) ∧
    q.status = .finished ∧ prepared.expectedCalls = [⟨"bank", "fee"⟩, ⟨"bank", "charge"⟩] ∧
    q.Decided prepared.subject.contract prepared.expectedCalls ∧ ∃ start, prepared.paths = [start] ∧ ∃ visited,
      q.Exact (prepared.machine Trial.config) prepared.subject.function.name visited
        prepared.expectedCalls ∧
      ∀ bug, q.buggy = some bug → ∀ receiver f, (called receiver f).OccursIn bug →
        q.Decides (.called receiver f) := by
  have ends : (charging.outcome?.map fun outcome =>
      (outcome.1.paths.length, outcome.1.expectedCalls, outcome.2.2.map Path.status)) =
      some (1, [⟨"bank", "fee"⟩, ⟨"bank", "charge"⟩], [.finished, .threw]) := by decide +kernel
  obtain ⟨⟨prepared, paths, final⟩, ends, computed⟩ := Option.map_eq_some_iff.mp ends
  simp only [Prod.mk.injEq] at computed
  obtain ⟨single, expected, statuses⟩ := computed
  obtain ⟨q, others, rfl, finished, rest⟩ := map_eq_cons_iff.mp statuses
  obtain ⟨r, _, rfl, _, none⟩ := map_eq_cons_iff.mp rest
  cases map_eq_nil_iff.mp none
  obtain ⟨start, alone⟩ := length_eq_one_iff.mp single
  obtain ⟨prepares, explores, completes⟩ := Trial.outcome_runs ends
  obtain ⟨decided, start', first, visited, _, _, _, _, _, plainly⟩ :=
    completed_logs_decide prepares explores completes q (mem_cons_self ..) finished
  obtain ⟨calls, formula⟩ := plainly (by decide)
  rw [alone] at first formula
  cases mem_singleton.mp first
  exact ⟨prepared, paths, q, r, ends, finished, expected, decided, start, alone, visited, calls, formula rfl⟩

def rating : Trial where
  program := { contracts := [{
    name := "Token"
    functions := [{
      name := "rate"
      params := [⟨"x", .named "int256"⟩]
      returns := [.named "int256"]
      nodes := [{ instructions := [.ret [.var ⟨"x", .param "rate" 0, .named "int256"⟩]] }] }] }] }
  function := "rate"
  check := .throws ⟨.comparison (.callReturn "rate") (.constant (.int 0)) .eq, .throws⟩

def handing : Trial where
  program := { contracts := [{
    name := "Token"
    stateVariables := [⟨"owners", .mapping (.named "uint256") (.named "address"), .publicAccess, none⟩]
    functions := [{
      name := "give"
      params := [⟨"ids", .array (.named "uint256") none⟩]
      nodes := [default] }] }] }
  function := "give"
  check := .calls {
    callee := "onReceived"
    receiver := .stateVar "owners" [.funcParam 0]
    cond := "is_contract" }

def Trial.undecided (t : Trial) (fact : Fact) : List Path :=
  (t.outcome?.map fun (_, _, final) => final.filter fun q => q.status = .finished ∧ ¬ q.Decides fact).getD []

/-- A function that is entered and not called leaves its call undecided, and where arrays have several lengths, so
does a call that only the formula of the first length tells of. -/
theorem asked_facts_undecided :
    (∃ q ∈ rating.undecided (.fnCalled "rate"), "rate" ∈ q.returnsTracked.toList) ∧
    ∃ q ∈ handing.undecided (.called "(select owners (select p0 0))" "onReceived"), ∃ bug ∈ q.buggy,
      (called "(select owners (select p0 0))" "onReceived").OccursIn bug := by
  decide +kernel

end TokenAudit
