import TokenAudit.Proofs.Machine.IllTyped
import TokenAudit.Proofs.Verify.Moments
import TokenAudit.Proofs.Verify.Verdict
import TokenAudit.Verify.Run

/-!
# Well-sorted questions

A run asks its solver about lists of well-sorted predicates and for the values of well-sorted terms only.
-/

namespace TokenAudit

open List

variable {σ : Type} {first second : Solver (StateM σ)} {p q : Path} {paths : List Path}

/-- The two solvers do the same where they are asked about well-sorted terms. -/
structure Solver.Agrees (first second : Solver (StateM σ)) : Prop where
  checkSat {ts : List Term} (assertable : ∀ t ∈ ts, t.Assertable) : first.checkSat ts = second.checkSat ts
  model {ts terms : List Term} (assertable : ∀ t ∈ ts, t.Assertable) (sorted : ∀ t ∈ terms, t.WellSorted) :
    first.model ts terms = second.model ts terms

theorem Path.Sorted.extended (sorted : p.Sorted) {extra : List Term} (assertable : ∀ t ∈ extra, t.Assertable) :
    ∀ t ∈ p.constraints.extended extra, t.Assertable :=
  forall_mem_append.mpr ⟨sorted.constraints, assertable⟩

namespace Explore

variable {M : Machine} {s : Search} {i : Nat} {ways : List Successor}

open Machine.Upkeep (FairWays)

theorem feasible_congr (agrees : first.Agrees second) (sorted : p.Sorted) : feasible first p = feasible second p := by
  unfold feasible
  rw [agrees.checkSat (sorted.extended sorted.required)]

theorem feasibleIfRequired_congr (agrees : first.Agrees second) (sorted : p.Sorted) :
    feasibleIfRequired first p = feasibleIfRequired second p := by
  unfold feasibleIfRequired
  rw [feasible_congr agrees sorted]

theorem take_congr (agrees : first.Agrees second) (sorted : p.Sorted) {way : Successor}
    (fair : ∀ t, way.constraint? = some t → t.Assertable) : take first way p = take second way p := by
  cases way with
  | throws constraint | finish => rfl
  | goto next constraint =>
    cases constraint with
    | none => rfl
    | some t =>
      unfold take
      dsimp only
      rw [feasible_congr agrees (sorted.assume (fair t rfl))]

theorem takeAll_congr (M : Machine) (agrees : first.Agrees second) {work : List (Nat × Successor)}
    (fair : FairWays Term.Assertable (work.map Prod.snd)) (sorted : ∀ p ∈ paths, p.Sorted) :
    takeAll first work paths = takeAll second work paths := by
  induction work generalizing paths with
  | nil => rfl
  | cons head rest ih =>
    obtain ⟨place, way⟩ := head
    obtain ⟨here, later⟩ := forall_mem_cons.mp fair
    rw [takeAll, takeAll]
    split
    · exact ih later sorted
    · rename_i p found
      have started := sorted p (mem_of_getElem? found)
      rw [take_congr agrees started here]
      refine bind_congr_returns fun w result v takes => ?_
      obtain ⟨answer, q⟩ := result
      obtain ⟨_, taken⟩ := (withstands_sorted (M := M)).took (take_took takes) here started
      have sorted : ∀ p ∈ paths.set place q, p.Sorted := by
        intro p member
        rcases mem_or_eq_of_mem_set member with old | rfl
        · exact sorted p old
        · exact taken
      cases answer with
      | error e => rfl
      | ok goesOn =>
        dsimp only
        rw [ih later sorted]

theorem branch_congr (M : Machine) (agrees : first.Agrees second) (others : s.Sorted) (sorted : p.Sorted)
    (fair : FairWays Term.Assertable ways) : branch first s i p ways = branch second s i p ways := by
  have fair : FairWays Term.Assertable ((work s i ways).map Prod.snd) := by
    intro way member
    obtain ⟨⟨place, way⟩, among, rfl⟩ := mem_map.mp member
    exact fair way (of_mem_zip among).2
  have sorted : ∀ q ∈ s.forked i p (ways.length - 1), q.Sorted := by
    intro q member
    rcases mem_append.mp member with old | copy
    · rcases mem_or_eq_of_mem_set old with old | rfl
      · exact others q old
      · exact sorted
    · obtain ⟨k, _, rfl⟩ := mem_map.mp copy
      exact sorted.of_terms rfl
  have takes := takeAll_congr M agrees fair sorted
  unfold work Search.places Search.forked at takes
  unfold branch
  dsimp only
  rw [takes]

theorem advance_congr (agrees : first.Agrees second) (sorted : s.Sorted) :
    advance M first s i = advance M second s i := by
  unfold advance
  split
  · rfl
  · rename_i p found
    obtain ⟨kept, fair⟩ := Machine.step_sorted (sorted p (mem_of_getElem? found))
    dsimp only
    split
    · rfl
    · rename_i ways steps
      have kept : (M.stepOn p).2.Sorted := kept
      rw [feasibleIfRequired_congr agrees kept]
      refine bind_congr_returns fun w answer v _ => ?_
      split
      · rfl
      · rfl
      · exact branch_congr M agrees sorted kept (fair ways steps)

theorem search_congr (agrees : first.Agrees second) (clock : Clock (StateM σ)) (started left : Nat)
    (sorted : s.Sorted) : search M first clock started left s = search M second clock started left s := by
  induction left generalizing s with
  | zero => rfl
  | succ left ih =>
    rw [search, search]
    split
    · rfl
    · rename_i i rest pending
      refine bind_congr_returns fun w budget v _ => ?_
      cases budget with
      | some b => rfl
      | none =>
        have popped : (s.awaiting rest).Sorted := sorted
        rw [advance_congr agrees popped]
        exact bind_congr_returns fun w t v advances => ih (advance_sorted popped advances)

end Explore

theorem complete_congr (agrees : first.Agrees second) (c : Contract) (tracking : Tracking) (expected : List CallOn)
    (sorted : ∀ p ∈ paths, p.Sorted) :
    complete first c tracking expected paths = complete second c tracking expected paths := by
  induction paths with
  | nil => rfl
  | cons p rest ih =>
    obtain ⟨here, later⟩ := forall_mem_cons.mp sorted
    rw [complete, complete]
    split
    · split
      · rfl
      · rename_i q closes
        rw [Explore.feasibleIfRequired_congr agrees ((Complete.close_stage closes).sorted here)]
        refine bind_congr_returns fun w answer v _ => ?_
        cases answer with
        | error e => rfl
        | ok applies =>
          rw [ih later]
    · rw [ih later]

namespace Judge

open Resolve

variable {S : Subject}

theorem sorts_mirrored {α : Type} {Q : α → Prop} {x : ResolveM α} (sorts : Sorts Q x) :
    Mirrored Path.Sorted id Q x := by
  intro p sorted
  obtain ⟨kept, good⟩ := sorts (w := .start p) ⟨sorted, fun _ none => nomatch none⟩
  exact ⟨_, _, rfl, rfl, fun a gives => ⟨kept.path, good a gives⟩⟩

theorem returnedTerm_wellSorted (sorted : p.Sorted) {t : Term} (returned : returnedTerm? p = some t) :
    t.WellSorted := by
  unfold returnedTerm? at returned
  split at returned
  · cases returned
    exact Term.wellSorted_constant _
  · rename_i x slot
    have good : x.All Term.WellSorted := sorted.returned _ slot
    cases good with
    | term good =>
      cases returned
      exact good
    | tuple _ => cases returned
  · cases returned

theorem sorts_returnMatch (v : ReturnCheck) : Sorts (fun found => ∀ t ∈ found, t.Assertable) (returnMatch S v) := by
  refine .bind (sorts_selector _ _) fun found sound => .bind keeps_get fun r sorted => ?_
  split
  · rename_i ret exp returned
    refine .bind (keeps_sorted fun _ built => Term.assertable_mkEq (returnedTerm_wellSorted sorted.path returned)
      (sound _ rfl) built) fun t same => keeps_pure fun u found => Option.some.inj found ▸ same
  · refine keeps_pure fun t none => ?_
    cases none

theorem agrees_mirrors (agrees : first.Agrees second) (S : Subject) :
    Mirrors S Path.Sorted id Term.WellSorted Term.Assertable (fun _ g x y => y = g <$> x) first second where
  value a := (map_pure _ a).symm
  seq first next := by
    rw [first, map_bind]
    exact bind_congr next
  terms := sorted_vocabulary
  required := Path.Sorted.required
  buggy := Path.Sorted.buggy
  sat sorted assertable := by rw [id_map, agrees.checkSat (sorted.extended assertable)]
  model sorted good := by rw [id_map, agrees.model sorted.constraints (forall_mem_singleton.mpr good)]
  assigned v := sorts_mirrored (sorted_upholding.setting.assignBug v fun _ _ => trivial)
  returned v := sorts_mirrored (sorts_returnMatch v)
  ordered _ := sorts_mirrored (.bind (sorts_selector _ _) fun _ sound => keeps_required _ sound)

end Judge

theorem judge_congr (agrees : first.Agrees second) (S : Subject) (check : Check) (sorted : ∀ p ∈ paths, p.Sorted) :
    judge first S check paths = judge second S check paths := by
  have same := (Judge.agrees_mirrors agrees S).judge check sorted
  rw [same, id_map]

variable {clock : Clock (StateM σ)} {program : Option Program} {config : Config} {contract : String} {target : Target}
  {check : Check} {prepared : Prepared}

theorem explore_congr (agrees : first.Agrees second)
    (prepares : prepare program config contract target check = .ok prepared) :
    explore first clock config prepared = explore second clock config prepared :=
  bind_congr_returns fun _ started _ _ =>
    Explore.search_congr agrees clock started config.maxSteps (prepared_sorted prepares)

theorem verify_congr (agrees : first.Agrees second) :
    verify first clock program config contract target check =
      verify second clock program config contract target check := by
  unfold verify
  split
  · rfl
  · rename_i prepared prepares
    split
    · rfl
    · unfold runPrepared
      rw [explore_congr agrees prepares]
      refine bind_congr_returns fun w paths v explores => ?_
      have sorted := explored_sorted prepares explores
      rw [Prepared.complete, complete_congr agrees _ _ _ sorted]
      refine bind_congr_returns fun w result v completes => ?_
      cases result with
      | error e => rfl
      | ok final => exact judge_congr agrees _ check (complete_sorted sorted completes)

/-- Every path of a run is sorted, the run asks well-sorted questions only, and ill-typed instructions and branches
fail or give fresh symbols. -/
theorem run_stays_well_sorted (solver : Solver (StateM σ)) (clock : Clock (StateM σ)) (program : Option Program)
    (config : Config) (contract : String) (target : Target) (check : Check) :
    (∀ p, Arises solver clock program config contract target check p → p.Sorted) ∧
    (∀ other, solver.Agrees other → verify solver clock program config contract target check =
      verify other clock program config contract target check) ∧
    (∀ (M : Machine) (p : Path) (loc : Location) (i : Instruction), M.IllTyped p i →
      (∃ e q, outcome (M.exec loc i) p = (.error e, q)) ∨
        ∃ v ways q, Machine.Runs (M.exec loc i) p ways q ∧ i.target? = some v ∧ M.Renewed v p q) ∧
    (∀ (M : Machine) (p : Path) (fn : FnId) (f : Function) (n : Node) (condition : Operand) (t : Term),
      Machine.Runs (Machine.conditionTerm condition) p t p → (∀ u, Term.truthy t ≠ .ok u) →
        ∃ e q, outcome (M.branch fn f n condition) p = (.error e, q)) := by
  refine ⟨fun p arises => arises.sorted, fun other agrees => verify_congr agrees, fun M p loc i => ?_, ?_⟩
  · exact Machine.exec_illTyped loc
  · intro M p fn f n condition t
    exact Machine.branch_illTyped fn f n

def mixedSum : Variable := ⟨"sum", .localIn "mix", .named "uint256"⟩

def addText : Instruction := .binary .add (.const (.str "one")) (.const (.int 1)) mixedSum true

def mixing : Trial where
  program := { contracts := [{
    name := "Token"
    functions := [{
      name := "mix"
      params := [⟨"ok", .named "bool"⟩]
      nodes := [{ instructions :=
        [addText,
          .index ⟨"cell", .localIn "mix", .named "uint256"⟩ ⟨"ok", .param "mix" 0, .named "bool"⟩ (.const (.int 0)),
          .builtinCall "require(bool)" [.var ⟨"ok", .param "mix" 0, .named "bool"⟩] none,
          .ret [.var mixedSum]] }] }] }] }
  function := "mix"
  check := .returns { expected := .funcParam 0 }

def strict : Solver (StateM Unit) where
  checkSat ts := pure (if ts.all fun t => t.sort = .bool then .ok .sat else .error (.reported "not a predicate"))
  model _ _ := pure (.ok none)

theorem agreeable_agrees_strict : agreeable.Agrees strict where
  checkSat {ts} assertable := by
    have predicates : (ts.all fun t => t.sort = .bool) = true :=
      all_eq_true.mpr fun t member => decide_eq_true (assertable t member).2
    dsimp only [strict]
    rw [if_pos predicates]
    rfl
  model _ _ := rfl

theorem addText_illTyped (M : Machine) (p : Path) : M.IllTyped p addText :=
  .operator rfl rfl fun _ built => nomatch built

def mixer : Machine := ⟨mixing.program, default, 0, default, Trial.config⟩

def mixStart : Path := .start 0 ⟨0, 0⟩ 0 "mix"

theorem mixing_stays_well_sorted : ∃ prepared paths q r, mixing.outcome? = some (prepared, paths, [q, r]) ∧
    q.status = .finished ∧ q.bindings.get? mixedSum.id = some (.term (.var "mix.sum!1" .int)) ∧ q.Sorted ∧
    ((agreeable.checkSat [.int 0]).run ()).1.toOption ≠ ((strict.checkSat [.int 0]).run ()).1.toOption ∧
    verify agreeable ⟨pure 0⟩ (some mixing.program) Trial.config "Token" (.named mixing.function none) mixing.check =
      verify strict ⟨pure 0⟩ (some mixing.program) Trial.config "Token" (.named mixing.function none) mixing.check ∧
    (∃ v ways p, Machine.Runs (mixer.exec (.start ⟨0, 0⟩ 0) addText) mixStart ways p ∧ addText.target? = some v ∧
      mixer.Renewed v mixStart p) ∧
    ∃ e p, outcome (mixer.branch ⟨0, 0⟩ default default (.const (.str "one"))) mixStart = (.error e, p) := by
  have ends : (mixing.outcome?.map fun outcome =>
      outcome.2.2.map fun q => (q.status, q.bindings.get? mixedSum.id)) =
      some [(.finished, some (.term (.var "mix.sum!1" .int))), (.threw, some (.term (.var "mix.sum!1" .int)))] := by
    decide +kernel
  obtain ⟨⟨prepared, paths, final⟩, ends, values⟩ := Option.map_eq_some_iff.mp ends
  obtain ⟨q, others, rfl, first, rest⟩ := map_eq_cons_iff.mp values
  obtain ⟨r, _, rfl, _, last⟩ := map_eq_cons_iff.mp rest
  cases map_eq_nil_iff.mp last
  obtain ⟨finished, fresh⟩ := Prod.mk.inj first
  obtain ⟨prepares, explores, completes⟩ := Trial.outcome_runs ends
  obtain ⟨sorted, same, mixes, branches⟩ := run_stays_well_sorted agreeable ⟨pure 0⟩ (some mixing.program) Trial.config
    "Token" (.named mixing.function none) mixing.check
  refine ⟨prepared, paths, q, r, ends, finished, fresh, ?_, by decide, same strict agreeable_agrees_strict, ?_, ?_⟩
  · exact sorted q (.completed prepares explores completes (mem_cons_self ..))
  · have performed : (outcome (mixer.exec (.start ⟨0, 0⟩ 0) addText) mixStart).1.isOk = true := by
      decide +kernel
    rcases mixes mixer mixStart (.start ⟨0, 0⟩ 0) addText (addText_illTyped _ _) with ⟨e, p, fails⟩ | gives
    · rw [fails] at performed
      cases performed
    · exact gives
  · exact branches mixer _ ⟨0, 0⟩ default default (.const (.str "one")) (.str "one") rfl fun _ built => nomatch built

end TokenAudit
