import TokenAudit.Machine.Walk
import TokenAudit.Proofs.Machine.Scalar

/-!
# A step simulates concrete execution

For a node of scalar instructions the step of the machine is sound and complete.
-/

namespace TokenAudit

inductive Instruction.ScalarAll (links : Table VarId IndexLink) (receiver : Option Variable) :
    SortContext → List Instruction → SortContext → Prop
  | nil {Γ : SortContext} : ScalarAll links receiver Γ [] Γ
  | cons {Γ Δ Γ' : SortContext} {i : Instruction} {rest : List Instruction}
      (first : Scalar links receiver Γ i Δ) (others : ScalarAll links receiver Δ rest Γ') :
      ScalarAll links receiver Γ (i :: rest) Γ'

/-- A node goes on to at most one son, or it ends in a condition and has two. -/
inductive Node.Shape (Γ : SortContext) (n : Node) : Prop
  | straight (sons : n.sons.length ≤ 1) (unnamed : n.sonTrue = none ∧ n.sonFalse = none) : Shape Γ n
  | fork {yes no : Nat} {condition : Operand} {a : SmtSort} (sons : n.sons = [yes, no])
      (named : n.sonTrue.isSome = n.sonFalse.isSome)
      (last : n.instructions.getLast? = some (.condition condition))
      (sorted : Γ.operand condition = some a) (truth : a.isTruth = true) : Shape Γ n

namespace Machine

variable {M : Machine} {p q : Path} {Γ Γ' : SortContext} {head : LoopHead} {E : Env} {ways : List Successor} {n : Node}
  {yes no : Nat} {c : Term} {b : Bool} {condition : Operand}

theorem execAll_simulates (quiet : M.tracking = {}) (models : p.Models Γ) (loc : Location)
    {is : List Instruction} (scalar : Instruction.ScalarAll p.links p.receiver Γ is Γ') :
    Simulates p (M.execAll loc is) (·.execAll loc is) Γ' := by
  induction is generalizing p Γ loc with
  | nil =>
    cases scalar
    exact simulates_skip models (by simp [execAll]) fun E => rfl
  | cons i rest ih =>
    cases scalar with
    | cons first others =>
      obtain ⟨result, q, runs, before, models', step⟩ := exec_simulates quiet models loc first
      cases result with
      | some ways =>
        refine ⟨some ways, q, ?_, before, nofun, fun E holds => ?_⟩
        · exact runs_bind.mpr ⟨some ways, q, runs, by simp⟩
        · obtain ⟨effect, ran, agrees⟩ := step E holds
          refine ⟨effect, ?_, agrees⟩
          cases effect with
          | continues m => cases agrees.1
          | leaves exit again m | blocked => simp [Memory.execAll, ran]
      | none =>
        have links : q.links = p.links := before.links
        have receiver : q.receiver = p.receiver := by
          rw [Path.receiver, before.stack]
          rfl
        rw [← links, ← receiver] at others
        obtain ⟨result, r, runs', after, models'', run⟩ :=
          ih (models' rfl) loc.next others
        refine ⟨result, r, runs_bind.mpr ⟨none, q, runs, runs'⟩, before.trans after, models'',
          fun E holds => ?_⟩
        obtain ⟨effect, ran, agrees⟩ := step E holds
        cases effect with
        | continues m =>
          obtain ⟨-, satisfied, memory⟩ := agrees
          obtain ⟨effect, ran', agrees'⟩ := run E satisfied
          refine ⟨effect, ?_, agrees'⟩
          rw [memory] at ran'
          simp [Memory.execAll, ran, ran']
        | leaves exit again m =>
          obtain ⟨-, -, -, ways, ended, -⟩ := agrees
          cases ended
        | blocked =>
          refine ⟨.blocked, by simp [Memory.execAll, ran], fun satisfied => ?_⟩
          exact agrees (after.narrows E satisfied)

def loopSpent (M : Machine) (p : Path) (head : LoopHead) : Bool :=
  decide (M.config.loopBound ≤ p.loopCounts.getD head 0)

/-- In an environment, the ways out of a node and the path it leaves are what an effect says. -/
def Departs (M : Machine) (p : Path) (head : LoopHead) (E : Env) (ways : List Successor) (q : Path) :
    Effect → Prop
  | .continues _ => False
  | .leaves exit again m =>
    E.Satisfies q.constraints ∧ q.memory E = m ∧
      openExits E ways = if again && M.loopSpent p head then [] else [exit]
  | .blocked => ¬ E.Satisfies q.constraints

theorem departs_of_loopCounts {r : Path} (same : q.loopCounts = p.loopCounts) {effect : Effect}
    (departs : M.Departs q head E ways r effect) : M.Departs p head E ways r effect := by
  have spent : M.loopSpent q head = M.loopSpent p head := by simp [loopSpent, same]
  cases effect with
  | leaves exit again m => rwa [Departs, spent] at departs
  | _ => exact departs

def LeavesAs (M : Machine) (p : Path) (fn : FnId) (f : Function) (n : Node) : Prop :=
  ∃ ways q, Runs (M.leave fn f n) p ways q ∧ q.constraints = p.constraints ∧
    ∀ E : Env, E.Satisfies p.constraints →
      ∃ effect, (p.memory E).leave fn n = some effect ∧ M.Departs p ⟨fn, n.id⟩ E ways q effect

theorem leave_straight (fn : FnId) (f : Function) (sons : n.sons.length ≤ 1)
    (unnamed : n.sonTrue = none ∧ n.sonFalse = none) : LeavesAs M p fn f n := by
  have straight : n.isBranching = false := by
    simp [Node.isBranching, unnamed, sons]
  unfold LeavesAs leave
  simp only [straight]
  match shape : n.sons, sons with
  | [], _ =>
    cases stack : p.stack with
    | nil =>
      refine ⟨[.finish], p, ?_, rfl, fun E holds => ⟨.leaves .finish false (p.memory E), ?_, holds, rfl, rfl⟩⟩
      · simp [leaveStraight, shape, stack]
      · simp [Memory.leave, shape, Path.memory, stack]
    | cons frame rest =>
      refine ⟨[.goto frame.returnTo none], { p with stack := rest }, ?_, rfl, fun E holds =>
        ⟨.leaves (.goto frame.returnTo) false { p.memory E with stack := rest }, ?_, holds, rfl, rfl⟩⟩
      · simp [leaveStraight, shape, stack]
      · simp [Memory.leave, shape, Path.memory, stack]
  | [son], _ =>
    refine ⟨[.goto (.start fn son) none], p, ?_, rfl, fun E holds =>
      ⟨.leaves (.goto (.start fn son)) false (p.memory E), ?_, holds, rfl, rfl⟩⟩
    · simp [leaveStraight, shape]
    · simp [Memory.leave, shape]

theorem branches_fork (sons : n.sons = [yes, no]) (named : n.sonTrue.isSome = n.sonFalse.isSome) :
    branches n = (some (n.sonTrue.getD yes), some (n.sonFalse.getD no)) := by
  unfold branches
  cases whenTrue : n.sonTrue <;> cases whenFalse : n.sonFalse <;> simp_all

def branchWays (take : Bool) (yes no : Location) (c : Term) : List Successor :=
  (if take then [.goto yes (some c)] else []) ++ [.goto no (some (Term.mkNot c))]

theorem openExits_branch (sorted : c.HasSort .bool) (value : c.eval E = .bool b) (take : Bool) (yes no : Location) :
    openExits E (branchWays take yes no c) =
      if b then (if take then [.goto yes] else []) else [.goto no] := by
  have negated := (Term.mkNot_denotes (E := E) sorted).eval_eq
  cases b <;> cases take <;>
    simp [branchWays, openExits, Successor.isOpen, Successor.constraint?, value, negated, Successor.exit]

theorem runs_countLoop :
    Runs (M.countLoop head) p b q ↔ (!M.loopSpent p head) = b ∧
      { p with loopCounts := p.loopCounts.insert head (p.loopCounts.getD head 0 + 1) } = q := by
  have within : decide (p.loopCounts.getD head 0 + 1 ≤ M.config.loopBound) = !M.loopSpent p head := by
    rw [loopSpent, ← decide_not]
    exact decide_eq_decide.mpr (by omega)
  unfold countLoop
  rw [runs_bind]
  constructor
  · rintro ⟨_, _, reads, counts⟩
    obtain ⟨rfl, rfl⟩ := runs_get.mp reads
    simp only [runs_bind, runs_modify, runs_pure, within] at counts
    obtain ⟨_, _, rfl, passes, rfl⟩ := counts
    exact ⟨passes, rfl⟩
  · rintro ⟨passes, rfl⟩
    refine ⟨p, p, runs_get.mpr ⟨rfl, rfl⟩, ?_⟩
    simp only [runs_bind, runs_modify, runs_pure, within]
    exact ⟨(), _, rfl, passes, rfl⟩

theorem runs_branch (quiet : M.tracking = {}) (fn : FnId) (f : Function) (sons : n.sons = [yes, no])
    (named : n.sonTrue.isSome = n.sonFalse.isSome) {t : Term} (read : Runs (conditionTerm condition) p t p)
    (built : Term.truthy t = .ok c) :
    ∃ counts, Runs (M.branch fn f n condition) p
      (branchWays (!(n.kind == .ifLoop && M.loopSpent p ⟨fn, n.id⟩)) (.start fn (n.sonTrue.getD yes))
        (.start fn (n.sonFalse.getD no)) c)
      { p with loopCounts := counts } := by
  cases loop : n.kind == .ifLoop with
  | false =>
    refine ⟨p.loopCounts, runs_bind.mpr ⟨t, p, read, ?_⟩⟩
    simp [built, quiet, branches_fork sons named, branchWays, loop]
  | true =>
    refine ⟨p.loopCounts.insert ⟨fn, n.id⟩ (p.loopCounts.getD ⟨fn, n.id⟩ 0 + 1),
      runs_bind.mpr ⟨t, p, read, ?_⟩⟩
    simp [built, quiet, branches_fork sons named, branchWays, loop, runs_countLoop]

theorem leave_fork (quiet : M.tracking = {}) (models : p.Models Γ) (fn : FnId) (f : Function) {a : SmtSort}
    (sons : n.sons = [yes, no]) (named : n.sonTrue.isSome = n.sonFalse.isSome)
    (last : n.instructions.getLast? = some (.condition condition)) (sorted : Γ.operand condition = some a)
    (truth : a.isTruth = true) : LeavesAs M p fn f n := by
  obtain ⟨t, _, read, hasSort, value⟩ := models.operand sorted
  obtain ⟨c, built, cSort, cValue⟩ := Term.truthy_term hasSort truth
  obtain ⟨counts, runs⟩ := runs_branch quiet fn f sons named read built
  have branching : n.isBranching = true := by simp [Node.isBranching, sons]
  have left : M.leave fn f n = M.branch fn f n condition := by simp [leave, branching, last]
  rw [← left] at runs
  refine ⟨_, _, runs, rfl, fun E holds => ?_⟩
  have opens := openExits_branch cSort (cValue E) (!(n.kind == .ifLoop && M.loopSpent p ⟨fn, n.id⟩))
    (.start fn (n.sonTrue.getD yes)) (.start fn (n.sonFalse.getD no))
  cases outcome : (t.eval E).truth with
  | true =>
    refine ⟨.leaves (.goto (.start fn (n.sonTrue.getD yes))) (n.kind == .ifLoop) (p.memory E), ?_, holds,
      rfl, ?_⟩
    · simp [Memory.leave, sons, last, value, outcome]
    · rw [opens, outcome]
      cases n.kind == .ifLoop && M.loopSpent p ⟨fn, n.id⟩ <;> rfl
  | false =>
    refine ⟨.leaves (.goto (.start fn (n.sonFalse.getD no))) false (p.memory E), ?_, holds, rfl, ?_⟩
    · simp [Memory.leave, sons, last, value, outcome]
    · rw [opens, outcome]
      rfl

theorem leave_as_memory (quiet : M.tracking = {}) (models : p.Models Γ) (fn : FnId) (f : Function) (shape : n.Shape Γ) :
    LeavesAs M p fn f n := by
  cases shape with
  | straight sons unnamed => exact leave_straight fn f sons unnamed
  | fork sons named last sorted truth => exact leave_fork quiet models fn f sons named last sorted truth

theorem runs_step {loc : Location} {f : Function} (here : p.location = some loc)
    (function : M.program.function? loc.function = some f) (node : f.node? loc.node = some n)
    (undeclared : n.kind ≠ .declaration) (returns : n.kind ≠ .throw) :
    Runs M.step p ways q ↔
      ∃ result r,
        Runs (M.execAll loc (n.instructions.drop loc.offset)) { p with steps := p.steps + 1 } result r ∧
        match result with
        | some taken => taken = ways ∧ r = q
        | none => Runs (M.leave loc.function f n) r ways q := by
  have declares : ∀ r s u, Runs (declareAt n loc.offset) r u s ↔ r = s := by
    intro r s u
    unfold declareAt
    cases n.declared <;> simp [undeclared]
  have body : Runs M.step p ways q ↔ Runs (M.runNode loc f n) p ways q := by
    simp [step, here, function, node]
  rw [body]
  simp only [runNode, beq_iff_eq, returns, if_false, runs_bind, runs_modify, declares, exists_eq_left',
    exists_const]
  refine exists_congr fun result => exists_congr fun r => and_congr_right fun _ => ?_
  cases result <;> simp

theorem step_simulates_concrete {loc : Location} {f : Function} {n : Node} (quiet : M.tracking = {})
    (here : p.location = some loc) (function : M.program.function? loc.function = some f)
    (node : f.node? loc.node = some n) (undeclared : n.kind ≠ .declaration) (returns : n.kind ≠ .throw)
    (models : p.Models Γ) (scalar : Instruction.ScalarAll p.links p.receiver Γ (n.instructions.drop loc.offset) Γ')
    (shape : n.Shape Γ') :
    ∃ ways q, M.stepOn p = (.ok ways, q) ∧
      (∀ E : Env, E.Satisfies q.constraints → E.Satisfies p.constraints) ∧
      ∀ E : Env, E.Satisfies p.constraints →
        ∃ effect, (p.memory E).runNode loc n = some effect ∧
          M.Departs p ⟨loc.function, n.id⟩ E ways q effect := by
  have counted : { p with steps := p.steps + 1 }.Models Γ := models
  obtain ⟨result, q, runs, before, models', run⟩ := execAll_simulates quiet counted loc scalar
  -- the count of steps is no part of the memory
  have run : ∀ E : Env, E.Satisfies p.constraints →
      ∃ effect, (p.memory E).execAll loc (n.instructions.drop loc.offset) = some effect ∧
        Matches E result q effect := run
  cases result with
  | some ways =>
    have stepped := (runs_step here function node undeclared returns).mpr ⟨some ways, q, runs, rfl, rfl⟩
    refine ⟨ways, q, stepped, before.narrows, fun E holds => ?_⟩
    obtain ⟨effect, ran, agrees⟩ := run E holds
    cases effect with
    | continues m => cases agrees.1
    | leaves exit again m =>
      obtain ⟨rfl, satisfied, memory, _, ⟨⟩, exits⟩ := agrees
      exact ⟨.leaves exit false m, by simp [Memory.runNode, ran], satisfied, memory, exits⟩
    | blocked => exact ⟨.blocked, by simp [Memory.runNode, ran], agrees⟩
  | none =>
    obtain ⟨ways, r, left, unchanged, departs⟩ := leave_as_memory quiet (models' rfl) loc.function f shape
    have stepped := (runs_step here function node undeclared returns).mpr ⟨none, q, runs, left⟩
    refine ⟨ways, r, stepped, ?_, fun E holds => ?_⟩
    · rw [unchanged]
      exact before.narrows
    · obtain ⟨effect, ran, agrees⟩ := run E holds
      cases effect with
      | continues m =>
        obtain ⟨-, satisfied, memory⟩ := agrees
        obtain ⟨effect, ran', departs⟩ := departs E satisfied
        refine ⟨effect, ?_, departs_of_loopCounts before.loopCounts departs⟩
        rw [memory] at ran'
        simp [Memory.runNode, ran, ran']
      | leaves exit again m =>
        obtain ⟨-, -, -, _, ended, -⟩ := agrees
        cases ended
      | blocked =>
        refine ⟨.blocked, by simp [Memory.runNode, ran], ?_⟩
        show ¬ E.Satisfies r.constraints
        rw [unchanged]
        exact agrees

/-! A loop head that counts down: the counter is decremented under the check of unsigned arithmetic, and
the loop goes on while it is positive. -/

def counter : Variable := ⟨"n", .localIn "drain", .uint256⟩

def positive : Variable := ⟨"positive", .temporary "drain", .named "bool"⟩

def countdown : Node where
  id := 0
  kind := .ifLoop
  instructions :=
    [.binary .sub (.var counter) (.const (.int 1)) counter true,
      .binary .gt (.var counter) (.const (.int 0)) positive false, .condition (.var positive)]
  sons := [0, 1]
  sonTrue := some 0
  sonFalse := some 1
  declared := none

def drain : Function :=
  { name := "drain", nodes := [countdown, { id := 1 }] }

def drainMachine : Machine where
  program := ⟨[{ functions := [drain] }]⟩
  contract := { functions := [drain] }
  contractId := 0
  tracking := {}
  config := {}

def drainStart : Path := (Path.start 0 ⟨0, 0⟩ 0 "drain").bind counter.id (.term (.var "n" .int))

def drainSorts : SortContext := fun v => if v = counter.id then some .int else none

theorem drainStart_models : drainStart.Models drainSorts := by
  intro v s known
  simp only [drainSorts] at known
  split at known
  · rename_i counted
    cases known
    subst counted
    exact ⟨.var "n" .int, by simp [drainStart, Path.bind], trivial, rfl⟩
  · cases known

theorem countdown_step_simulates :
    drainStart.Models drainSorts ∧
      ∃ ways q, drainMachine.stepOn drainStart = (.ok ways, q) ∧
        (∀ E : Env, E.Satisfies q.constraints → E.Satisfies drainStart.constraints) ∧
        ∀ E : Env, E.Satisfies drainStart.constraints →
          ∃ effect, (drainStart.memory E).runNode ⟨⟨0, 0⟩, 0, 0⟩ countdown = some effect ∧
            drainMachine.Departs drainStart ⟨⟨0, 0⟩, 0⟩ E ways q effect :=
  ⟨drainStart_models,
    step_simulates_concrete (n := countdown) rfl rfl rfl rfl (by decide) (by decide) drainStart_models
      (.cons (.binary rfl rfl rfl rfl) (.cons (.binary rfl rfl rfl rfl) (.cons .condition .nil)))
      (.fork rfl rfl rfl rfl rfl)⟩

/-! A sum that is assigned to a reference: the step writes the cell of the mapping, the concrete run does not. -/

def stock : Variable := ⟨"stock", .state, .mapping .uint256 .uint256⟩

def stockCell : Variable := ⟨"REF_0", .reference "restock", .uint256⟩

def stockSum : Node :=
  { id := 1, instructions := [.binary .add (.const (.int 1)) (.const (.int 2)) stockCell false] }

def restock : Function :=
  { name := "restock",
    nodes := [{ id := 0, instructions := [.index stockCell stock (.const (.int 7))], sons := [1] }, stockSum] }

def restockMachine : Machine :=
  { drainMachine with program := ⟨[{ functions := [restock] }]⟩, contract := { functions := [restock] } }

def stockSymbol : Term := .var "stock" (.array .int .int)

/-- The path behind the node that indexes the mapping. -/
def restockLinked : Path :=
  (restockMachine.stepOn ((Path.start 0 ⟨0, 0⟩ 0 "restock").bind stock.id (.term stockSymbol))).2.go
    (.goto (.start ⟨0, 0⟩ 1) none)

theorem sum_written_through : restockLinked.location = some (.start ⟨0, 0⟩ 1) ∧
    Instruction.ScalarAll .empty restockLinked.receiver (fun _ => none) stockSum.instructions
      (SortContext.set (fun _ => none) stockCell.id .int) ∧
    Env.Satisfies default restockLinked.constraints ∧
    ∃ ways q m, restockMachine.stepOn restockLinked = (.ok ways, q) ∧
      (restockLinked.memory default).runNode (.start ⟨0, 0⟩ 1) stockSum = some (.leaves .finish false m) ∧
      q.memory default ≠ m := by
  have sorted : (stockSymbol.eval default).sort = .array .int .int := rfl
  refine ⟨rfl, .cons (.binary rfl rfl rfl rfl) .nil, ?_, [.finish], _, _, rfl, rfl, fun same => ?_⟩
  · have assumed : restockLinked.constraints.terms = [.order .ge (.select stockSymbol (.int 7)) .zero] := rfl
    rw [Env.Satisfies, assumed]
    exact List.forall_mem_singleton.mpr rfl
  have kept := congrFun (congrArg Memory.vars same) stock.id
  have written : some (Content.single ((stockSymbol.eval default).store (.int 7) (.int 3))) =
    some (.single (stockSymbol.eval default)) := kept
  have found : ((stockSymbol.eval default).store (.int 7) (.int 3)).select (.int 7) = .int 3 :=
    Datum.select_store_same sorted rfl
  rw [Content.single.inj (Option.some.inj written)] at found
  cases found

end Machine

end TokenAudit
