import TokenAudit.Proofs.Machine.DeadEnds
import TokenAudit.Proofs.Machine.Places

/-!
# Passages of loop heads

A run follows one path step after step, takes one of the ways that each step gives, and may go on with a copy of the
path.
-/

namespace TokenAudit

def Node.condition? (n : Node) : Option Operand :=
  match n.instructions.getLast? with
  | some (.condition value) => some value
  | _ => none

def Node.isLoopHead (n : Node) : Bool := n.kind == .ifLoop && n.isBranching && n.condition?.isSome

/-- A step of a run: the path before and after it, and the way that was taken unless the run stopped. -/
structure Leg where
  before : Path
  after : Path
  way : Option Successor

namespace Machine

variable {M : Machine} {start p q : Path} {legs : List Leg} {fn : FnId} {f : Function} {n : Node} {k : Nat}
  {loc : Location} {head : LoopHead} {result : Except PathError (List Successor)} {ways : List Successor}

/-- A run from `start`: after every step it takes one of the ways given, or stops where the step left the path, be
it that the step failed.  A run may go on with a copy of its path. -/
inductive Route (M : Machine) (start : Path) : List Leg → Path → Prop
  | here : Route M start [] start
  | copied {legs : List Leg} {p : Path} (before : Route M start legs p) (id : Nat) : Route M start legs (p.fork id)
  | stopped {legs : List Leg} {p q : Path} {result : Except PathError (List Successor)} (before : Route M start legs p)
      (steps : M.stepOn p = (result, q)) : Route M start (legs ++ [⟨p, q, none⟩]) q
  | took {legs : List Leg} {p q : Path} {ways : List Successor} {way : Successor} (before : Route M start legs p)
      (steps : M.stepOn p = (.ok ways, q)) (among : way ∈ ways) :
      Route M start (legs ++ [⟨p, q, some way⟩]) (q.go way)

def body (M : Machine) (loc : Location) (n : Node) : StepM (Option (List Successor)) := do
  declareAt n loc.offset
  M.execAll loc (n.instructions.drop loc.offset)

def leavesAt (M : Machine) (p : Path) (loc : Location) (n : Node) : Bool :=
  n.kind != .throw && (outcome (M.body loc n) (counted p)).1.toOption.any Option.isNone &&
    (M.stepOn p).1.toOption.isSome

def leaves? (M : Machine) (p : Path) : Option (FnId × Nat) :=
  p.location.bind fun loc => (M.program.function? loc.function).bind fun f => (f.node? loc.node).bind fun n =>
    if M.leavesAt p loc n then some (loc.function, loc.node) else none

def passes? (M : Machine) (p : Path) : Option LoopHead :=
  (M.leaves? p).bind fun place => (M.program.function? place.1).bind fun f => (f.node? place.2).bind fun n =>
    if n.isLoopHead then some ⟨place.1, n.id⟩ else none

def trueWay? (fn : FnId) (n : Node) (p : Path) : Option Successor :=
  (branches n).1.bind fun s => (n.condition?.bind (conditionOn? p)).map fun cond => .goto (.start fn s) (some cond)

def takesTrue (M : Machine) (fn : FnId) (k : Nat) (n : Node) (leg : Leg) : Bool :=
  M.leaves? leg.before == some (fn, k) && leg.way.isSome && trueWay? fn n leg.after == leg.way

theorem uncounted (M : Machine) (counts : Table LoopHead Nat) : Upkeep M (·.loopCounts = counts) Any Any Any Any :=
  withstands_of_changes fun p q changes same => by
    induction changes with
    | refl => exact same
    | tail _ last ih => cases last <;> exact ih

theorem body_uncounted (loc : Location) (n : Node) (p : Path) :
    (outcome (M.body loc n) p).2.loopCounts = p.loopCounts := by
  have K := (uncounted M p.loopCounts).operates
  have declares : Keeps (·.loopCounts = p.loopCounts) Any (declareAt n loc.offset) := K.declared fun _ _ _ _ => trivial
  have executes : Keeps (·.loopCounts = p.loopCounts) (Upkeep.FairEnd Any)
      (M.execAll loc (n.instructions.drop loc.offset)) := by
    refine K.execAll (fun _ => trivial) fun j i _ _ => Upkeep.allows_any (fun _ _ same => same)
      (fun _ callee _ _ _ q receiver same => ?_) fun _ _ _ _ => ⟨fun same => same, fun same => same⟩
    obtain ⟨log, noted⟩ := Path.noteCall_log q receiver callee.name
    rw [noted]
    exact same
  exact (declares.bind (fun _ _ => executes) rfl).1

theorem condition?_eq_some {value : Operand} :
    n.condition? = some value ↔ n.instructions.getLast? = some (.condition value) := by
  unfold Node.condition?
  split
  · rename_i last
    rw [last]
    simp
  · rename_i other
    simp only [reduceCtorEq, false_iff]
    exact other value

theorem branch_fails {condition : Operand} {e : PathError}
    (fails : outcome (M.branch fn f n condition) p = (.error e, q)) : q.loopCounts = p.loopCounts := by
  unfold branch at fails
  rw [outcome_bind] at fails
  have reads := ((uncounted M p.loopCounts).operates.conditionValue condition rfl).1
  cases value : outcome (conditionTerm condition) p with
  | mk t r =>
    rw [value] at fails reads
    cases t with
    | error e =>
      cases fails
      exact reads
    | ok t =>
      cases truth : Term.truthy t with
      | error e =>
        simp only [truth] at fails
        cases fails
        exact reads
      | ok cond =>
        -- from here on nothing fails
        simp only [truth, sorted, pure_bind] at fails
        split at fails <;> split at fails <;> cases fails

theorem leave_counts (leaves : outcome (M.leave fn f n) p = (result, q)) :
    q.loopCounts = if n.isLoopHead ∧ result.toOption.isSome then
      p.loopCounts.insert ⟨fn, n.id⟩ (p.loopCounts.getD ⟨fn, n.id⟩ 0 + 1) else p.loopCounts := by
  unfold leave at leaves
  split at leaves
  · rename_i branching
    split at leaves
    · rename_i value conditional
      have conditional := condition?_eq_some.mpr conditional
      cases result with
      | error e => simp [branch_fails leaves, Except.toOption]
      | ok ways =>
        obtain ⟨_, _, _, _, _, counts⟩ := branch_ways leaves
        simp [counts, Node.isLoopHead, branching, conditional, Except.toOption]
    · rename_i unconditional
      have unconditional : n.condition? = none :=
        Option.eq_none_iff_forall_ne_some.mpr fun value => unconditional value ∘ condition?_eq_some.mp
      cases leaves
      simp [Node.isLoopHead, unconditional]
  · rename_i straight
    have straight : n.isLoopHead = false := by simp [Node.isLoopHead, straight]
    rw [straight]
    unfold leaveStraight at leaves
    split at leaves
    · cases leaves
      rfl
    · rw [outcome_get_bind] at leaves
      split at leaves <;> cases leaves <;> rfl

theorem runNode_throws (throws : n.kind = .throw) (f : Function) (p : Path) :
    outcome (M.runNode loc f n) p = (.ok [.throws none], counted p) := by
  unfold runNode
  show outcome (if n.kind == .throw then _ else _) (counted p) = _
  rw [if_pos (by simpa using throws)]
  rfl

theorem runNode_outcome (passable : n.kind ≠ .throw) (f : Function) (p : Path) :
    outcome (M.runNode loc f n) p = outcome (do
      let ended ← M.body loc n
      ended.elim (M.leave loc.function f n) pure) (counted p) := by
  unfold runNode body
  rw [bind_assoc]
  show outcome (if n.kind == .throw then _ else _) (counted p) = _
  rw [if_neg (by simpa using passable)]
  congr! 5 with _ ended
  cases ended <;> rfl

theorem leaves?_at (located : p.location = some loc) (known : M.program.function? loc.function = some f)
    (found : f.node? loc.node = some n) :
    M.leaves? p = if M.leavesAt p loc n then some (loc.function, loc.node) else none := by
  simp [leaves?, located, known, found]

theorem passes?_at (located : p.location = some loc) (known : M.program.function? loc.function = some f)
    (found : f.node? loc.node = some n) :
    M.passes? p = if M.leavesAt p loc n ∧ n.isLoopHead then some ⟨loc.function, n.id⟩ else none := by
  rw [passes?, leaves?_at located known found]
  by_cases leaves : M.leavesAt p loc n <;> simp [leaves, known, found]

theorem runNode_counts (steps : M.stepOn p = (result, q)) (runs : outcome (M.runNode loc f n) p = (result, q)) :
    q.loopCounts = if M.leavesAt p loc n ∧ n.isLoopHead then
      p.loopCounts.insert ⟨loc.function, n.id⟩ (p.loopCounts.getD ⟨loc.function, n.id⟩ 0 + 1) else p.loopCounts := by
  by_cases throws : n.kind = .throw
  · cases (runNode_throws throws f p).symm.trans runs
    simp [leavesAt, throws, counted]
  · have before : (outcome (M.body loc n) (counted p)).2.loopCounts = p.loopCounts := body_uncounted loc n (counted p)
    rw [runNode_outcome throws, outcome_bind] at runs
    simp only [leavesAt, steps]
    cases ran : outcome (M.body loc n) (counted p) with
    | mk ended r =>
      rw [ran] at runs before
      cases ended with
      | error e =>
        cases runs
        simpa [Except.toOption] using before
      | ok ended =>
        cases ended with
        | some ways =>
          cases runs
          simpa [Except.toOption] using before
        | none =>
          have counts := leave_counts runs
          have ranOut : (Except.ok none : Except PathError (Option (List Successor))).toOption.any Option.isNone := rfl
          rw [before] at counts
          simp [counts, throws, ranOut, and_comm]

theorem step_counts (steps : M.stepOn p = (result, q)) (head : LoopHead) :
    q.loopCounts.getD head 0 = p.loopCounts.getD head 0 + if M.passes? p = some head then 1 else 0 := by
  have steps' : outcome M.step p = (result, q) := steps
  simp only [step, outcome_get_bind] at steps'
  cases located : p.location with
  | none =>
    simp only [located] at steps'
    cases steps'
    simp [passes?, leaves?, located]
  | some loc =>
    cases known : M.program.function? loc.function with
    | none =>
      simp only [located, known] at steps'
      cases steps'
      simp [passes?, leaves?, located, known]
    | some f =>
      cases found : f.node? loc.node with
      | none =>
        simp only [located, known, found] at steps'
        cases steps'
        simp [passes?, leaves?, located, known, found]
      | some n =>
        simp only [located, known, found] at steps'
        rw [runNode_counts steps steps', passes?_at located known found]
        by_cases passes : M.leavesAt p loc n = true ∧ n.isLoopHead = true
        · by_cases same : (⟨loc.function, n.id⟩ : LoopHead) = head
          · simp [passes, same, Table.getD]
          · simp [passes, same, Table.getD]
        · simp [passes]

theorem leaves_of_leavesAt (steps : M.stepOn p = (.ok ways, q)) (located : p.location = some loc)
    (known : M.program.function? loc.function = some f) (found : f.node? loc.node = some n)
    (leaves : M.leavesAt p loc n = true) : ∃ r, Runs (M.leave loc.function f n) r ways q := by
  simp only [leavesAt, bne_iff_ne, Bool.and_eq_true] at leaves
  obtain ⟨⟨passable, ranOut⟩, _⟩ := leaves
  obtain ⟨_, _, _, located', known', found', runs⟩ := step_cases steps
  cases located.symm.trans located'
  cases known.symm.trans known'
  cases found.symm.trans found'
  rcases runNode_runs runs with ⟨throws, _⟩ | ⟨u, r, _, declares, ends⟩ | ⟨r, _, leaves⟩
  · exact absurd throws passable
  · have ran : outcome (M.body loc n) (counted p) = (.ok (some ways), q) := runs_bind.mpr ⟨u, r, declares, ends⟩
    rw [ran] at ranOut
    cases ranOut
  · exact ⟨r, leaves⟩

theorem mkNot_ne_self (t : Term) : Term.mkNot t ≠ t := by
  intro same
  cases t with
  | bool b => cases b <;> cases same
  | not t =>
    have larger := congrArg sizeOf same
    simp [Term.mkNot] at larger
  | _ => cases same

theorem takesTrue_within {way : Successor} (steps : M.stepOn p = (.ok ways, q)) (among : way ∈ ways)
    (known : M.program.function? fn = some f) (found : f.node? k = some n) (loops : n.isLoopHead = true)
    (takes : M.takesTrue fn k n ⟨p, q, some way⟩ = true) :
    M.passes? p = some ⟨fn, n.id⟩ ∧ q.loopCounts.getD ⟨fn, n.id⟩ 0 ≤ M.config.loopBound := by
  simp only [takesTrue, Bool.and_eq_true, beq_iff_eq, Option.isSome_some, and_true] at takes
  obtain ⟨leaves, true_way⟩ := takes
  obtain ⟨loc, located, leaves'⟩ := Option.bind_eq_some_iff.mp leaves
  obtain ⟨f', known', leaves'⟩ := Option.bind_eq_some_iff.mp leaves'
  obtain ⟨n', found', leaves'⟩ := Option.bind_eq_some_iff.mp leaves'
  split at leaves'
  · rename_i leavesAt
    cases leaves'
    cases known.symm.trans known'
    cases found.symm.trans found'
    refine ⟨by simp [passes?_at located known found, leavesAt, loops], ?_⟩
    obtain ⟨r, runs⟩ := leaves_of_leavesAt steps located known found leavesAt
    simp only [Node.isLoopHead, Bool.and_eq_true, beq_iff_eq, Option.isSome_iff_exists] at loops
    obtain ⟨⟨loop, branching⟩, value, conditional⟩ := loops
    rw [leave, if_pos branching, condition?_eq_some.mp conditional] at runs
    obtain ⟨cond, takeTrue, told, rfl, spent, _⟩ := branch_ways runs
    obtain ⟨s, _, rfl⟩ : ∃ s, (branches n).1 = some s ∧ .goto (.start loc.function s) (some cond) = way := by
      simpa [trueWay?, conditional, told, Option.bind_eq_some_iff] using true_way
    by_contra passed
    rw [spent.mpr ⟨loop, Nat.lt_of_not_le passed⟩] at among
    obtain ⟨_, _, same⟩ : ∃ s', (branches n).2 = some s' ∧
        Successor.goto (.start loc.function s') (some (Term.mkNot cond)) =
          .goto (.start loc.function s) (some cond) := by
      simpa [waysOn] using among
    simp only [Successor.goto.injEq, Option.some.injEq] at same
    exact mkNot_ne_self cond same.2
  · cases leaves'

theorem go_loopCounts (p : Path) (way : Successor) : (p.go way).loopCounts = p.loopCounts := by
  rw [Path.go_eq]

theorem Route.counts (route : M.Route start legs p) (known : M.program.function? fn = some f)
    (found : f.node? k = some n) (loops : n.isLoopHead = true) :
    p.loopCounts.getD ⟨fn, n.id⟩ 0 =
        start.loopCounts.getD ⟨fn, n.id⟩ 0 + legs.countP (fun leg => M.passes? leg.before = some ⟨fn, n.id⟩) ∧
      legs.countP (M.takesTrue fn k n) ≤
        min (p.loopCounts.getD ⟨fn, n.id⟩ 0) M.config.loopBound - start.loopCounts.getD ⟨fn, n.id⟩ 0 := by
  induction route with
  | here => simp
  | copied before id ih => exact ih
  | @stopped legs p q result before steps ih =>
    have counts := step_counts steps ⟨fn, n.id⟩
    have untaken : M.takesTrue fn k n ⟨p, q, none⟩ = false := by simp [takesTrue]
    simp only [List.countP_append, List.countP_singleton, decide_eq_true_eq, untaken, Bool.false_eq_true, if_false]
    omega
  | @took legs p q ways way before steps among ih =>
    have counts := step_counts steps ⟨fn, n.id⟩
    have within := takesTrue_within steps among known found loops
    rw [go_loopCounts]
    simp only [List.countP_append, List.countP_singleton, decide_eq_true_eq]
    by_cases takes : M.takesTrue fn k n ⟨p, q, some way⟩ = true
    · obtain ⟨passes, within⟩ := within takes
      rw [if_pos passes] at counts
      rw [if_pos passes, if_pos takes]
      omega
    · rw [if_neg takes]
      omega

theorem passes?_iff_leaves? (sound : M.program.fault? = none) (known : M.program.function? fn = some f)
    (found : f.node? k = some n) (loops : n.isLoopHead = true) :
    M.passes? p = some ⟨fn, n.id⟩ ↔ M.leaves? p = some (fn, k) := by
  have connected := (Program.fault?_eq_none_iff _).mp sound
  constructor
  · intro passes
    obtain ⟨⟨fn', k'⟩, leaves, passes⟩ := Option.bind_eq_some_iff.mp passes
    obtain ⟨f', known', passes⟩ := Option.bind_eq_some_iff.mp passes
    obtain ⟨n', found', passes⟩ := Option.bind_eq_some_iff.mp passes
    split at passes
    · simp only [Option.some.injEq, LoopHead.mk.injEq] at passes
      obtain ⟨rfl, same⟩ := passes
      rw [leaves, ← (connected.function known').numbered k' n' found', same,
        (connected.function known).numbered k n found]
    · cases passes
  · intro leaves
    simp [passes?, leaves, known, found, loops]

/-- On every run the true edge of a loop head is taken as often as the bound allows at most, less what the path had
already counted when the run began. -/
theorem loop_passages_bounded (route : M.Route start legs p) (known : M.program.function? fn = some f)
    (found : f.node? k = some n) (loop : n.kind = .ifLoop) (branching : n.isBranching = true) {value : Operand}
    (conditional : n.instructions.getLast? = some (.condition value)) :
    legs.countP (M.takesTrue fn k n) ≤ M.config.loopBound - start.loopCounts.getD ⟨fn, n.id⟩ 0 ∧
      p.loopCounts.getD ⟨fn, n.id⟩ 0 =
        start.loopCounts.getD ⟨fn, n.id⟩ 0 + legs.countP (fun leg => M.passes? leg.before = some ⟨fn, n.id⟩) ∧
      (M.program.fault? = none → p.loopCounts.getD ⟨fn, n.id⟩ 0 =
        start.loopCounts.getD ⟨fn, n.id⟩ 0 + legs.countP (fun leg => M.leaves? leg.before = some (fn, k))) := by
  have loops : n.isLoopHead = true := by
    simp [Node.isLoopHead, loop, branching, condition?_eq_some.mpr conditional]
  obtain ⟨counts, taken⟩ := route.counts known found loops
  refine ⟨by omega, counts, fun sound => ?_⟩
  simpa only [passes?_iff_leaves? sound known found loops] using counts

def spinHead : Node := {
  kind := .ifLoop
  instructions := [.condition (.const (.bool true))]
  sons := [0, 1] }

def spin : Function := { name := "spin", nodes := [spinHead, { id := 1 }] }

def spinTwice : Function := {
  name := "spinTwice"
  nodes := [{ instructions := [.internalCall "spin" [] none, .internalCall "spin" [] none] }] }

def spinner : Machine where
  program := ⟨[{ functions := [spin, spinTwice] }]⟩
  contract := { functions := [spin, spinTwice] }
  contractId := 0
  tracking := {}
  config := { (default : Config) with loopBound := 1 }

/-- The first call goes round once and leaves the loop, and the second cannot go round. -/
theorem second_call_cannot_spin : ∃ legs p, spinner.Route (.start 0 ⟨0, 1⟩ 0 "spinTwice") legs p ∧
    legs.countP (spinner.takesTrue ⟨0, 0⟩ 0 spinHead) = 1 ∧ p.loopCounts.getD ⟨⟨0, 0⟩, 0⟩ 0 = 3 ∧
    legs.countP (spinner.takesTrue ⟨0, 0⟩ 0 spinHead) ≤ 1 ∧
    p.loopCounts.getD ⟨⟨0, 0⟩, 0⟩ 0 = 0 + legs.countP (fun leg => spinner.leaves? leg.before = some (⟨0, 0⟩, 0)) := by
  have route : spinner.Route (.start 0 ⟨0, 1⟩ 0 "spinTwice") _ _ :=
    .took (.took (.took (.took (.took (.took .here rfl (.head _)) rfl (.head _)) rfl (.head _)) rfl (.head _)) rfl
      (.head _)) rfl (.head _)
  have known : spinner.program.function? ⟨0, 0⟩ = some spin := rfl
  have found : spin.node? 0 = some spinHead := rfl
  obtain ⟨bounded, _, counts⟩ := loop_passages_bounded route known found rfl rfl rfl
  exact ⟨_, _, route, rfl, rfl, bounded, counts rfl⟩

end Machine

end TokenAudit
