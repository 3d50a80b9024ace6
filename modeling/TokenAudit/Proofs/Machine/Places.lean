import TokenAudit.Proofs.Machine.Entries
import TokenAudit.Proofs.Machine.Failures
import TokenAudit.Proofs.Machine.Ledger

/-!
# Where a walk can stand

A program that is read has no fault: an entry node that is there, nodes that stand where their number says, and edges
that lead to nodes of the same function.
-/

namespace TokenAudit

open List

/-- The entry of a body, the numbers of the nodes and their edges all fit the list of nodes. -/
structure Function.Connected (f : Function) : Prop where
  entry : f.nodes ≠ [] → f.entry < f.nodes.length
  numbered : ∀ i n, f.node? i = some n → n.id = i
  edges : ∀ n ∈ f.nodes, ∀ son ∈ n.edges, son < f.nodes.length

def Program.Connected (program : Program) : Prop := ∀ c ∈ program.contracts, ∀ f ∈ c.functions, f.Connected

namespace Function

theorem nodesFault?_eq_none_iff (size i : Nat) (nodes : List Node) :
    nodesFault? size i nodes = none ↔
      (∀ k n, nodes[k]? = some n → n.id = i + k) ∧ ∀ n ∈ nodes, ∀ son ∈ n.edges, son < size := by
  induction nodes generalizing i with
  | nil => simp [nodesFault?]
  | cons n rest ih =>
    rw [nodesFault?]
    by_cases placed : n.id = i
    · rw [if_neg (not_not.mpr placed)]
      cases dangling : n.edges.find? (size ≤ ·) with
      | some son =>
        have among : son ∈ n.edges := mem_of_find?_eq_some dangling
        have beyond : size ≤ son := by simpa using List.find?_some dangling
        simp only [reduceCtorEq, false_iff, not_and]
        intro _ edges
        have := edges n (mem_cons_self ..) son among
        omega
      | none =>
        have here : ∀ son ∈ n.edges, son < size := by simpa using dangling
        rw [ih (i + 1)]
        constructor
        · rintro ⟨numbered, edges⟩
          refine ⟨fun k m found => ?_, forall_mem_cons.mpr ⟨here, edges⟩⟩
          cases k with
          | zero =>
            cases found
            exact placed
          | succ k =>
            have := numbered k m found
            omega
        · rintro ⟨numbered, edges⟩
          refine ⟨fun k m found => ?_, (forall_mem_cons.mp edges).2⟩
          have := numbered (k + 1) m found
          omega
    · rw [if_pos placed]
      simp only [reduceCtorEq, false_iff, not_and]
      intro numbered
      exact absurd (numbered 0 n rfl) placed

theorem fault?_eq_none_iff (f : Function) : f.fault? = none ↔ f.Connected := by
  have nodes := nodesFault?_eq_none_iff f.nodes.length 0 f.nodes
  simp only [Nat.zero_add] at nodes
  unfold fault?
  by_cases missing : f.nodes ≠ [] ∧ f.nodes.length ≤ f.entry
  · rw [if_pos (by simpa using missing)]
    simp only [reduceCtorEq, false_iff]
    intro connected
    have := connected.entry missing.1
    omega
  · rw [if_neg (by simpa using missing), nodes]
    constructor
    · rintro ⟨numbered, edges⟩
      refine ⟨fun body => ?_, numbered, edges⟩
      by_contra outside
      exact missing ⟨body, by omega⟩
    · intro connected
      exact ⟨connected.numbered, connected.edges⟩

end Function

namespace Program

variable {program : Program} {id : FnId} {f : Function} {p : Path}

theorem fault?_eq_none_iff (program : Program) : program.fault? = none ↔ program.Connected := by
  simp only [fault?, Connected, List.findSome?_eq_none_iff, Option.map_eq_none_iff, Function.fault?_eq_none_iff]

theorem connected_of_read {text : String} (accepted : Program.read text = .ok program) : program.Connected := by
  unfold Program.read at accepted
  split at accepted
  · unfold ofJson at accepted
    split at accepted
    · cases accepted
    · split at accepted
      · cases accepted
      · rename_i sound
        cases accepted
        exact (fault?_eq_none_iff program).mp sound
  · cases accepted

theorem Connected.function (connected : program.Connected) (known : program.function? id = some f) : f.Connected := by
  unfold function? at known
  split at known
  · rename_i c found
    exact connected c (mem_of_getElem? found) f (mem_of_getElem? known)
  · cases known

/-- The place is one of the program: an instruction of a node, or the end of its instructions. -/
def Locates (program : Program) (loc : Location) : Prop :=
  ∃ f n, program.function? loc.function = some f ∧ f.node? loc.node = some n ∧ loc.offset ≤ n.instructions.length

theorem locates_start {i : Nat} (known : program.function? id = some f) (inRange : i < f.nodes.length) :
    program.Locates (.start id i) :=
  ⟨f, f.nodes.get ⟨i, inRange⟩, known, List.getElem?_eq_getElem inRange, Nat.zero_le _⟩

/-- The path stands at a place of the program, and so does everything it still returns to. -/
structure InRange (program : Program) (p : Path) : Prop where
  located : ∀ loc, p.location = some loc → program.Locates loc
  pending : ∀ frame ∈ p.stack, program.Locates frame.returnTo

theorem InRange.of_same {q : Path} (inRange : program.InRange p) (location : q.location = p.location)
    (stack : q.stack = p.stack) : program.InRange q :=
  ⟨location ▸ inRange.located, stack ▸ inRange.pending⟩

theorem InRange.go {way : Successor} (inRange : program.InRange p)
    (leads : ∀ loc, way.next? = some loc → program.Locates loc) : program.InRange (p.go way) := by
  refine ⟨leads, ?_⟩
  rw [Path.go_eq]
  exact inRange.pending

end Program

namespace Machine

variable {M : Machine} {p q : Path} {ways : List Successor} {loc : Location}

theorem upkeep_inRange (M : Machine) : Upkeep M M.program.InRange Any Any Any Any :=
  withstands_of_changes fun p q changes inv => by
    induction changes with
    | refl => exact inv
    | tail _ last ih => cases last <;> exact ih.of_same rfl rfl

section

variable {loc : Location} {f : Function} {n : Node} (known : M.program.function? loc.function = some f)
  (found : f.node? loc.node = some n)

include known found

theorem admits_inRange {j : Nat} {i : Instruction} (here : n.instructions[j]? = some i) :
    Upkeep.Admits M M.program.InRange Any Any Any { loc with offset := j } i := by
  have next : M.program.Locates { loc with offset := j + 1 } :=
    ⟨f, n, known, found, (List.getElem?_eq_some_iff.mp here).1⟩
  refine Upkeep.allows_any (fun _ _ inv => inv.of_same rfl rfl) (fun _ callee _ _ _ p receiver inv => ?_)
    fun callee g calls entered => ⟨fun inv => inv.of_same rfl rfl, fun inv => ⟨inv.located, ?_⟩⟩
  · obtain ⟨log, noted⟩ := Path.noteCall_log p receiver callee.name
    rw [noted]
    exact inv.of_same rfl rfl
  · exact forall_mem_cons.mpr ⟨next, inv.pending⟩

theorem runNode_inRange : Keeps M.program.InRange (fun _ => True) (M.runNode loc f n) := by
  have leaves : Upkeep.Leaves M.program.InRange fun _ => M.program.InRange := by
    refine ⟨fun _ inv => inv.of_same rfl rfl, fun inv stack => ⟨inv.located, ?_⟩⟩
    intro frame member
    exact inv.pending frame (stack ▸ mem_cons_of_mem _ member)
  exact Keeps.imp ((upkeep_inRange M).operates.runNode (fun _ => trivial) leaves (fun _ inv => inv.of_same rfl rfl)
    (fun _ _ => trivial) fun _ _ here => admits_inRange known found here) fun _ _ => trivial

theorem execAll_leads (connected : M.program.Connected)
    (runs : Runs (M.execAll loc (n.instructions.drop loc.offset)) p (some ways) q) :
    ∀ way ∈ ways, ∀ next, way.next? = some next → M.program.Locates next := by
  intro way among next leads
  obtain ⟨before, i, rest, r, split, _, executed⟩ := execAll_ends runs
  have inside : loc.offset + before.length + 1 ≤ n.instructions.length := by
    have lengths := congrArg List.length split
    simp only [length_drop, length_append, length_cons] at lengths
    omega
  cases executed with
  | checked cond changes =>
    rcases mem_cons.mp among with rfl | other
    · cases leads
      exact ⟨f, n, known, found, inside⟩
    · rw [mem_singleton.mp other] at leads
      cases leads
  | reverted changes =>
    rw [mem_singleton.mp among] at leads
    cases leads
  | entered calls entered changes body =>
    rw [mem_singleton.mp among] at leads
    cases leads
    exact Program.locates_start entered ((connected.function entered).entry body)

theorem leave_leads (connected : M.program.Connected) (inRange : M.program.InRange p)
    (left : Left loc.function f n p ways q) :
    ∀ way ∈ ways, ∀ next, way.next? = some next → M.program.Locates next := by
  intro way among next leads
  have start {son : Nat} (edge : son ∈ n.edges) : M.program.Locates (.start loc.function son) :=
    Program.locates_start known ((connected.function known).edges n (mem_of_getElem? found) son edge)
  cases left with
  | forked cond whenTrue whenFalse counts changes edges =>
    rcases mem_append.mp among with taken | taken
    · obtain ⟨son, named, rfl⟩ := mem_map.mp taken
      cases leads
      exact start (edges (mem_append_left _ named))
    · obtain ⟨son, named, rfl⟩ := mem_map.mp taken
      cases leads
      exact start (edges (mem_append_right _ named))
  | fannedOut branching unconditional =>
    obtain ⟨son, kept, rfl⟩ := mem_map.mp among
    cases leads
    exact start (by simp [Node.edges, (mem_filter.mp kept).1])
  | passedOn son edge =>
    rw [mem_singleton.mp among] at leads
    cases leads
    exact start edge
  | returned stack =>
    rw [mem_singleton.mp among] at leads
    cases leads
    exact inRange.pending _ (stack ▸ mem_cons_self ..)
  | finished =>
    rw [mem_singleton.mp among] at leads
    cases leads

end

theorem step_finds_node (inRange : M.program.InRange p) :
    (p.location = none ∧ outcome M.step p = (.error .completedPath, p)) ∨
      ∃ loc f n, p.location = some loc ∧ M.program.function? loc.function = some f ∧ f.node? loc.node = some n ∧
        outcome M.step p = outcome (M.runNode loc f n) p := by
  cases location : p.location with
  | none =>
    refine .inl ⟨rfl, ?_⟩
    simp only [step, outcome_get_bind, location]
    rfl
  | some loc =>
    obtain ⟨f, n, known, found, _⟩ := inRange.located loc location
    refine .inr ⟨loc, f, n, rfl, known, found, ?_⟩
    simp only [step, outcome_get_bind, location, known, found]

theorem step_inRange (inRange : M.program.InRange p) : M.program.InRange (M.stepOn p).2 := by
  show M.program.InRange (outcome M.step p).2
  rcases step_finds_node inRange with ⟨_, ends⟩ | ⟨loc, f, n, _, known, found, runs⟩
  · rw [ends]
    exact inRange
  · rw [runs]
    exact (runNode_inRange known found inRange).1

theorem step_leads (connected : M.program.Connected) (inRange : M.program.InRange p)
    (steps : (M.stepOn p).1 = .ok ways) : ∀ way ∈ ways, ∀ next, way.next? = some next → M.program.Locates next := by
  have runs : Runs M.step p ways (M.stepOn p).2 := Prod.ext steps rfl
  obtain ⟨loc, f, n, located, known, found, runs⟩ := step_cases runs
  rcases runNode_runs runs with ⟨_, rfl, _⟩ | ⟨_, r, _, _, ends⟩ | ⟨r, ⟨_, _, s, declares, out⟩, leaves⟩
  · intro way among next leads
    rw [mem_singleton.mp among] at leads
    cases leads
  · exact execAll_leads known found connected ends
  · have counts : M.program.InRange (counted p) := inRange.of_same rfl rfl
    have declared := ((upkeep_inRange M).operates.declared fun _ _ _ _ => trivial).ends counts declares
    have executed := ((upkeep_inRange M).operates.execAll (fun _ => trivial) fun _ _ here _ =>
      admits_inRange known found here).ends declared.1 out
    exact leave_leads known found connected executed.1 (leave_left leaves)

theorem step_blames (inRange : M.program.InRange p) {e : PathError} (fails : (M.stepOn p).1 = .error e) :
    e.isLocal = true ∨ e = .completedPath ∧ p.location = none := by
  have fails : (outcome M.step p).1 = .error e := fails
  rcases step_finds_node inRange with ⟨completed, ends⟩ | ⟨loc, f, n, _, _, _, runs⟩
  · rw [ends] at fails
    cases fails
    exact .inr ⟨rfl, completed⟩
  · rw [runs] at fails
    exact .inl (locality.runNode anywhere loc f n fails)

/-- What holds at the start of a walk, after each of its steps and after each choice of a way, holds at every
stride and at the end. -/
theorem walk_invariant {I : Path → Prop} (step : ∀ p, I p → I (M.stepOn p).2)
    (go : ∀ p ways, I p → (M.stepOn p).1 = .ok ways → ∀ way ∈ ways, I ((M.stepOn p).2.go way)) (beyond : Bool) (n : Nat)
    (choices : List Nat) (inv : I p) :
    (∀ s ∈ (M.walk beyond n choices p).1, I s.before ∧ M.stepOn s.before = (s.result, s.after)) ∧
      I (M.walk beyond n choices p).2 := by
  induction n generalizing choices p with
  | zero => exact ⟨fun _ none => (nomatch none), inv⟩
  | succ n ih =>
    have stepped := step p inv
    have gone := go p
    rw [walk]
    cases steps : M.stepOn p with
    | mk result q =>
      rw [steps] at stepped gone
      cases result with
      | error e => exact ⟨forall_mem_singleton.mpr ⟨inv, steps⟩, stepped⟩
      | ok ways =>
        dsimp only
        split
        · exact ⟨forall_mem_singleton.mpr ⟨inv, steps⟩, stepped⟩
        · rename_i way chosen
          have gone : I (q.go way) := gone ways inv rfl way (mem_of_getElem? chosen)
          split
          · exact ⟨forall_mem_singleton.mpr ⟨inv, steps⟩, gone⟩
          · have later := ih choices.tail gone
            exact ⟨forall_mem_cons.mpr ⟨⟨inv, steps⟩, later.1⟩, later.2⟩

/-- The indices that a step may use at a place are all in range: the edges of the node, the instructions that are
left of it, and the functions that they call with their entries. -/
def Provides (M : Machine) (loc : Location) : Prop :=
  ∃ f n, M.program.function? loc.function = some f ∧ f.node? loc.node = some n ∧
    loc.offset ≤ n.instructions.length ∧ (∀ son ∈ n.edges, ∃ m, f.node? son = some m) ∧
    ∀ i ∈ n.instructions, ∀ callee, M.callee? i = some callee →
      ∃ g, M.program.function? callee = some g ∧ (g.nodes ≠ [] → ∃ m, g.node? g.entry = some m)

theorem provides_of_locates (connected : M.program.Connected) (locates : M.program.Locates loc) : M.Provides loc := by
  obtain ⟨f, n, known, found, inside⟩ := locates
  have there {g : Function} {i : Nat} (inRange : i < g.nodes.length) : ∃ m, g.node? i = some m :=
    ⟨_, List.getElem?_eq_getElem inRange⟩
  refine ⟨f, n, known, found, inside, fun son edge => ?_, fun i _ callee calls => ?_⟩
  · exact there ((connected.function known).edges n (mem_of_getElem? found) son edge)
  · obtain ⟨g, defined⟩ := Option.isSome_iff_exists.mp (function?_isSome_of_callee calls)
    exact ⟨g, defined, fun body => there ((connected.function defined).entry body)⟩

/-- A walk through a program that was read never leaves it: it stands at places of the program, it returns to
places of the program, and no step fails for want of a function or a node. -/
theorem walk_stays_in_range {text : String} {program : Program} {contractId : Nat} {tracking : Tracking}
    {config : Config} {M : Machine} {entry : FnId} {f : Function} (accepted : Program.read text = .ok program)
    (machine : Machine.ofProgram? program contractId tracking config = some M)
    (known : program.function? entry = some f) (body : f.nodes ≠ []) (id : Nat) (beyond : Bool) (n : Nat)
    (choices : List Nat) :
    (∀ s ∈ (M.walk beyond n choices (.start id entry f.entry f.name)).1,
      program.InRange s.before ∧ program.InRange s.after ∧
        (∀ ways, s.result = .ok ways → ∀ way ∈ ways, program.InRange (s.after.go way)) ∧
        (∀ name node, s.result ≠ .error (.missingNode name node)) ∧ s.result ≠ .error .missingFunction ∧
        ∀ loc, s.before.location = some loc → M.Provides loc) ∧
      program.InRange (M.walk beyond n choices (.start id entry f.entry f.name)).2 ∧
      program.contract? M.contractId = some M.contract := by
  obtain ⟨contract, hosted, built⟩ := Option.map_eq_some_iff.mp machine
  obtain rfl : M.program = program := by rw [← built]
  have connected := Program.connected_of_read accepted
  have start : M.program.InRange (.start id entry f.entry f.name) := by
    refine ⟨fun loc located => ?_, fun _ none => nomatch none⟩
    cases located
    exact Program.locates_start known ((connected.function known).entry body)
  have goes (p : Path) (ways : List Successor) (inv : M.program.InRange p) (steps : (M.stepOn p).1 = .ok ways) :
      ∀ way ∈ ways, M.program.InRange ((M.stepOn p).2.go way) :=
    fun way among => (step_inRange inv).go (step_leads connected inv steps way among)
  have walks := walk_invariant (fun p inv => step_inRange inv) goes beyond n choices start
  refine ⟨fun s member => ?_, walks.2, by rw [← built]; exact hosted⟩
  obtain ⟨inv, steps⟩ := walks.1 s member
  have result : (M.stepOn s.before).1 = s.result := congrArg Prod.fst steps
  have after : (M.stepOn s.before).2 = s.after := congrArg Prod.snd steps
  rw [← result, ← after]
  refine ⟨inv, step_inRange inv, fun ways steps => goes s.before ways inv steps, fun name node fails => ?_,
    fun fails => ?_, fun loc located => provides_of_locates connected (inv.located loc located)⟩
  · rcases step_blames inv fails with impossible | ⟨impossible, _⟩ <;> cases impossible
  · rcases step_blames inv fails with impossible | ⟨impossible, _⟩ <;> cases impossible

/-- A function that calls itself; every round is to return to the end of its only node. -/
def recursiveText : String :=
  "\x7b\"contracts\":[\x7b\"name\":\"T\",\"functions\":[\x7b\"name\":\"f\",\"nodes\":[\x7b\"id\":0,\"instructions\":" ++
    "[\x7b\"instruction\":\"internal_call\",\"function\":\"f\"\x7d]\x7d]\x7d]\x7d]\x7d"

theorem recursion_stays_in_range : ∃ program M f, Program.read recursiveText = .ok program ∧
    Machine.ofProgram? program 0 default default = some M ∧ program.function? ⟨0, 0⟩ = some f ∧ f.nodes ≠ [] ∧
    (M.walk false 3 [] (.start 0 ⟨0, 0⟩ f.entry f.name)).2.stack.length = 3 ∧
    program.InRange (M.walk false 3 [] (.start 0 ⟨0, 0⟩ f.entry f.name)).2 := by
  have evaluates : ((Program.read recursiveText).toOption.bind fun program =>
      (Machine.ofProgram? program 0 default default).bind fun M => (program.function? ⟨0, 0⟩).map fun f =>
        (f.nodes.isEmpty, (M.walk false 3 [] (.start 0 ⟨0, 0⟩ f.entry f.name)).2.stack.length)) =
      some (false, 3) := by decide +kernel
  obtain ⟨program, reads, evaluates⟩ := Option.bind_eq_some_iff.mp evaluates
  obtain ⟨M, machine, evaluates⟩ := Option.bind_eq_some_iff.mp evaluates
  obtain ⟨f, known, evaluates⟩ := Option.map_eq_some_iff.mp evaluates
  obtain ⟨filled, deep⟩ := Prod.mk.inj evaluates
  have body : f.nodes ≠ [] := fun empty => by simp [empty] at filled
  have accepted : Program.read recursiveText = .ok program := ok_of_toOption reads
  exact ⟨program, M, f, accepted, machine, known, body, deep,
    (walk_stays_in_range accepted machine known body 0 false 3 []).2.1⟩

end Machine

end TokenAudit
