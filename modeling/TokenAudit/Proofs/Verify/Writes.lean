import TokenAudit.Proofs.Machine.Deeds
import TokenAudit.Proofs.Machine.Entries
import TokenAudit.Proofs.Machine.Ledger
import TokenAudit.Proofs.Verify.Completion

/-!
# Records of writes

A path notes the state variables that it writes, and a completed path denies the writes it has not noted.
-/

namespace TokenAudit

open List Complete

def Instruction.recordsWrite : Instruction → Bool
  | .assignment _ _ => true
  | .binary _ _ _ _ _ => true
  | .delete _ _ => true
  | _ => false

theorem Instruction.recordsWrite_iff (i : Instruction) : i.recordsWrite = true ↔ .writes ∈ i.touches := by
  cases i <;> simp [recordsWrite, touches]

namespace Machine

variable {M : Machine} {p q r s : Path} {K : Part → Prop} {v : Variable} {i : Instruction} {β : Type}
  {result : Option (List Successor)} {loc : Location}

/-- The position of the state variable that an instruction writes on a path, directly or through a
reference. -/
def written? (M : Machine) (p : Path) (i : Instruction) : Option Nat :=
  ((Function.writtenVariable? i).bind (M.stateRoot? p)).map Prod.fst

/-- The instruction notes a write of the state variable with position `j`. -/
def Records (M : Machine) (d : Performed) (j : Nat) : Prop :=
  d.instruction.recordsWrite = true ∧ M.written? d.before d.instruction = some j

/-- From `p` to `q` exactly the writes that `deeds` note have been recorded, each with its fact. -/
structure Recorded (M : Machine) (deeds : List Performed) (p q : Path) : Prop where
  adds : p.Adds q
  written : ∀ j, j ∈ q.varsWritten.toList ↔ j ∈ p.varsWritten.toList ∨ ∃ d ∈ deeds, M.Records d j
  asserted : ∀ j sv, M.contract.stateVariables[j]? = some sv → j ∈ q.varsWritten.toList →
    j ∉ p.varsWritten.toList → ∀ E : Env, E.Satisfies q.constraints → E.Holds (Fact.written sv.name).term

theorem Recorded.append {deeds later : List Performed} (first : Recorded M deeds p q)
    (second : Recorded M later q r) : Recorded M (deeds ++ later) p r := by
  refine ⟨Trans.trans first.adds second.adds, fun j => ?_, fun j sv listed noted fresh E satisfies => ?_⟩
  · rw [second.written, first.written, or_assoc]
    simp only [mem_append, or_and_right, exists_or]
  · by_cases already : j ∈ q.varsWritten.toList
    · exact first.asserted j sv listed already fresh E (second.adds.satisfies satisfies)
    · exact second.asserted j sv listed noted already E satisfies

theorem recorded_nothing (adds : p.Adds q) (same : q.varsWritten = p.varsWritten) : Recorded M [] p q := by
  refine ⟨adds, fun j => ?_, fun j sv _ noted fresh => ?_⟩
  · simp [same]
  · rw [same] at noted
    exact absurd noted fresh

instance : Std.Refl (Recorded M []) := ⟨fun p => recorded_nothing (Std.Refl.refl p) rfl⟩

instance : Trans (Recorded M []) (Recorded M []) (Recorded M []) := ⟨fun first second => first.append second⟩

theorem Changes.recorded (untouched : ¬ K .writes) (changes : Changes K p q) : Recorded M [] p q :=
  recorded_nothing (changes.lift fun _ _ => Change.adds) (changes.varsWritten untouched)

theorem Change.recorded (untouched : ¬ K .writes) (change : Change K p q) : Recorded M [] p q :=
  change.changes.recorded untouched

theorem stateRoot_congr (same : q.roots = p.roots) (v : Variable) : M.stateRoot? q v = M.stateRoot? p v := by
  unfold stateRoot? Path.rootOf
  rw [same]

theorem stateRoot_name {j : Nat} {name : String} {sv : StateVariable} (rooted : M.stateRoot? p v = some (j, name))
    (listed : M.contract.stateVariables[j]? = some sv) : sv.name = name := by
  obtain ⟨sv', found⟩ := stateVariable_of_stateRoot rooted
  obtain ⟨listed', named⟩ := Contract.stateVariable?_listed found
  cases listed.symm.trans listed'
  exact named

theorem noteWrite_written (p : Path) (i : Nat) (name : String) (count : Bool) (j : Nat) :
    j ∈ (p.noteWrite i name count).varsWritten.toList ↔ j ∈ p.varsWritten.toList ∨ j = i := by
  have noted : j ∈ (if p.varsWritten.contains i then p
      else { p with varsWritten := p.varsWritten.insert i }.assume (Fact.written name).term).varsWritten.toList ↔
      j ∈ p.varsWritten.toList ∨ j = i := by
    split
    · rename_i already
      have already : i ∈ p.varsWritten.toList := of_decide_eq_true already
      constructor
      · exact .inl
      · rintro (before | rfl)
        · exact before
        · exact already
    · rw [or_comm]
      exact OrdSet.mem_insertInto i j p.varsWritten.toList
  unfold Path.noteWrite
  dsimp only
  split
  · exact noted
  · exact noted

theorem noteWrite_asserts {i : Nat} (name : String) (count : Bool) (fresh : i ∉ p.varsWritten.toList) (E : Env)
    (satisfies : E.Satisfies (p.noteWrite i name count).constraints) : E.Holds (Fact.written name).term := by
  have unnoted : p.varsWritten.contains i = false := decide_eq_false fresh
  unfold Path.noteWrite at satisfies
  rw [unnoted] at satisfies
  cases count with
  | false | true => exact (Env.satisfies_push.mp satisfies).2

theorem recordWrite_recorded (tracks : M.tracking.write = true) {u : Unit} {first last : Path}
    (runs : Runs (M.recordWrite v) p u q) (records : i.recordsWrite = true)
    (written : M.written? first i = (M.stateRoot? p v).map Prod.fst) : Recorded M [⟨first, i, last⟩] p q := by
  have adds : p.Adds q :=
    ((changing (K := Any)).operates.recordWrite trivial v |>.1 runs).lift fun _ _ => Change.adds
  have noted (j : Nat) : (∃ d ∈ [(⟨first, i, last⟩ : Performed)], M.Records d j) ↔
      (M.stateRoot? p v).map Prod.fst = some j := by
    simp only [mem_singleton, exists_eq_left, Records, records, true_and, written]
  unfold recordWrite at runs
  rw [tracks, if_pos rfl, runs_modify] at runs
  refine ⟨adds, fun j => ?_, fun j sv listed now fresh E satisfies => ?_⟩
  · rw [noted, ← runs]
    split
    · rename_i k name rooted
      rw [noteWrite_written, rooted]
      simp [eq_comm]
    · rename_i unrooted
      simp [unrooted]
  · rw [← runs] at now satisfies
    split at now
    · rename_i k name rooted
      rw [rooted] at satisfies
      have same : j = k := ((noteWrite_written p k name _ j).mp now).resolve_left fresh
      subst same
      rw [stateRoot_name rooted listed]
      exact noteWrite_asserts name _ fresh E satisfies
    · exact absurd now fresh

/-- The computation notes one write through `v` and touches nothing else. -/
def Notes (M : Machine) (v : Variable) {α : Type} (x : StepM α) : Prop :=
  ∀ ⦃p a q⦄, Runs x p a q → ∃ r s u, Changes (fun _ => False) p r ∧ Runs (M.recordWrite v) r u s ∧
    Changes (fun _ => False) s q

theorem Notes.after {α : Type} {x : StepM α} {f : α → StepM β} (first : Always (Changes fun _ => False) x)
    (notes : ∀ a, M.Notes v (f a)) : M.Notes v (x >>= f) := by
  intro p b q runs
  obtain ⟨a, r, before, runs⟩ := runs.of_bind
  obtain ⟨s, t, u, changes, writes, later⟩ := notes a runs
  exact ⟨s, t, u, (first before).trans changes, writes, later⟩

theorem notes_recordWrite (v : Variable) {f : Unit → StepM β} (later : ∀ u, Always (Changes fun _ => False) (f u)) :
    M.Notes v (M.recordWrite v >>= f) := by
  intro p b q runs
  obtain ⟨u, r, writes, runs⟩ := runs.of_bind
  exact ⟨p, r, u, .refl, writes, later u runs⟩

theorem assignment_notes (target : Variable) (source : Operand) : M.Notes target (M.assignment target source) := by
  have writes : M.Notes target (do
      M.recordWrite target
      M.assign target (← M.valueOf source)) :=
    notes_recordWrite target fun _ => .bind ((changing.operates.valueOf fun _ _ => trivial).1) fun _ =>
      assign_changes _ _
  refine .after (recordOperands_changes _ _) fun _ => ?_
  cases source with
  | const k => exact writes
  | var v => exact .after (changing.operates (M := M) |>.aliased _ _).1 fun _ => writes

theorem binary_notes (op : BinaryOp) (left right : Operand) (target : Variable) (checked : Bool) :
    M.Notes target (M.binary op left right target checked) := by
  have writes (value : Term) : M.Notes target (do
      if checked then modify (·.assumeUnsigned (.term value) target.type)
      M.recordWrite target
      M.assign target (.term value)) := by
    have notes : M.Notes target (do
        M.recordWrite target
        M.assign target (.term value)) := notes_recordWrite target fun _ => assign_changes _ _
    cases checked with
    | false => exact notes
    | true => exact .after (changing.operates (M := M) |>.unsigned _ (.term trivial)).1 fun _ => notes
  refine .after (recordOperands_changes _ _) fun _ => .after (termOf_changes left) fun l => ?_
  refine .after (termOf_changes right) fun r => ?_
  cases binaryTerm op l r with
  | error e => exact .after (redefine_changes _) fun _ => .after (always_single _) fun _ => writes _
  | ok term =>
    cases term with
    | none => exact .after (redefine_changes _) fun _ => .after (always_single _) fun _ => writes _
    | some t => exact writes t

theorem delete_notes (erased : Variable) : M.Notes erased (M.delete erased) := by
  refine notes_recordWrite erased fun _ => ?_
  split
  · exact assign_changes _ _
  · exact ((changing.operates (M := M)).fresh trivial).1

section

variable (tracks : M.tracking.write = true)

include tracks

theorem Notes.recorded {x : StepM Unit} (notes : M.Notes v x)
    (runs : Runs (do x; pure none) p result q) (records : i.recordsWrite = true)
    (writes : Function.writtenVariable? i = some v) : Recorded M [⟨p, i, q⟩] p q := by
  obtain ⟨_, _, writing, ends⟩ := runs.of_bind
  obtain ⟨_, rfl⟩ := runs_pure.mp ends
  obtain ⟨r, s, u, before, noted, after⟩ := notes writing
  have written : M.written? p i = (M.stateRoot? r v).map Prod.fst := by
    rw [written?, writes, Option.bind_some, stateRoot_congr (before.roots id)]
  have first : Recorded M [] p r := before.recorded id
  have last : Recorded M [] s _ := after.recorded id
  exact (first.append (recordWrite_recorded tracks noted records written)).append last

theorem exec_recorded (runs : Runs (M.exec loc i) p result q) : Recorded M [⟨p, i, q⟩] p q := by
  by_cases records : i.recordsWrite = true
  · cases i with
    | assignment target source => exact (assignment_notes _ _).recorded tracks runs records rfl
    | binary op left right target checked => exact (binary_notes _ _ _ _ _).recorded tracks runs records rfl
    | delete target erased => exact (delete_notes _).recorded tracks runs records rfl
    | _ => cases records
  · have untouched : .writes ∉ i.touches := fun touched => records (i.recordsWrite_iff.mpr touched)
    have quiet : Recorded M [] p q :=
      (exec_executed runs).lift (fun _ _ => Change.recorded untouched)
        fun p _ => recorded_nothing (Path.adds_of_same rfl) rfl
    refine ⟨quiet.adds, fun j => ?_, quiet.asserted⟩
    rw [quiet.written]
    simp [Records, records]

theorem execAll_recorded {instructions : List Instruction}
    (runs : Runs (M.execAll loc instructions) p result q) : Recorded M (M.performedFrom loc instructions p) p q := by
  induction instructions generalizing loc p with
  | nil =>
    obtain ⟨_, rfl⟩ := runs_pure.mp runs
    exact recorded_nothing (Std.Refl.refl p) rfl
  | cons i rest ih =>
    obtain ⟨found, r, executes, runs⟩ := runs.of_bind
    have first := exec_recorded tracks executes
    have executes : (M.exec loc i).run p = (.ok found, r) := executes
    rw [performedFrom, executes]
    cases found with
    | some ways =>
      obtain ⟨_, rfl⟩ := runs_pure.mp runs
      exact first
    | none => exact first.append (ih runs)

theorem step_recorded {ways : List Successor} (runs : Runs M.step p ways q) : Recorded M (M.performedIn p) p q := by
  have steps (p : Path) (n : Nat) : Recorded M [] p { p with steps := n } :=
    recorded_nothing (Path.adds_of_same rfl) rfl
  have stack (p : Path) (frames : List Frame) : Recorded M [] p { p with stack := frames } :=
    recorded_nothing (Path.adds_of_same rfl) rfl
  have loops (p : Path) (counts : Table LoopHead Nat) : Recorded M [] p { p with loopCounts := counts } :=
    recorded_nothing (Path.adds_of_same rfl) rfl
  obtain ⟨loc, f, n, located, known, node, runs⟩ := step_cases runs
  unfold performedIn
  rw [located]
  dsimp only
  rw [known, Option.bind_some, node]
  dsimp only
  unfold performedAt
  rcases runNode_cases runs with ⟨throws, _, rfl⟩ | ⟨u, r, passable, declares, ends⟩
  · rw [if_pos (by simp [throws])]
    exact steps p _
  · have before : Recorded M [] p r :=
      (steps p _).append ((declareAt_changes M _ _ declares).recorded (K := fun _ => False) id)
    have declares : (declareAt n loc.offset).run (counted p) = (.ok u, r) := declares
    rw [if_neg (by simpa using passable), declares]
    rcases ends with executes | ⟨s, executes, left⟩
    · exact before.append (execAll_recorded tracks executes)
    · have last : Recorded M [] s q := left.lift (fun _ _ => Change.recorded (by decide)) stack loops
      have passed := (before.append (execAll_recorded tracks executes)).append last
      rw [append_nil] at passed
      exact passed

end

theorem go_recorded (q : Path) (way : Successor) : Recorded M [] q (q.go way) := by
  refine recorded_nothing (Path.assumeEdge_adds q way.constraint?) ?_
  rw [Path.go_eq]

def Unfailing (M : Machine) (beyond : Bool) (n : Nat) (choices : List Nat) (p : Path) : Prop :=
  ∀ stride ∈ (M.walk beyond n choices p).1, stride.result.isOk = true

theorem walk_recorded (tracks : M.tracking.write = true) {beyond : Bool} {n : Nat} {choices : List Nat}
    (unfailing : M.Unfailing beyond n choices p) :
    Recorded M (M.performedOn beyond n choices p) p (M.walk beyond n choices p).2 := by
  induction n generalizing choices p with
  | zero => exact Std.Refl.refl (r := Recorded M []) p
  | succ n ih =>
    unfold performedOn
    unfold Unfailing at unfailing
    rw [walk] at unfailing ⊢
    cases steps : M.stepOn p with
    | mk result q =>
      rw [steps] at unfailing
      cases result with
      | error e =>
        have succeeds := unfailing _ (mem_singleton_self _)
        cases succeeds
      | ok ways =>
        have here : Recorded M (M.performedIn p) p q := step_recorded tracks steps
        dsimp only at unfailing ⊢
        cases chosen : ways[choices.headD 0]? with
        | none =>
          rw [flatMap_singleton]
          exact here
        | some way =>
          have moved := here.append (go_recorded q way)
          rw [append_nil] at moved
          rw [chosen] at unfailing
          dsimp only at unfailing ⊢
          split
          · rw [flatMap_singleton]
            exact moved
          · rename_i further
            rw [if_neg further] at unfailing
            exact moved.append (ih fun stride member => unfailing stride (mem_cons_of_mem _ member))

/-- In every environment of a completed walk the tracked variables that count as written are those that an assignment, a
binary operation or a deletion has written, whatever other instructions wrote. -/
theorem written_iff_noted (tracks : M.tracking.write = true) (beyond : Bool) (n : Nat) (choices : List Nat)
    (start : Path) :
    (∀ d ∈ M.performedOn beyond n choices start, ∀ j, M.written? d.before d.instruction = some j →
        (j ∈ d.after.varsWritten.toList ↔
          d.instruction.recordsWrite = true ∨ j ∈ d.before.varsWritten.toList)) ∧
      (M.Unfailing beyond n choices start → ∀ tracking expected closed,
        close M.contract tracking expected (M.walk beyond n choices start).2 = .ok closed →
        ∀ j sv, M.contract.stateVariables[j]? = some sv →
          j ∈ (M.walk beyond n choices start).2.varsTracked.toList → j ∉ start.varsWritten.toList →
          ∀ E : Env, E.Satisfies closed.constraints →
            (E.Holds (Fact.written sv.name).term ↔
              ∃ d ∈ M.performedOn beyond n choices start, d.instruction.recordsWrite = true ∧
                M.written? d.before d.instruction = some j)) := by
  constructor
  · intro d performed j written
    obtain ⟨loc, result, runs⟩ := performedOn_runs performed
    rw [(exec_recorded tracks runs).written, or_comm]
    simp [Records, written]
  · intro unfailing tracking expected closed closes j sv listed tracked fresh E satisfies
    have recorded := walk_recorded tracks unfailing
    have noted : j ∈ (M.walk beyond n choices start).2.varsWritten.toList ↔
        ∃ d ∈ M.performedOn beyond n choices start, M.Records d j := by
      rw [recorded.written, or_iff_right fresh]
    constructor
    · intro holds
      refine noted.mp (Classical.byContradiction fun unwritten => ?_)
      exact close_denies_unwritten closes tracked listed unwritten satisfies holds
    · intro deed
      have open_log := (close_adds closes).satisfies satisfies
      exact recorded.asserted j sv listed (noted.mpr deed) fresh E open_log

def switching : Machine :=
  let total : Variable := .ofState "total" (.named "int256")
  let paused : Variable := .ofState "paused" (.named "bool")
  let contract : Contract :=
    {
      name := "Token"
      stateVariables := [
        { name := "total", type := total.type },
        { name := "paused", type := paused.type }]
      functions := [straightLine "halt" [
        .binary .add (.var total) (.const (.int 1)) total true, .unary .not (.var paused) paused]] }
  ⟨{ contracts := [contract] }, contract, 0, { write := true }, default⟩

def switchingStart : Path := { Path.start 0 ⟨0, 0⟩ 0 "halt" with varsTracked := .ofList [0, 1] }

def switched : Env where
  symbol name
    | .bool => name == "total#written" || name == "paused#postexec"
    | .int => if name = "total#postexec" then (1 : Int) else (0 : Int)
    | s => s.someValue
  quotientByZero := id
  remainderByZero := id

/-- The completed walk says that the counter was written and the switch was not. -/
theorem counter_written_switch_not :
    switching.Unfailing false 5 [] switchingStart ∧ ∃ closed,
      close switching.contract switching.tracking [] (switching.walk false 5 [] switchingStart).2 =
        .ok closed ∧ switched.Satisfies closed.constraints ∧
      switched.Holds (Fact.written "total").term ∧ ¬ switched.Holds (Fact.written "paused").term := by
  have unfailing : switching.Unfailing false 5 [] switchingStart := by
    unfold Unfailing
    decide +kernel
  have shown : (close switching.contract switching.tracking []
      (switching.walk false 5 [] switchingStart).2).map (fun closed => closed.constraints.terms) = .ok [
        .var "total#written" .bool,
        .eq (.var "total#postexec" .int) (.arith .add (.var "total" .int) (.int 1)),
        .not (.var "paused#written" .bool),
        .eq (.var "paused#postexec" .bool) (.not (.var "paused" .bool))] := by decide +kernel
  cases closes : close switching.contract switching.tracking []
      (switching.walk false 5 [] switchingStart).2 with
  | error e =>
    rw [closes] at shown
    cases shown
  | ok closed =>
    rw [closes] at shown
    have log : closed.constraints.terms = _ := Except.ok.inj shown
    have satisfies : switched.Satisfies closed.constraints := by
      rw [Env.Satisfies, log]
      simp [Env.Holds, Term.eval, switched, Datum.ofCarrier, Env.arith]
    have told := (written_iff_noted rfl false 5 [] switchingStart).2 unfailing _ _ closed closes
    refine ⟨unfailing, closed, rfl, satisfies, ?_, ?_⟩
    · exact (told 0 _ rfl (by decide +kernel) (by decide) switched satisfies).mpr (by decide +kernel)
    · rw [told 1 _ rfl (by decide +kernel) (by decide) switched satisfies]
      decide +kernel

/-- A negation that is stored into a state variable is a write for the analysis of the function, but the path
does not note it, and its completion says that the variable was not written. -/
theorem negation_not_noted :
    ((switching.program.function? ⟨0, 0⟩).map fun f => f.directWrites.toList) = some ["paused", "total"] ∧
      (switching.performedOn false 5 [] switchingStart).map (fun d =>
        (switching.written? d.before d.instruction, d.after.varsWritten.toList)) =
          [(some 0, [0]), (some 1, [0])] ∧
      (close switching.contract switching.tracking []
        (switching.walk false 5 [] switchingStart).2).map (fun closed =>
          decide ((Fact.written "paused").denial ∈ closed.constraints.terms)) = .ok true := by
  decide +kernel

end Machine

end TokenAudit
