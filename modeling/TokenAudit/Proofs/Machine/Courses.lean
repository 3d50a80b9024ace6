import TokenAudit.Proofs.Machine.Entries
import TokenAudit.Proofs.Machine.Tally

/-!
# The course of a walk

An invariant of the machine holds before every instruction that is performed on a walk.
-/

namespace TokenAudit

open List

namespace Machine

open Upkeep

variable {M : Machine} {p q : Path}

def Lists (M : Machine) (i : Instruction) : Prop :=
  ∃ id f n, M.program.function? id = some f ∧ n ∈ f.nodes ∧ i ∈ n.instructions

theorem Lists.variables {i : Instruction} (lists : M.Lists i) {v : Variable} (among : v ∈ i.variables) :
    v ∈ M.program.variables := by
  obtain ⟨id, f, n, known, listed, here⟩ := lists
  exact Program.mem_variables_of_instruction known listed here among

variable {I : Path → Prop} {Good Fair : Term → Prop} {Bound : VarId → Prop} {Seen : Variable → Prop}

theorem performedFrom_keeps (K : Upkeep M I Good Fair Bound Seen) {instructions : List Instruction}
    (admits : ∀ loc, ∀ i ∈ instructions, Admits M I Good Bound Seen loc i) {loc : Location} (inv : I p) :
    ∀ d ∈ M.performedFrom loc instructions p, I d.before := by
  intro d performed
  induction instructions generalizing loc p with
  | nil => cases performed
  | cons i rest ih =>
    rw [performedFrom] at performed
    split at performed
    · rename_i q runs
      rcases mem_cons.mp performed with rfl | later
      · exact inv
      · have kept := ((K.keeps_exec (admits loc i (mem_cons_self ..))).ends inv runs).1
        exact ih (fun loc i later => admits loc i (mem_cons_of_mem _ later)) kept later
    · rw [mem_singleton.mp performed]
      exact inv
    · cases performed

theorem performedIn_keeps (K : Upkeep M I Good Fair Bound Seen) (hosts : Hosts M I Good Bound Seen) (inv : I p) :
    ∀ d ∈ M.performedIn p, I d.before ∧ M.Lists d.instruction := by
  intro d performed
  obtain ⟨loc, f, n, u, q, _, known, listed, declares, performed⟩ := performedIn_cases performed
  have listed := mem_of_getElem? listed
  have opened := ((K.operates.declared fun v declared _ _ => hosts.declares ⟨_, known⟩ listed declared).ends
    (hosts.count inv) declares).1
  have admits (loc' : Location) (i : Instruction) (among : i ∈ n.instructions.drop loc.offset) :=
    hosts.admits ⟨_, known⟩ listed (mem_of_mem_drop among) loc'
  exact ⟨performedFrom_keeps K admits opened d performed, _, f, n, known, listed,
    mem_of_mem_drop (performedFrom_runs performed).1⟩

theorem performedOn_keeps (K : Upkeep M I Good Fair Bound Seen) (hosts : Hosts M I Good Bound Seen)
    (moves : ∀ p location, I p → I { p with location := location }) (beyond : Bool) (n : Nat) (choices : List Nat)
    (inv : I p) : ∀ d ∈ M.performedOn beyond n choices p, I d.before ∧ M.Lists d.instruction := by
  induction n generalizing choices p with
  | zero => exact fun _ none => nomatch none
  | succ n ih =>
    unfold performedOn
    obtain ⟨stride, rfl, strides | ⟨ways, q, way, runs, among, strides⟩⟩ := walk_succ beyond n choices p
    · rw [strides, flatMap_singleton]
      exact performedIn_keeps K hosts inv
    · rw [strides, flatMap_cons, forall_mem_append]
      refine ⟨performedIn_keeps K hosts inv, ih choices.tail (moves _ _ ?_)⟩
      obtain ⟨kept, fair⟩ := (K.keeps_step hosts).ends inv runs
      cases constraint : way.constraint? with
      | none => exact kept
      | some t => exact K.assume kept (fair way among t constraint)

end Machine

def Path.timesCalled (p : Path) (f : String) : Nat := p.callCounts.getD f 0

def Path.NoFewer (p q : Path) : Prop := ∀ f, p.timesCalled f ≤ q.timesCalled f

theorem Path.NoFewer.trans {p q r : Path} (first : p.NoFewer q) (second : q.NoFewer r) : p.NoFewer r :=
  fun f => Nat.le_trans (first f) (second f)

namespace Machine

open Upkeep

variable {M : Machine} {p q : Path} {loc : Location} {i : Instruction} {result : Option (List Successor)}
  {deeds : List Performed}

theorem noFewer_of_tally (same : q.tally = p.tally) : p.NoFewer q := fun f =>
  Nat.le_of_eq (congrArg (fun t : Tally => t.counts.getD f 0) same.symm)

theorem exec_timesCalled (runs : Runs (M.exec loc i) p result q) (f : String) :
    q.timesCalled f = p.timesCalled f + if i.calledName? = some f then 1 else 0 := by
  have counts : q.timesCalled f = (M.tallied p.tally i).counts.getD f 0 :=
    congrArg (fun t : Tally => t.counts.getD f 0) (exec_tally runs)
  rw [counts, tallied]
  cases i.calledName? with
  | none =>
    cases M.enteredName? i <;> rfl
  | some g =>
    rw [Table.getD]
    by_cases same : g = f
    · subst same
      simp [Path.timesCalled, Path.tally]
    · simp [same, Path.timesCalled, Path.tally, Table.getD]

theorem exec_noFewer (runs : Runs (M.exec loc i) p result q) : p.NoFewer q := fun f => by
  rw [exec_timesCalled runs f]
  exact Nat.le_add_right _ _

theorem chain_noFewer (chain : Chain M deeds p q) : p.NoFewer q ∧ ∀ d ∈ deeds, d.after.NoFewer q := by
  induction chain with
  | done p => exact ⟨fun _ => Nat.le_refl _, fun _ none => nomatch none⟩
  | deed runs rest ih =>
    refine ⟨(exec_noFewer runs).trans ih.1, forall_mem_cons.mpr ⟨ih.1, ih.2⟩⟩

theorem declareAt_noFewer (M : Machine) {n : Node} {offset : Nat} {u : Unit}
    (declares : Runs (declareAt n offset) (counted p) u q) : p.NoFewer q :=
  noFewer_of_tally (((upkeep_tally (M := M) p.tally).operates.declared fun _ _ _ _ => trivial).ends
    (show (counted p).tally = p.tally from rfl) declares).1

theorem step_noFewer {ways : List Successor} (runs : Runs M.step p ways q) :
    p.NoFewer q ∧ ∀ d ∈ M.performedIn p, d.after.NoFewer q := by
  cases step_stepped runs with
  | @through loc f n opened closed located known found declares performs leaves =>
    have opens : p.NoFewer opened := by
      rcases declares with rfl | ⟨u, declares⟩
      · exact fun _ => Nat.le_refl _
      · exact declareAt_noFewer M declares
    have closes : closed.NoFewer q := by
      rcases leaves with rfl | leaves
      · exact fun _ => Nat.le_refl _
      · exact noFewer_of_tally (((upkeep_tally closed.tally).operates.leave trivial
          ⟨fun _ same => same, fun same _ => same⟩ _ _ _).ends rfl leaves).1
    obtain ⟨whole, each⟩ := chain_noFewer performs
    exact ⟨(opens.trans whole).trans closes, fun d performed => (each d performed).trans closes⟩

structure Ascending (p : Path) (deeds : List Performed) : Prop where
  later : ∀ d ∈ deeds, p.NoFewer d.before
  ordered : deeds.Pairwise fun d e => d.after.NoFewer e.before

theorem ascending_nil (p : Path) : Ascending p [] := ⟨by simp, .nil⟩

theorem Ascending.after (ascending : Ascending q deeds) (before : p.NoFewer q) : Ascending p deeds :=
  ⟨fun d performed => before.trans (ascending.later d performed), ascending.ordered⟩

theorem performedFrom_ascending (loc : Location) (instructions : List Instruction) (p : Path) :
    Ascending p (M.performedFrom loc instructions p) := by
  induction instructions generalizing loc p with
  | nil => exact ascending_nil p
  | cons i rest ih =>
    rw [performedFrom]
    split
    · rename_i q runs
      have rest := ih loc.next q
      refine ⟨forall_mem_cons.mpr ⟨fun _ => Nat.le_refl _, ?_⟩, .cons rest.later rest.ordered⟩
      exact (rest.after (exec_noFewer runs)).later
    · exact ⟨forall_mem_singleton.mpr fun _ => Nat.le_refl _, pairwise_singleton _ _⟩
    · exact ascending_nil p

theorem performedIn_ascending (p : Path) : Ascending p (M.performedIn p) := by
  unfold performedIn
  split
  · exact ascending_nil p
  · split
    · exact ascending_nil p
    · unfold performedAt
      split
      · exact ascending_nil p
      · split
        · rename_i declares
          exact (performedFrom_ascending _ _ _).after (declareAt_noFewer M declares)
        · exact ascending_nil p

theorem go_noFewer (p : Path) (way : Successor) : p.NoFewer (p.go way) := by
  refine noFewer_of_tally ?_
  rw [Path.go_eq]
  rfl

theorem performedOn_ascending (beyond : Bool) (n : Nat) (choices : List Nat) (p : Path) :
    Ascending p (M.performedOn beyond n choices p) := by
  induction n generalizing choices p with
  | zero => exact ascending_nil p
  | succ n ih =>
    unfold performedOn
    obtain ⟨stride, rfl, strides | ⟨ways, q, way, runs, among, strides⟩⟩ := walk_succ beyond n choices p
    · rw [strides, flatMap_singleton]
      exact performedIn_ascending stride.before
    · rw [strides]
      have here := performedIn_ascending (M := M) stride.before
      have rest := (ih choices.tail (q.go way)).after (go_noFewer q way)
      obtain ⟨steps, ends⟩ := step_noFewer runs
      refine ⟨forall_mem_append.mpr ⟨here.later, (rest.after steps).later⟩, ?_⟩
      exact pairwise_append.mpr
        ⟨here.ordered, rest.ordered, fun d first e second => (ends d first).trans (rest.later e second)⟩

theorem highLevelCall_cases {destination : Operand} {callee : CallSignature} {arguments : List Operand}
    {target : Option Variable} {u : Unit} (runs : Runs (M.highLevelCall destination callee arguments target) p u q) :
    ∃ receiver read number noted put pinned, Runs (M.termOf destination) p receiver read ∧
      noteCall read receiver.nameHint callee.name = (number, noted) ∧ Runs (M.deferReceiver receiver) noted () put ∧
      (match if M.tracking.callArgs then put.callArgsTracked.get? callee.name else none with
        | some indices => Runs (M.pinCallArgs callee number arguments indices.toList) put () pinned
        | none => pinned = put) ∧
      Runs (match target with
        | none => pure ()
        | some t => do
          M.recordOperands t (destination :: arguments)
          pinReturn callee (← redefine t)) pinned () q := by
  obtain ⟨receiver, read, reads, runs⟩ := runs.of_bind
  obtain ⟨number, noted, notes, runs⟩ := runs.of_bind
  obtain ⟨_, put, defers, runs⟩ := runs.of_bind
  have notes := runs_modifyGet.mp notes
  dsimp only at runs
  split at runs
  · rename_i asks
    obtain ⟨_, _, gets, runs⟩ := runs.of_bind
    obtain ⟨rfl, rfl⟩ := runs_get.mp gets
    split at runs
    · rename_i indices asked
      obtain ⟨_, pinned, pins, runs⟩ := runs.of_bind
      exact ⟨receiver, read, number, noted, put, pinned, reads, notes, defers, by rwa [if_pos asks, asked], runs⟩
    · rename_i unasked
      exact ⟨receiver, read, number, noted, put, put, reads, notes, defers, by rw [if_pos asks, unasked], runs⟩
  · rename_i unasked
    exact ⟨receiver, read, number, noted, put, put, reads, notes, defers, by rw [if_neg unasked], runs⟩

def callsOnOf (M : Machine) (f : String) (beyond : Bool) (n : Nat) (choices : List Nat) (p : Path) : List Performed :=
  (M.performedOn beyond n choices p).filter fun d => d.instruction.calledName? == some f

theorem callsOnOf_numbered (f : String) (beyond : Bool) (n : Nat) (choices : List Nat) (p : Path) :
    (M.callsOnOf f beyond n choices p).Pairwise fun d e => d.before.timesCalled f < e.before.timesCalled f := by
  have ordered := (performedOn_ascending (M := M) beyond n choices p).ordered.filter
    fun d => d.instruction.calledName? == some f
  refine ordered.imp_of_mem fun {d e} first _ onward => ?_
  obtain ⟨performed, calls⟩ := mem_filter.mp first
  obtain ⟨loc, result, runs⟩ := performedOn_runs performed
  have counts := exec_timesCalled runs f
  rw [if_pos (beq_iff_eq.mp calls)] at counts
  have after := onward f
  omega

end Machine

end TokenAudit
