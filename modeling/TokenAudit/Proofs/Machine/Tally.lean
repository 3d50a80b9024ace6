import Mathlib.Data.List.Basic
import TokenAudit.Proofs.Machine.Deeds
import TokenAudit.Proofs.Machine.Ledger

/-!
# The tally of a path

A path counts the calls of functions of other contracts, and it keeps the names of the functions that were called or
entered.
-/

namespace TokenAudit

open List

structure Tally where
  counts : Table String Nat
  functions : OrdSet String

def Path.tally (p : Path) : Tally := ⟨p.callCounts, p.calledFunctions⟩

structure Standing where
  tally : Tally
  links : Table VarId IndexLink

def Path.standing (p : Path) : Standing := ⟨p.tally, p.links⟩

namespace Machine

open Upkeep

variable {M : Machine} {p q : Path} (instructions : List Instruction) (t : Tally) {i : Instruction}

def enteredName? (M : Machine) (i : Instruction) : Option String :=
  (M.callee? i).bind fun callee => (M.program.function? callee).map Function.name

def tallied (M : Machine) (t : Tally) (i : Instruction) : Tally :=
  match i.calledName? with
  | some f => ⟨t.counts.insert f (t.counts.getD f 0 + 1), t.functions.insert f⟩
  | none =>
    match M.enteredName? i with
    | some f => { t with functions := t.functions.insert f }
    | none => t

theorem upkeep_standing (J : Standing → Prop) : Upkeep M (fun p => J p.standing) Any Any Any Any where
  terms := by constructor <;> intros <;> trivial
  pinned _ _ _ := trivial
  value _ _ := Value.all_true _
  assume inv _ := inv
  bind inv _ _ := inv
  redefine inv _ := ⟨inv, Value.all_true _⟩
  read {p v} inv _ := by
    have record := congrArg Path.standing (read_record p M.contract v)
    exact ⟨(congrArg J record).mpr inv, Value.all_true _⟩
  sender := trivial
  depend _ _ inv := inv
  mark operand inv _ := by
    obtain ⟨used, log, marked⟩ := markUsedInCheck_log _ operand
    rw [marked]
    exact inv
  noteWrite {p i name _} inv found count _ := by
    obtain ⟨written, counts, log, noted⟩ := Path.noteWrite_log p i name count
    rw [noted]
    exact inv
  noteEmission {p i name _} inv found _ := by
    obtain ⟨emitted, counts, log, noted⟩ := Path.noteEmission_log p i name
    rw [noted]
    exact inv
  defer inv _ _ := inv
  root _ _ inv _ := inv
  result _ inv _ _ := inv

theorem upkeep_tally : Upkeep M (fun p => p.tally = t) Any Any Any Any :=
  upkeep_standing fun standing => standing.tally = t

theorem callee_of_called {f : String} (calls : i.calledName? = some f) : M.callee? i = none := by
  cases i with
  | highLevelCall destination callee arguments target => rfl
  | _ => cases calls

theorem noteCall_tally (p : Path) (receiver name : String) : (noteCall p receiver name).2.tally =
    ⟨p.tally.counts.insert name (p.tally.counts.getD name 0 + 1), p.tally.functions.insert name⟩ := by
  obtain ⟨log, noted⟩ := Path.noteCall_log p receiver name
  rw [noted]
  rfl

theorem exec_tally {loc : Location} {result : Option (List Successor)}
    (runs : Runs (M.exec loc i) p result q) : q.tally = M.tallied p.tally i := by
  unfold tallied
  cases calls : i.calledName? with
  | some f =>
    cases i with
    | highLevelCall destination callee arguments target =>
      cases calls
      obtain ⟨_, _, performs, ends⟩ := runs.of_bind
      obtain ⟨_, rfl⟩ := runs_pure.mp ends
      obtain ⟨receiver, r, reads, performs⟩ := performs.of_bind
      obtain ⟨occurrence, s, notes, performs⟩ := performs.of_bind
      have same : r.tally = p.tally := (((upkeep_tally _).operates.termOf fun _ _ => trivial).ends rfl reads).1
      have noted := noteCall_tally r receiver.nameHint callee.name
      rw [runs_modifyGet.mp notes, same] at noted
      exact (((upkeep_tally _).operates.called occurrence trivial trivial (fun _ _ => trivial) fun _ _ =>
        trivial).ends noted performs).1
    | _ => cases calls
  | none =>
    cases enters : M.callee? i with
    | some callee =>
      rw [exec_call enters] at runs
      unfold enter at runs
      split at runs
      · exact (runs_throw runs).elim
      · rename_i f known
        have named : M.enteredName? i = some f.name := by simp [enteredName?, enters, known]
        rw [named]
        obtain ⟨_, r, visits, runs⟩ := runs.of_bind
        have visited : r.tally = { p.tally with functions := p.tally.functions.insert f.name } := by
          rw [← runs_modify.mp visits]
          rfl
        exact (((upkeep_tally _).operates.entered loc callee (fun _ same => same) (fun _ _ _ => trivial)
          (fun _ _ => trivial) fun _ _ => trivial).ends visited runs).1
    | none =>
      have unnamed : M.enteredName? i = none := by simp [enteredName?, enters]
      rw [unnamed]
      have admits : Admits M (·.tally = p.tally) Any Any Any loc i := by
        refine allows_any (fun _ _ same => same) ?_ fun callee f found => ?_
        · rintro _ _ _ _ rfl
          cases calls
        · rw [enters] at found
          cases found
      exact (((upkeep_tally p.tally).keeps_exec admits).ends rfl runs).1

theorem chain_tally {deeds : List Performed} (chain : Chain M deeds p q) :
    q.tally = (deeds.map Performed.instruction).foldl M.tallied p.tally := by
  induction chain with
  | done p => rfl
  | deed runs rest ih =>
    rw [map_cons, foldl_cons, ← exec_tally runs]
    exact ih

def instructionsIn (M : Machine) (p : Path) : List Instruction := (M.performedIn p).map Performed.instruction

theorem step_tally {ways : List Successor} (runs : Runs M.step p ways q) :
    q.tally = (M.instructionsIn p).foldl M.tallied p.tally := by
  cases step_stepped runs with
  | @through loc f n opened closed located known found declares performs leaves =>
    have same : opened.tally = p.tally := by
      rcases declares with rfl | ⟨u, declares⟩
      · rfl
      · have opening : (counted p).tally = p.tally := rfl
        exact (((upkeep_tally (M := M) _).operates.declared fun _ _ _ _ => trivial).ends opening declares).1
    have performed := chain_tally performs
    rw [same] at performed
    rcases leaves with rfl | leaves
    · exact performed
    · exact (((upkeep_tally _).operates.leave trivial ⟨fun _ same => same, fun same _ => same⟩ _ _ _).ends performed
        leaves).1

theorem counts_tallied (i : Instruction) (f : String) :
    0 < (M.tallied t i).counts.getD f 0 ↔ 0 < t.counts.getD f 0 ∨ i.calledName? = some f := by
  unfold tallied
  cases calls : i.calledName? with
  | some g =>
    rw [Option.some.injEq, eq_comm]
    exact Path.counts_insert t.counts g f
  | none =>
    cases M.enteredName? i <;> simp

theorem functions_tallied (i : Instruction) (f : String) : f ∈ (M.tallied t i).functions.toList ↔
    f ∈ t.functions.toList ∨ i.calledName? = some f ∨ M.enteredName? i = some f := by
  have inserts (g : String) : f ∈ (t.functions.insert g).toList ↔ f ∈ t.functions.toList ∨ g = f := by
    rw [or_comm, eq_comm]
    exact OrdSet.mem_insertInto g f t.functions.toList
  unfold tallied
  cases calls : i.calledName? with
  | some g =>
    have stays : M.enteredName? i = none := by rw [enteredName?, callee_of_called calls, Option.bind_none]
    simp [inserts, stays]
  | none =>
    cases M.enteredName? i with
    | some g => simp [inserts]
    | none => simp

theorem counts_foldl (f : String) : 0 < (instructions.foldl M.tallied t).counts.getD f 0 ↔
      0 < t.counts.getD f 0 ∨ ∃ i ∈ instructions, i.calledName? = some f := by
  induction instructions generalizing t with
  | nil => simp
  | cons i rest ih => rw [foldl_cons, ih, counts_tallied, exists_mem_cons_iff, or_assoc]

theorem functions_foldl (f : String) : f ∈ (instructions.foldl M.tallied t).functions.toList ↔ f ∈ t.functions.toList ∨
      ∃ i ∈ instructions, i.calledName? = some f ∨ M.enteredName? i = some f := by
  induction instructions generalizing t with
  | nil => simp
  | cons i rest ih => rw [foldl_cons, ih, functions_tallied, exists_mem_cons_iff, or_assoc]

end Machine

end TokenAudit
