import TokenAudit.Proofs.Machine.Steps

/-!
# Steps without a way on

A node that branches without a condition leads to those of its sons that do not join the ways again, and the head of a
loop that was passed too often leads to its false branch alone.
-/

namespace TokenAudit

/-- No way leads out of the node, where `spent` says that it was passed too often. -/
inductive Node.DeadEnd (f : Function) (n : Node) (spent : Prop) : Prop
  | joined (branching : n.isBranching = true)
      (unconditional : ∀ value, n.instructions.getLast? ≠ some (.condition value))
      (joins : ∀ s ∈ n.sons, 3 ≤ n.sons.length ∧ (f.node? s).map Node.kind = some .endIf) : DeadEnd f n spent
  | endless {value : Operand} (branching : n.isBranching = true)
      (conditional : n.instructions.getLast? = some (.condition value)) (loop : n.kind = .ifLoop)
      (enters : n.sonTrue ≠ none) (stays : n.sonFalse = none) (passed : spent) : DeadEnd f n spent

namespace Machine

variable {M : Machine} {fn : FnId} {f : Function} {n : Node} {p q : Path} {ways : List Successor} {condition : Operand}

theorem fanOut_eq_nil :
    fanOut fn f n = [] ↔ ∀ s ∈ n.sons, 3 ≤ n.sons.length ∧ (f.node? s).map Node.kind = some .endIf := by
  have kinds (s : Nat) : ((f.node? s).map (·.kind == .endIf)).getD false = true ↔
      (f.node? s).map Node.kind = some .endIf := by
    cases f.node? s <;> simp
  simp [fanOut, List.filter_eq_nil_iff, kinds]

theorem branches_false_eq_none (branching : n.isBranching = true) :
    (branches n).2 = none ↔ n.sonTrue ≠ none ∧ n.sonFalse = none := by
  unfold Node.isBranching at branching
  unfold branches
  cases whenTrue : n.sonTrue <;> cases whenFalse : n.sonFalse <;> simp_all

theorem branches_true {s : Nat} (named : n.sonTrue = some s) : (branches n).1 = some s := by
  simp [branches, named]

theorem countLoop_taken {head : LoopHead} {taken : Bool} (runs : Runs (M.countLoop head) p taken q) :
    taken = false ↔ M.config.loopBound < q.loopCounts.getD head 0 := by
  obtain ⟨_, _, ⟨rfl, rfl⟩, _, _, rfl, rfl, rfl⟩ := runs
  rw [decide_eq_false_iff_not]
  simp [Table.getD]

def waysOn (fn : FnId) (n : Node) (cond : Term) (takeTrue : Bool) : List Successor :=
  (if takeTrue then (branches n).1.toList else []).map (fun s => .goto (.start fn s) (some cond)) ++
    (branches n).2.toList.map fun s => .goto (.start fn s) (some (Term.mkNot cond))

def conditionOn? (p : Path) (condition : Operand) : Option Term :=
  match condition with
  | .const c => (Term.truthy c.term).toOption
  | .var v =>
    match p.bindings.get? v.id with
    | some (.term t) => (Term.truthy t).toOption
    | _ => none

theorem conditionOn?_of_runs {t cond : Term} (reads : Runs (conditionTerm condition) p t q)
    (truth : Term.truthy t = .ok cond) : conditionOn? p condition = some cond := by
  cases condition with
  | const c =>
    obtain ⟨rfl, _⟩ := runs_pure.mp reads
    simp [conditionOn?, truth, Except.toOption]
  | var v =>
    obtain ⟨_, r, looks, reads⟩ := reads.of_bind
    obtain ⟨rfl, rfl⟩ := runs_get.mp looks
    cases bound : p.bindings.get? v.id with
    | none => simp [bound] at reads
    | some value =>
      simp only [bound, runs_single] at reads
      simp [conditionOn?, bound, reads.1, truth, Except.toOption]

theorem branch_ways (runs : Runs (M.branch fn f n condition) p ways q) :
    ∃ cond takeTrue, conditionOn? q condition = some cond ∧ ways = waysOn fn n cond takeTrue ∧
      (takeTrue = false ↔ n.kind = .ifLoop ∧ M.config.loopBound < q.loopCounts.getD ⟨fn, n.id⟩ 0) ∧
      q.loopCounts = if n.kind = .ifLoop then
        p.loopCounts.insert ⟨fn, n.id⟩ (p.loopCounts.getD ⟨fn, n.id⟩ 0 + 1) else p.loopCounts := by
  obtain ⟨t, r, reads, runs⟩ := runs.of_bind
  obtain ⟨cond, s, truth, runs⟩ := runs.of_bind
  obtain rfl := conditionTerm_unchanged reads
  obtain ⟨built, rfl⟩ := runs_sorted.mp truth
  have told := conditionOn?_of_runs reads built
  -- marking what the condition names changes neither its truth nor the counts
  obtain ⟨used, log, runs⟩ : ∃ used log, Runs (do
      let takeTrue ← if n.kind == .ifLoop then M.countLoop ⟨fn, n.id⟩ else pure true
      pure (waysOn fn n cond takeTrue)) { p with usedInCheck := used, constraints := log } ways q := by
    dsimp only at runs
    split at runs
    · obtain ⟨_, r, marks, runs⟩ := runs.of_bind
      obtain ⟨used, log, marked⟩ := markUsedInCheck_log p condition
      rw [runs_modify, marked] at marks
      exact ⟨used, log, marks ▸ runs⟩
    · exact ⟨_, _, runs⟩
  split at runs
  · rename_i loop
    have loop : n.kind = .ifLoop := beq_iff_eq.mp loop
    obtain ⟨takeTrue, s, counts, ends⟩ := runs.of_bind
    obtain ⟨rfl, rfl⟩ := runs_pure.mp ends
    refine ⟨cond, takeTrue, ?_, rfl, by simp [countLoop_taken counts, loop], ?_⟩ <;>
      obtain ⟨_, _, ⟨rfl, rfl⟩, _, _, rfl, _, rfl⟩ := counts
    · exact told
    · rw [if_pos loop]
  · rename_i other
    have other : n.kind ≠ .ifLoop := fun loop => other (beq_iff_eq.mpr loop)
    obtain ⟨rfl, rfl⟩ := runs_pure.mp runs
    exact ⟨cond, true, told, rfl, by simp [other], (if_neg other).symm⟩

theorem leave_eq_nil (runs : Runs (M.leave fn f n) p ways q) :
    ways = [] ↔ n.DeadEnd f (M.config.loopBound < q.loopCounts.getD ⟨fn, n.id⟩ 0) := by
  unfold leave at runs
  split at runs
  · rename_i branching
    split at runs
    · rename_i value conditional
      obtain ⟨cond, takeTrue, _, rfl, spent, _⟩ := branch_ways runs
      simp only [waysOn, List.append_eq_nil_iff, List.map_eq_nil_iff, Option.toList_eq_nil_iff,
        branches_false_eq_none branching]
      constructor
      · rintro ⟨noTrue, enters, stays⟩
        cases takeTrue with
        | false => exact .endless branching conditional (spent.mp rfl).1 enters stays (spent.mp rfl).2
        | true =>
          obtain ⟨s, named⟩ := Option.ne_none_iff_exists'.mp enters
          simp [branches_true named] at noTrue
      · intro blocked
        cases blocked with
        | joined _ unconditional => exact absurd conditional (unconditional value)
        | endless _ _ loop enters stays passed =>
          rw [spent.mpr ⟨loop, passed⟩]
          exact ⟨rfl, enters, stays⟩
    · rename_i unconditional
      obtain ⟨rfl, rfl⟩ := runs_pure.mp runs
      rw [fanOut_eq_nil]
      constructor
      · exact fun joins => .joined branching unconditional joins
      · intro blocked
        cases blocked with
        | joined _ _ joins => exact joins
        | endless _ conditional => exact absurd conditional (unconditional _)
  · rename_i straight
    have some : ways ≠ [] := by
      unfold leaveStraight at runs
      split at runs
      · cases (runs_pure.mp runs).1
        simp
      · obtain ⟨_, r, reads, runs⟩ := runs.of_bind
        split at runs
        · obtain ⟨_, r, pops, ends⟩ := runs.of_bind
          cases (runs_pure.mp ends).1
          simp
        · cases (runs_pure.mp runs).1
          simp
    refine ⟨fun none => absurd none some, fun blocked => ?_⟩
    cases blocked <;> exact absurd ‹n.isBranching = true› straight

theorem Executed.ways_ne_nil {loc : Location} {i : Instruction} (executed : Executed M loc i p (some ways) q) :
    ways ≠ [] := by
  cases executed <;> simp

/-- A step gives no way exactly where it runs a node to its end that no way leads out of. -/
theorem step_dead_end_iff (runs : Runs M.step p ways q) : ways = [] ↔
    ∃ loc f n r, p.location = some loc ∧ M.program.function? loc.function = some f ∧ f.node? loc.node = some n ∧
      M.RunsOut loc n p r ∧ n.DeadEnd f (M.config.loopBound < q.loopCounts.getD ⟨loc.function, n.id⟩ 0) := by
  obtain ⟨loc, f, n, located, known, found, runs⟩ := step_cases runs
  constructor
  · rintro rfl
    rcases runNode_runs runs with ⟨_, impossible, _⟩ | ⟨_, _, _, _, ends⟩ | ⟨r, out, leaves⟩
    · cases impossible
    · obtain ⟨_, _, _, _, _, _, executed⟩ := execAll_ends ends
      exact absurd rfl executed.ways_ne_nil
    · exact ⟨loc, f, n, r, located, known, found, out, (leave_eq_nil leaves).mp rfl⟩
  · rintro ⟨loc', f', n', r, located', known', found', ⟨passable, u, s, declares, out⟩, blocked⟩
    cases located.symm.trans located'
    cases known.symm.trans known'
    cases found.symm.trans found'
    rcases runNode_runs runs with ⟨throws, _⟩ | ⟨_, _, _, declares', ends⟩ | ⟨_, _, leaves⟩
    · exact absurd throws passable
    · obtain ⟨_, rfl⟩ := declares.unique declares'
      cases (out.unique ends).1
    · exact (leave_eq_nil leaves).mpr blocked

end Machine

end TokenAudit
