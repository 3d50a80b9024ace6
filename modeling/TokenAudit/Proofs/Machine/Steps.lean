import TokenAudit.Machine.Walk
import TokenAudit.Proofs.Machine.Changes

/-!
# What a step can do

A step runs the instructions of a node up to one that ends the run, and leaves the node (`Left`) when none does.
Later modules reason about steps from these statements alone:
-/

namespace TokenAudit

open List

/-- A path that goes a way keeps everything but its place and its constraints. -/
theorem Path.go_eq (p : Path) (way : Successor) :
    p.go way = { p with location := way.next?, constraints := (p.go way).constraints } := by
  unfold go assumeEdge
  split <;> rfl

namespace Machine

variable {K : Part → Prop} {M : Machine} {loc : Location} {instructions : List Instruction} {p q : Path}
  {ways : List Successor} {fn : FnId} {f : Function} {n : Node} {R : Path → Path → Prop}

theorem execAll_changes (runs : Runs (M.execAll loc instructions) p none q) :
    Changes (fun part => ∃ i ∈ instructions, part ∈ i.touches) p q := by
  induction instructions generalizing loc p with
  | nil =>
    obtain ⟨_, rfl⟩ := runs_pure.mp runs
    exact .refl
  | cons i rest ih =>
    obtain ⟨result, r, executes, runs⟩ := runs.of_bind
    cases result with
    | some ways => cases (runs_pure.mp runs).1
    | none =>
      have first := (exec_executed executes).changes
      refine Relation.ReflTransGen.trans (first.mono fun part touched => ?_) ((ih runs).mono fun part touched => ?_)
      · exact ⟨i, mem_cons_self .., touched⟩
      · obtain ⟨j, member, touched⟩ := touched
        exact ⟨j, mem_cons_of_mem i member, touched⟩

theorem execAll_ends (runs : Runs (M.execAll loc instructions) p (some ways) q) :
    ∃ before i rest r, instructions = before ++ i :: rest ∧ Runs (M.execAll loc before) p none r ∧
      Executed M { loc with offset := loc.offset + before.length } i r (some ways) q := by
  induction instructions generalizing loc p with
  | nil => cases (runs_pure.mp runs).1
  | cons i rest ih =>
    obtain ⟨result, r, executes, runs⟩ := runs.of_bind
    cases result with
    | some found =>
      obtain ⟨same, rfl⟩ := runs_pure.mp runs
      cases same
      exact ⟨[], i, rest, p, rfl, runs_pure.mpr ⟨rfl, rfl⟩, exec_executed executes⟩
    | none =>
      obtain ⟨before, j, later, s, rfl, passes, executed⟩ := ih runs
      refine ⟨i :: before, j, later, s, rfl, runs_bind.mpr ⟨none, r, executes, passes⟩, ?_⟩
      have place : loc.offset + (i :: before).length = loc.offset + 1 + before.length := by
        simp only [length_cons]
        omega
      rw [place]
      exact executed

/-- What leaving the node `n` makes of the path `p`, and the ways out of it. -/
inductive Left (fn : FnId) (f : Function) (n : Node) (p : Path) : List Successor → Path → Prop
  | forked {q : Path} (cond : Term) (whenTrue whenFalse : Option Nat) (counts : Table LoopHead Nat)
      (changes : Changes (· = .checks) p q) (edges : whenTrue.toList ++ whenFalse.toList ⊆ n.edges) :
      Left fn f n p
        (whenTrue.toList.map (fun s => .goto (.start fn s) (some cond)) ++
          whenFalse.toList.map fun s => .goto (.start fn s) (some (Term.mkNot cond)))
        { q with loopCounts := counts }
  | fannedOut (branching : n.isBranching = true)
      (unconditional : ∀ value, n.instructions.getLast? ≠ some (.condition value)) :
      Left fn f n p (fanOut fn f n) p
  | passedOn (son : Nat) (edge : son ∈ n.edges) : Left fn f n p [.goto (.start fn son) none] p
  | returned {frame : Frame} {rest : List Frame} (stack : p.stack = frame :: rest) :
      Left fn f n p [.goto frame.returnTo none] { p with stack := rest }
  | finished : Left fn f n p [.finish] p

theorem conditionTerm_unchanged {operand : Operand} {t : Term} (runs : Runs (conditionTerm operand) p t q) : p = q := by
  unfold conditionTerm at runs
  split at runs
  · exact (runs_pure.mp runs).2
  · obtain ⟨_, r, reads, runs⟩ := runs.of_bind
    obtain ⟨rfl, rfl⟩ := runs_get.mp reads
    split at runs
    · exact (runs_single.mp runs).2
    · exact (runs_throw runs).elim

theorem branches_edges (n : Node) : (branches n).1.toList ++ (branches n).2.toList ⊆ n.edges := by
  intro s among
  rw [mem_append, Option.mem_toList, Option.mem_toList] at among
  unfold branches at among
  unfold Node.edges
  rw [mem_append, mem_append, Option.mem_toList, Option.mem_toList]
  split at among
  · exact .inl (.inl (among.elim mem_of_getElem? mem_of_getElem?))
  · exact among.imp .inr id

theorem branch_left {condition : Operand} (runs : Runs (M.branch fn f n condition) p ways q) :
    Left fn f n p ways q := by
  obtain ⟨t, r, reads, runs⟩ := runs.of_bind
  obtain ⟨cond, s, truth, runs⟩ := runs.of_bind
  obtain rfl := conditionTerm_unchanged reads
  obtain ⟨_, rfl⟩ := runs_sorted.mp truth
  have goes : ∀ {r : Path} (takeTrue : Bool) (counts : Table LoopHead Nat), Changes (· = .checks) p r →
      Runs (pure ((if takeTrue then (branches n).1.toList else []).map
          (fun s => Successor.goto (.start fn s) (some cond)) ++
        (branches n).2.toList.map fun s => Successor.goto (.start fn s) (some (Term.mkNot cond))))
        { r with loopCounts := counts } ways q → Left fn f n p ways q := by
    intro r takeTrue counts changes ends
    obtain ⟨rfl, rfl⟩ := runs_pure.mp ends
    cases takeTrue with
    | true => exact .forked cond _ _ counts changes (branches_edges n)
    | false =>
      exact .forked cond none _ counts changes (List.Subset.trans (subset_append_right _ _) (branches_edges n))
  -- a loop head counts the passage, any other node does nothing
  have passes : ∀ {r : Path}, Changes (· = .checks) p r → Runs (do
      let takeTrue ← if n.kind == .ifLoop then M.countLoop ⟨fn, n.id⟩ else pure true
      let goTrue := if takeTrue then (branches n).1.toList else []
      pure (goTrue.map (fun s => Successor.goto (.start fn s) (some cond)) ++
        (branches n).2.toList.map fun s => Successor.goto (.start fn s) (some (Term.mkNot cond)))) r ways q →
      Left fn f n p ways q := by
    intro r changes runs
    split at runs
    · obtain ⟨takeTrue, s, counts, ends⟩ := runs.of_bind
      simp only [countLoop, runs_bind, runs_get, runs_modify, runs_pure] at counts
      obtain ⟨_, _, ⟨rfl, rfl⟩, _, _, rfl, _, rfl⟩ := counts
      exact goes takeTrue _ changes ends
    · exact goes true r.loopCounts changes runs
  dsimp only at runs
  split at runs
  · obtain ⟨_, r, marks, runs⟩ := runs.of_bind
    have marked := markUsedInCheck_changes (K := (· = .checks)) p rfl condition
    rw [runs_modify.mp marks] at marked
    exact passes marked runs
  · exact passes .refl runs

theorem leave_left (runs : Runs (M.leave fn f n) p ways q) : Left fn f n p ways q := by
  unfold leave at runs
  split at runs
  · rename_i branching
    split at runs
    · exact branch_left runs
    · rename_i unconditional
      obtain ⟨rfl, rfl⟩ := runs_pure.mp runs
      exact .fannedOut branching unconditional
  · unfold leaveStraight at runs
    split at runs
    · rename_i son rest sons
      obtain ⟨rfl, rfl⟩ := runs_pure.mp runs
      exact .passedOn son (by simp [Node.edges, sons])
    · obtain ⟨_, r, reads, runs⟩ := runs.of_bind
      obtain ⟨rfl, rfl⟩ := runs_get.mp reads
      split at runs
      · rename_i frame rest stack
        obtain ⟨_, r, pops, ends⟩ := runs.of_bind
        obtain ⟨rfl, rfl⟩ := runs_pure.mp ends
        rw [← runs_modify.mp pops]
        exact .returned stack
      · obtain ⟨rfl, rfl⟩ := runs_pure.mp runs
        exact .finished

theorem Left.lift [Std.Refl R] [Trans R R R] (holds : ∀ p q, Change (· = .checks) p q → R p q)
    (stack : ∀ (p : Path) frames, R p { p with stack := frames })
    (loops : ∀ (p : Path) counts, R p { p with loopCounts := counts }) (left : Left fn f n p ways q) : R p q := by
  cases left with
  | forked cond whenTrue whenFalse counts changes => exact Trans.trans (changes.lift holds) (loops _ counts)
  | fannedOut branching unconditional | passedOn son | finished => exact Std.Refl.refl p
  | returned pending => exact stack p _

def counted (p : Path) : Path := { p with steps := p.steps + 1 }

/-- The node at `loc` is run to its end: it does not throw, and none of its instructions ends the run. -/
def RunsOut (M : Machine) (loc : Location) (n : Node) (p q : Path) : Prop :=
  n.kind ≠ .throw ∧ ∃ u r, Runs (declareAt n loc.offset) (counted p) u r ∧
    Runs (M.execAll loc (n.instructions.drop loc.offset)) r none q

theorem runNode_runs (runs : Runs (M.runNode loc f n) p ways q) :
    (n.kind = .throw ∧ ways = [.throws none] ∧ q = counted p) ∨
      (∃ u r, n.kind ≠ .throw ∧ Runs (declareAt n loc.offset) (counted p) u r ∧
        Runs (M.execAll loc (n.instructions.drop loc.offset)) r (some ways) q) ∨
      ∃ r, M.RunsOut loc n p r ∧ Runs (M.leave loc.function f n) r ways q := by
  obtain ⟨_, r, counts, runs⟩ := runs.of_bind
  have counts : counted p = r := runs_modify.mp counts
  subst counts
  split at runs
  · rename_i throws
    obtain ⟨rfl, rfl⟩ := runs_pure.mp runs
    exact .inl ⟨beq_iff_eq.mp throws, rfl, rfl⟩
  · rename_i passable
    have passable : n.kind ≠ .throw := fun throws => passable (beq_iff_eq.mpr throws)
    obtain ⟨u, r, declares, runs⟩ := runs.of_bind
    obtain ⟨result, s, executes, runs⟩ := runs.of_bind
    cases result with
    | some found =>
      obtain ⟨rfl, rfl⟩ := runs_pure.mp runs
      exact .inr (.inl ⟨u, r, passable, declares, executes⟩)
    | none => exact .inr (.inr ⟨s, ⟨passable, u, r, declares, executes⟩, runs⟩)

theorem runNode_cases (runs : Runs (M.runNode loc f n) p ways q) :
    (n.kind = .throw ∧ ways = [.throws none] ∧ q = counted p) ∨
      ∃ u r, n.kind ≠ .throw ∧ Runs (declareAt n loc.offset) (counted p) u r ∧
        (Runs (M.execAll loc (n.instructions.drop loc.offset)) r (some ways) q ∨
          ∃ s, Runs (M.execAll loc (n.instructions.drop loc.offset)) r none s ∧
            Left loc.function f n s ways q) := by
  rcases runNode_runs runs with throws | ⟨u, r, passable, declares, ends⟩ | ⟨s, ⟨passable, u, r, declares, out⟩, leaves⟩
  · exact .inl throws
  · exact .inr ⟨u, r, passable, declares, .inl ends⟩
  · exact .inr ⟨u, r, passable, declares, .inr ⟨s, out, leave_left leaves⟩⟩

theorem step_cases (runs : Runs M.step p ways q) :
    ∃ loc f n, p.location = some loc ∧ M.program.function? loc.function = some f ∧
      f.node? loc.node = some n ∧ Runs (M.runNode loc f n) p ways q := by
  obtain ⟨_, r, reads, runs⟩ := runs.of_bind
  obtain ⟨rfl, rfl⟩ := runs_get.mp reads
  split at runs
  · exact (runs_throw runs).elim
  · rename_i loc located
    split at runs
    · exact (runs_throw runs).elim
    · rename_i f known
      split at runs
      · exact (runs_throw runs).elim
      · rename_i n found
        exact ⟨loc, f, n, located, known, found, runs⟩

/-- A relation that holds of every change, and whatever becomes of the step count, the pending calls and the
loop counts, holds of every step. -/
theorem step_always [Std.Refl R] [Trans R R R] (changes : ∀ K p q, Change K p q → R p q)
    (steps : ∀ (p : Path) n, R p { p with steps := n }) (stack : ∀ (p : Path) frames, R p { p with stack := frames })
    (loops : ∀ (p : Path) counts, R p { p with loopCounts := counts }) : Always R M.step := by
  intro p ways q runs
  obtain ⟨loc, f, n, _, _, _, runs⟩ := step_cases runs
  rcases runNode_cases runs with ⟨_, _, rfl⟩ | ⟨_, r, _, declares, ends⟩
  · exact steps p _
  have before : R p r := Trans.trans (steps p _)
    (Changes.lift (changes _) (declareAt_changes (K := fun _ => False) M _ _ declares))
  rcases ends with executes | ⟨s, executes, left⟩
  · obtain ⟨_, i, _, s, _, passes, executed⟩ := execAll_ends executes
    have before : R p s := Trans.trans before (Changes.lift (changes _) (execAll_changes passes))
    exact Trans.trans before (executed.lift (changes _) stack)
  · have before : R p s := Trans.trans before (Changes.lift (changes _) (execAll_changes executes))
    exact Trans.trans before (left.lift (changes _) stack loops)

end Machine

end TokenAudit
