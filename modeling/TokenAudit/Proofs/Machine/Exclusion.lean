import TokenAudit.Machine.Walk
import TokenAudit.Proofs.Machine.Steps

/-!
# Paths that exclude each other

A step only adds to the log of a path, and the conditions of the ways it opens cannot hold together, unless a node
branches without a condition.
-/

namespace TokenAudit

open List

theorem Env.holds_mkNot {E : Env} {t : Term} : E.Holds (Term.mkNot t) ↔ ¬ E.Holds t := by
  unfold Env.Holds Term.mkNot
  split
  · rename_i b
    cases b <;> simp [Term.eval]
  · simp [Term.eval]
  · simp [Term.eval]

namespace Path

variable {p q r : Path} {E : Env}

def Adds (p q : Path) : Prop := p.constraints.latestFirst <:+ q.constraints.latestFirst

def Excludes (p q : Path) : Prop := ∀ E : Env, ¬ (E.Satisfies p.constraints ∧ E.Satisfies q.constraints)

instance : Std.Refl Adds := ⟨fun _ => suffix_refl _⟩

instance : Trans Adds Adds Adds := ⟨List.IsSuffix.trans⟩

theorem adds_of_same (same : q.constraints = p.constraints) : p.Adds q := by
  have equal : [] ++ p.constraints.latestFirst = q.constraints.latestFirst := by rw [same, nil_append]
  exact ⟨[], equal⟩

theorem adds_of_push (t : Term) (pushed : q.constraints = p.constraints.push t) : p.Adds q := by
  unfold Adds
  rw [pushed, ConstraintLog.push]
  split
  · exact suffix_refl _
  · exact suffix_cons _ _

theorem Adds.subset_terms (adds : p.Adds q) : p.constraints.terms ⊆ q.constraints.terms := by
  intro t member
  rw [ConstraintLog.terms, mem_reverse] at member ⊢
  exact adds.subset member

theorem mem_terms_assume {t : Term} (informative : t ≠ .bool true) : t ∈ (p.assume t).constraints.terms := by
  rw [assume, ConstraintLog.terms_push, if_neg informative]
  exact mem_append_right _ (mem_singleton.mpr rfl)

theorem Adds.satisfies (adds : p.Adds q) (satisfies : E.Satisfies q.constraints) : E.Satisfies p.constraints :=
  fun t member => satisfies t (adds.subset_terms member)

theorem Excludes.symm (excludes : p.Excludes q) : q.Excludes p :=
  fun E both => excludes E ⟨both.2, both.1⟩

theorem Excludes.adds {p' q' : Path} (excludes : p.Excludes q) (left : p.Adds p') (right : q.Adds q') :
    p'.Excludes q' :=
  fun E both => excludes E ⟨left.satisfies both.1, right.satisfies both.2⟩

theorem satisfies_assumeEdge {way : Successor} (satisfies : E.Satisfies (p.assumeEdge way.constraint?).constraints) :
    way.isOpen E = true := by
  unfold Successor.isOpen
  cases constraint : way.constraint? with
  | none => rfl
  | some t =>
    rw [constraint] at satisfies
    exact (Env.satisfies_push.mp satisfies).2

theorem assumeEdge_adds (p : Path) (constraint : Option Term) : p.Adds (p.assumeEdge constraint) := by
  cases constraint with
  | none => exact adds_of_same rfl
  | some t => exact adds_of_push t rfl

end Path

namespace Machine

variable {M : Machine} {p q : Path}

theorem Change.adds {K : Part → Prop} (change : Change K p q) : p.Adds q := by
  cases change with
  | assume t => exact Path.adds_of_push t rfl
  | _ => exact Path.adds_of_same rfl

theorem step_adds : Always Path.Adds M.step :=
  step_always (fun _ _ _ => Change.adds) (fun _ _ => Path.adds_of_same rfl) (fun _ _ => Path.adds_of_same rfl)
    (fun _ _ => Path.adds_of_same rfl)

end Machine

namespace Successor

variable {first second : Successor}

def Apart (first second : Successor) : Prop := ∀ E : Env, ¬ (first.isOpen E = true ∧ second.isOpen E = true)

theorem apart_of_negated {cond : Term} (yes : first.constraint? = some cond)
    (no : second.constraint? = some (Term.mkNot cond)) : first.Apart second := by
  intro E both
  unfold isOpen at both
  rw [yes, no] at both
  exact Env.holds_mkNot.mp both.2 both.1

end Successor

def Node.Conditional (n : Node) : Prop :=
  n.isBranching = true → ∃ value, n.instructions.getLast? = some (.condition value)

def Program.Conditional (program : Program) : Prop :=
  ∀ c ∈ program.contracts, ∀ f ∈ c.functions, ∀ n ∈ f.nodes, n.Conditional

namespace Machine

variable {M : Machine} {p q : Path} {ways : List Successor} {f : Function} {n : Node}

open Successor (Apart apart_of_negated)

theorem Executed.apart {loc : Location} {i : Instruction} (executed : Executed M loc i p (some ways) q) :
    ways.Pairwise Apart := by
  cases executed with
  | checked cond changes => exact pairwise_pair.mpr (apart_of_negated rfl rfl)
  | reverted changes | entered calls known changes => exact pairwise_singleton _ _

theorem Left.apart {fn : FnId} (conditional : n.Conditional) (left : Left fn f n p ways q) : ways.Pairwise Apart := by
  cases left with
  | forked cond whenTrue whenFalse counts changes =>
    cases whenTrue with
    | none =>
      cases whenFalse with
      | none => exact List.Pairwise.nil
      | some no => exact pairwise_singleton _ _
    | some yes =>
      cases whenFalse with
      | none => exact pairwise_singleton _ _
      | some no => exact pairwise_pair.mpr (apart_of_negated rfl rfl)
  | fannedOut branching unconditional =>
    obtain ⟨value, ends⟩ := conditional branching
    exact absurd ends (unconditional value)
  | passedOn son | returned stack | finished => exact pairwise_singleton _ _

theorem node_conditional {program : Program} (conditional : program.Conditional) {id : FnId} {k : Nat}
    (known : program.function? id = some f) (found : f.node? k = some n) : n.Conditional := by
  unfold Program.function? at known
  split at known
  · rename_i c listed
    exact conditional c (mem_of_getElem? listed) f (mem_of_getElem? known) n
      (mem_of_getElem? found)
  · cases known

theorem step_apart (conditional : M.program.Conditional) (runs : Runs M.step p ways q) : ways.Pairwise Apart := by
  obtain ⟨loc, f, n, _, known, found, runs⟩ := step_cases runs
  rcases runNode_cases runs with ⟨_, rfl, _⟩ | ⟨_, r, _, _, executes | ⟨s, _, left⟩⟩
  · exact pairwise_singleton _ _
  · obtain ⟨_, _, _, _, _, _, executed⟩ := execAll_ends executes
    exact executed.apart
  · exact left.apart (node_conditional conditional known found)

end Machine

end TokenAudit
