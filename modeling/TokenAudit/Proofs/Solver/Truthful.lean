import TokenAudit.Proofs.Machine.Concrete
import TokenAudit.Proofs.World
import TokenAudit.Verify.Judge

/-!
# Truthful solvers

A truthful solver never fails and answers as the environments of the assertions demand.  Then the questions
that the exploration and the verdict put to it are questions about environments of a path.
-/

namespace TokenAudit

open List

variable {ts us : List Term} {p : Path} {E : Env}

def Satisfiable (ts : List Term) : Prop := ∃ E : Env, ∀ t ∈ ts, E.Holds t

theorem Satisfiable.mono (satisfiable : Satisfiable us) (fewer : ts ⊆ us) : Satisfiable ts := by
  obtain ⟨E, holds⟩ := satisfiable
  exact ⟨E, fun t member => holds t (fewer member)⟩

/-- The solver never fails, and answers sat exactly when some environment satisfies all assertions. -/
def Solver.Truthful {σ : Type} (solver : Solver (StateM σ)) : Prop :=
  ∀ ts w, ∃ w', Satisfiable ts ∧ Returns (solver.checkSat ts) w (.ok .sat) w' ∨
    ¬ Satisfiable ts ∧ Returns (solver.checkSat ts) w (.ok .unsat) w'

def Path.Admits (p : Path) (ts : List Term) : Prop := ∃ E : Env, E.Satisfies p.constraints ∧ ∀ t ∈ ts, E.Holds t

theorem Path.Admits.mono (admits : p.Admits ts) (fewer : us ⊆ ts) : p.Admits us := by
  obtain ⟨E, satisfies, holds⟩ := admits
  exact ⟨E, satisfies, fun t member => holds t (fewer member)⟩

theorem Path.satisfiable_extended : Satisfiable (p.constraints.extended ts) ↔ p.Admits ts := by
  unfold Satisfiable Path.Admits Env.Satisfies ConstraintLog.extended
  simp only [mem_append, or_imp, forall_and]

theorem Env.holds_not {t : Term} : E.Holds (.not t) ↔ ¬ E.Holds t := by
  simp [Env.Holds, Term.eval]

theorem not_satisfiable_denied (t : Term) : ¬ Satisfiable [t, .not t] := by
  rintro ⟨E, holds⟩
  exact Env.holds_not.mp (holds (.not t) (by simp)) (holds t (by simp))

theorem Env.holds_any : E.Holds (.junction .any ts) ↔ ∃ t ∈ ts, E.Holds t := by
  simp [Env.Holds, Term.eval, Term.truths_eq_map, Junction.combine]

theorem Env.holds_all : E.Holds (.junction .all ts) ↔ ∀ t ∈ ts, E.Holds t := by
  simp [Env.Holds, Term.eval, Term.truths_eq_map, Junction.combine]

section

variable {σ : Type} {solver : Solver (StateM σ)} {w w' : σ}

theorem Solver.Truthful.answer (truthful : solver.Truthful) {answer : Except SolverError SatResult}
    (answers : Returns (solver.checkSat ts) w answer w') :
    Satisfiable ts ∧ answer = .ok .sat ∨ ¬ Satisfiable ts ∧ answer = .ok .unsat := by
  obtain ⟨_, ⟨possible, sat⟩ | ⟨impossible, unsat⟩⟩ := truthful ts w
  · exact .inl ⟨possible, (answers.unique sat).1⟩
  · exact .inr ⟨impossible, (answers.unique unsat).1⟩

theorem Judge.satisfiable_truthful (truthful : solver.Truthful) {extra : List Term} {result : Except VerifyError Bool}
    (asks : Returns (satisfiable solver p extra) w result w') : ∃ b, result = .ok b ∧ (b = true ↔ p.Admits extra) := by
  obtain ⟨answer, v, answers, ends⟩ := asks.of_bind
  rw [← Path.satisfiable_extended]
  rcases truthful.answer answers with ⟨possible, rfl⟩ | ⟨impossible, rfl⟩
  · exact ⟨true, ends.of_pure.symm, by simp [possible]⟩
  · exact ⟨false, ends.of_pure.symm, by simp [impossible]⟩

theorem Explore.feasible_truthful (truthful : solver.Truthful) {result : Except SolverError Bool}
    (asks : Returns (feasibleIfRequired solver p) w result w') :
    ∃ b, result = .ok b ∧ (b = true ↔ p.required = [] ∨ p.Admits p.required) := by
  unfold feasibleIfRequired at asks
  split at asks
  · rename_i empty
    exact ⟨true, asks.of_pure.symm, by simp [isEmpty_iff.mp empty]⟩
  · rename_i nonempty
    have some_required : p.required ≠ [] := fun empty => nonempty (isEmpty_iff.mpr empty)
    obtain ⟨answer, v, answers, ends⟩ := asks.of_bind
    rw [← Path.satisfiable_extended]
    rcases truthful.answer answers with ⟨possible, rfl⟩ | ⟨impossible, rfl⟩
    · exact ⟨true, ends.of_pure.symm, by simp [possible]⟩
    · exact ⟨false, ends.of_pure.symm, by simp [impossible, some_required]⟩

end

namespace Solver

variable {possible impossible : List (List Term)}

open Classical in
/-- The solver that knows what holds together and what does not, and finds the truth about all else. -/
noncomputable def informed (possible impossible : List (List Term)) : Solver (StateM Unit) where
  checkSat ts :=
    let known : Bool := possible.any fun log => ts ⊆ log
    let excluded : Bool := impossible.any fun core => core ⊆ ts
    pure (.ok (if known then .sat else if excluded then .unsat else if Satisfiable ts then .sat else .unsat))
  model _ _ := pure (.ok none)

theorem informed_truthful (holds : ∀ log ∈ possible, Satisfiable log)
    (fails : ∀ core ∈ impossible, ¬ Satisfiable core) : (informed possible impossible).Truthful := by
  intro ts w
  refine ⟨w, ?_⟩
  unfold informed
  by_cases known : (possible.any fun log => decide (ts ⊆ log)) = true
  · obtain ⟨log, among, fewer⟩ := any_eq_true.mp known
    have satisfiable : Satisfiable ts := (holds log among).mono (of_decide_eq_true fewer)
    exact .inl ⟨satisfiable, by simp [known]⟩
  · by_cases excluded : (impossible.any fun core => decide (core ⊆ ts)) = true
    · obtain ⟨core, among, fewer⟩ := any_eq_true.mp excluded
      have unsatisfiable : ¬ Satisfiable ts := fun all => fails core among (all.mono (of_decide_eq_true fewer))
      exact .inr ⟨unsatisfiable, by simp [known, excluded]⟩
    · by_cases satisfiable : Satisfiable ts
      · exact .inl ⟨satisfiable, by simp [known, excluded, satisfiable]⟩
      · exact .inr ⟨satisfiable, by simp [known, excluded, satisfiable]⟩

end Solver

end TokenAudit
