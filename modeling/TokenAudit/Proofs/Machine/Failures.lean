import TokenAudit.Proofs.Machine.Composition

/-!
# How a step fails

A failure is local when it lies in an instruction: an operand of the wrong sort or shape, a variable without a value,
a call of nothing.  The others blame the place a path stands at or the solver.
-/

namespace TokenAudit.Machine

variable {α β : Type}

def FailsLocally (x : StepM α) : Prop := ∀ ⦃p e⦄, (outcome x p).1 = .error e → e.isLocal = true

theorem FailsLocally.bind {x : StepM α} {f : α → StepM β} (first : FailsLocally x)
    (next : ∀ ⦃p a q⦄, Runs x p a q → FailsLocally (f a)) : FailsLocally (x >>= f) := by
  intro p e failed
  have both : outcome (x >>= f) p = match outcome x p with
      | (.ok a, q) => outcome (f a) q
      | (.error e, q) => (.error e, q) := run_bind x f p
  rw [both] at failed
  cases result : outcome x p with
  | mk value q =>
    rw [result] at failed
    cases value with
    | ok a => exact next result failed
    | error e' =>
      cases failed
      exact first (congrArg Prod.fst result)

theorem failsLocally_pure (a : α) : FailsLocally (pure a) := by
  intro p e failed
  cases failed

theorem failsLocally_throw {e : PathError} (blames : e.isLocal = true) : FailsLocally (throw e : StepM α) := by
  intro p e' failed
  cases failed
  exact blames

theorem failsLocally_modifyGet (g : Path → α × Path) : FailsLocally (modifyGet g) := by
  intro p e failed
  cases failed

theorem locality : Compositional (fun _ => True) (fun _ _ => True) fun _ => FailsLocally where
  changes _ := trivial
  ok := failsLocally_pure
  fail := failsLocally_throw
  look _ next := (failsLocally_modifyGet fun p => (p, p)).bind fun _ p _ _ => next p
  change _ _ := failsLocally_modifyGet _
  seq := .bind

end TokenAudit.Machine
