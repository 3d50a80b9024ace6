import TokenAudit.Proofs.Machine.Composition

/-!
# Steps and the number of a path

No step reads the number of a path.  On a copy under another number it has the same outcome, and what it
leaves is the copy of what it leaves of the path.
-/

namespace TokenAudit.Machine

variable {α β : Type} {M : Machine}

def Blind (x : StepM α) : Prop :=
  ∀ (p : Path) (id : Nat), outcome x (p.fork id) = ((outcome x p).1, (outcome x p).2.fork id)

theorem Blind.bind {x : StepM α} {f : α → StepM β} (first : Blind x)
    (next : ∀ ⦃p a q⦄, Runs x p a q → Blind (f a)) : Blind (x >>= f) := by
  intro p id
  have first : x.run (p.fork id) = ((x.run p).1, Path.fork (x.run p).2 id) := first p id
  show (x >>= f).run (p.fork id) = (((x >>= f).run p).1, Path.fork ((x >>= f).run p).2 id)
  rw [run_bind, run_bind, first]
  cases runs : x.run p with
  | mk result q =>
    cases result with
    | error e => rfl
    | ok a => exact next runs q id

theorem blind_get {f : Path → StepM α} (same : ∀ p id, f (p.fork id) = f p) (next : ∀ p, Blind (f p)) :
    Blind (get >>= f) := by
  intro p id
  show outcome (f (p.fork id)) (p.fork id) = ((outcome (f p) p).1, (outcome (f p) p).2.fork id)
  rw [same]
  exact next p p id

theorem blind_throw (e : PathError) : Blind (throw e : StepM α) := fun _ _ => rfl

theorem blind_modifyGet {g : Path → α × Path} (free : ∀ p id, g (p.fork id) = ((g p).1, (g p).2.fork id)) :
    Blind (modifyGet g) := by
  intro p id
  show ((.ok (g (p.fork id)).1, (g (p.fork id)).2) : Except PathError α × Path) = _
  rw [free]
  rfl

theorem blindness : Compositional (fun _ => True) (fun _ _ => True) fun _ => Blind where
  changes _ := trivial
  ok _ := fun _ _ => rfl
  fail _ := blind_throw _
  look := blind_get
  change _ := blind_modifyGet
  seq := .bind

theorem blind_step : Blind M.step := by
  refine blind_get (fun _ _ => rfl) fun p => ?_
  split
  · exact blind_throw _
  · split
    · exact blind_throw _
    · split
      · exact blind_throw _
      · exact blindness.runNode anywhere _ _ _

theorem stepOn_fork (M : Machine) (p : Path) (id : Nat) :
    M.stepOn (p.fork id) = ((M.stepOn p).1, (M.stepOn p).2.fork id) :=
  blind_step p id

end TokenAudit.Machine
