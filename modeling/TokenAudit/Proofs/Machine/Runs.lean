import TokenAudit.Machine.Step

/-!
# Runs of machine computations

`Runs x p a q` says that the computation `x` succeeds on the path `p` with result `a` and leaves the path `q`.
-/

namespace TokenAudit.Machine

variable {α β : Type} {p q r : Path} {x : StepM α} {a b : α} {t : Term} {u : Unit} {v : Variable} {M : Machine}
  {o : Operand}

def Runs (x : StepM α) (p : Path) (a : α) (q : Path) : Prop :=
  (show Except PathError α × Path from x.run p) = (.ok a, q)

theorem Runs.unique (runs : Runs x p a q) (runs' : Runs x p b r) : a = b ∧ q = r := by
  cases runs.symm.trans runs'
  exact ⟨rfl, rfl⟩

@[simp] theorem runs_pure : Runs (pure a) p b q ↔ a = b ∧ p = q := by
  show ((.ok a, p) : Except PathError α × Path) = (.ok b, q) ↔ _
  simp

@[simp] theorem runs_throw {e : PathError} : ¬ Runs (throw e) p a q := by
  show ¬ ((.error e, p) : Except PathError α × Path) = (.ok a, q)
  simp

@[simp] theorem runs_get {s : Path} : Runs get p s q ↔ p = s ∧ p = q := by
  show ((.ok p, p) : Except PathError Path × Path) = (.ok s, q) ↔ _
  simp

@[simp] theorem runs_modifyGet {f : Path → α × Path} : Runs (modifyGet f) p a q ↔ f p = (a, q) := by
  show ((.ok (f p).1, (f p).2) : Except PathError α × Path) = (.ok a, q) ↔ _
  simp [Prod.ext_iff]

@[simp] theorem runs_modify {f : Path → Path} {u : PUnit} : Runs (modify f) p u q ↔ f p = q := by
  show Runs (modifyGet fun s => (PUnit.unit, f s)) p u q ↔ _
  simp

theorem run_bind (x : StepM α) (f : α → StepM β) (p : Path) :
    (x >>= f).run p = match x.run p with
      | (.ok a, q) => (f a).run q
      | (.error e, q) => (.error e, q) := by
  simp only [Bind.bind, ExceptT.bind, ExceptT.mk, ExceptT.run, ExceptT.bindCont, StateT.bind]
  cases x p with
  | mk result q => cases result <;> rfl

@[simp] theorem runs_bind {f : α → StepM β} {b : β} :
    Runs (x >>= f) p b r ↔ ∃ a q, Runs x p a q ∧ Runs (f a) q b r := by
  unfold Runs
  rw [run_bind]
  cases x.run p with
  | mk result q =>
    cases result with
    | error e => simp
    | ok a =>
      constructor
      · intro rest
        exact ⟨a, q, rfl, rest⟩
      · rintro ⟨_, _, ⟨⟩, rest⟩
        exact rest

theorem Runs.of_bind {f : α → StepM β} {b : β} (runs : Runs (x >>= f) p b r) :
    ∃ a q, Runs x p a q ∧ Runs (f a) q b r :=
  runs_bind.mp runs

@[simp] theorem runs_map {f : α → β} {b : β} : Runs (f <$> x) p b q ↔ ∃ a, Runs x p a q ∧ f a = b := by
  rw [map_eq_pure_bind, runs_bind]
  simp

@[simp] theorem runs_sorted {e : Except SortError α} : Runs (sorted e) p a q ↔ e = .ok a ∧ p = q := by
  cases e <;> simp [sorted]

@[simp] theorem runs_single {v : Value} : Runs (single v) p t q ↔ v = .term t ∧ p = q := by
  cases v <;> simp [single]

@[simp] theorem runs_assume : Runs (assume t) p u q ↔ p.assume t = q :=
  runs_modify

@[simp] theorem runs_bindVar {value : Value} : Runs (bind v value) p u q ↔ p.bind v.id value = q :=
  runs_modify

@[simp] theorem runs_redefine {a : Value} : Runs (redefine v) p a q ↔ p.redefine v = (a, q) :=
  runs_modifyGet

@[simp] theorem runs_read {a : Value} : Runs (M.read v) p a q ↔ p.read M.contract v = (a, q) :=
  runs_modifyGet

@[simp] theorem runs_valueOf {a : Value} : Runs (M.valueOf o) p a q ↔ p.valueOf M.contract o = (a, q) :=
  runs_modifyGet

@[simp] theorem runs_termOf : Runs (M.termOf o) p t q ↔ p.valueOf M.contract o = (.term t, q) := by
  simp [termOf]

def Always (R : Path → Path → Prop) (x : StepM α) : Prop := ∀ ⦃p a q⦄, Runs x p a q → R p q

section

variable {R S : Path → Path → Prop} {x : StepM α} {f : α → StepM β}

theorem Always.mono (always : Always R x) (weaker : ∀ p q, R p q → S p q) : Always S x := by
  intro p a q runs
  exact weaker p q (always runs)

theorem Always.bind [Trans R R R] (first : Always R x) (next : ∀ a, Always R (f a)) : Always R (x >>= f) := by
  intro p b r runs
  obtain ⟨a, q, before, after⟩ := runs.of_bind
  exact Trans.trans (first before) (next a after)

theorem always_modify {g : Path → Path} (changes : ∀ p, R p (g p)) : Always R (modify g) := by
  intro p _ q runs
  rw [← runs_modify.mp runs]
  exact changes p

theorem always_modifyGet {g : Path → α × Path} (changes : ∀ p, R p (g p).2) : Always R (modifyGet g) := by
  intro p a q runs
  have changed := changes p
  rw [runs_modifyGet.mp runs] at changed
  exact changed

theorem always_throw (e : PathError) : Always R (throw e : StepM α) := by
  intro p a q runs
  exact (runs_throw runs).elim

variable [Std.Refl R]

theorem always_pure (a : α) : Always R (pure a) := by
  intro p b q runs
  rw [(runs_pure.mp runs).2]
  exact Std.Refl.refl q

theorem always_get : Always R get := by
  intro p s q runs
  rw [(runs_get.mp runs).2]
  exact Std.Refl.refl q

theorem always_sorted (e : Except SortError α) : Always R (sorted e) := by
  intro p a q runs
  rw [(runs_sorted.mp runs).2]
  exact Std.Refl.refl q

theorem always_single (v : Value) : Always R (single v) := by
  intro p a q runs
  rw [(runs_single.mp runs).2]
  exact Std.Refl.refl q

end

end TokenAudit.Machine
