import Mathlib.Data.List.Forall2

/-!
# Computations on a world

`Returns` says what a computation gives and which world it leaves.
-/

namespace TokenAudit

variable {σ α β : Type} {w w' : σ} {a b : α} {x : StateM σ α} {f : α → StateM σ β} {ε : Type}

def Returns (x : StateM σ α) (w : σ) (a : α) (w' : σ) : Prop := (show α × σ from x.run w) = (a, w')

@[simp] theorem returns_pure : Returns (pure a : StateM σ α) w b w' ↔ a = b ∧ w = w' := by
  show (a, w) = (b, w') ↔ _
  simp

@[simp] theorem returns_bind {b : β} : Returns (x >>= f) w b w' ↔ ∃ a v, Returns x w a v ∧ Returns (f a) v b w' := by
  constructor
  · intro returns
    exact ⟨(x.run w).1, (x.run w).2, rfl, returns⟩
  · rintro ⟨a, v, first, next⟩
    have first : x.run w = (a, v) := first
    show (f (x.run w).1).run (x.run w).2 = (b, w')
    rw [first]
    exact next

theorem Returns.of_pure (returns : Returns (pure a : StateM σ α) w b w') : a = b := (returns_pure.mp returns).1

theorem Returns.of_bind {b : β} (returns : Returns (x >>= f) w b w') :
    ∃ a v, Returns x w a v ∧ Returns (f a) v b w' :=
  returns_bind.mp returns

theorem Returns.unique {v : σ} (first : Returns x w a v) (second : Returns x w b w') : a = b ∧ v = w' := by
  have same : (a, v) = (b, w') := first.symm.trans second
  cases same
  exact ⟨rfl, rfl⟩

theorem bind_congr_returns {g : α → StateM σ β} (same : ∀ w a v, Returns x w a v → f a = g a) : x >>= f = x >>= g := by
  funext w
  exact congrFun (same w (x.run w).1 (x.run w).2 rfl) (x.run w).2

theorem bind_eq_ok_iff {x : Except ε α} {f : α → Except ε β} {b : β} :
    (x >>= f) = .ok b ↔ ∃ a, x = .ok a ∧ f a = .ok b := by
  cases x with
  | error e | ok a => simp [bind, Except.bind]

theorem exists_of_mem_right {R : α → β → Prop} {as : List α} {bs : List β} (related : List.Forall₂ R as bs) {b : β}
    (member : b ∈ bs) : ∃ a ∈ as, R a b := by
  induction related with
  | nil => cases member
  | cons here _ ih =>
    rcases List.mem_cons.mp member with rfl | later
    · exact ⟨_, List.mem_cons_self .., here⟩
    · obtain ⟨a, among, holds⟩ := ih later
      exact ⟨a, List.mem_cons_of_mem _ among, holds⟩

theorem ok_of_toOption {result : Except ε α} (some_result : result.toOption = some a) : result = .ok a := by
  cases result with
  | error e => cases some_result
  | ok b =>
    cases some_result
    rfl

theorem returns_of_toOption {x : StateM Unit (Except ε α × β)} (some_result : (x.run ()).1.1.toOption = some a) :
    ∃ b, Returns x () (.ok a, b) () := by
  refine ⟨(x.run ()).1.2, ?_⟩
  rw [← ok_of_toOption some_result]
  rfl

theorem returns_unit (x : StateM Unit α) : Returns x () (x.run ()).1 () := rfl

theorem returns_of_view {γ : Type} {x : StateM Unit (Except ε α × β)} {c : γ} (view : β → γ)
    (shown : ((x.run ()).1.1.toOption, view (x.run ()).1.2) = (some a, c)) :
    ∃ b, Returns x () (.ok a, b) () ∧ view b = c := by
  have returns := returns_unit x
  generalize (x.run ()).1 = outcome at shown returns
  obtain ⟨result, b⟩ := outcome
  obtain ⟨verdict, viewed⟩ := Prod.mk.inj shown
  cases ok_of_toOption verdict
  exact ⟨b, returns, viewed⟩

def outcome {ε : Type} (x : ExceptT ε (StateM σ) α) (w : σ) : Except ε α × σ := x.run w

def Keeps {ε : Type} (I : σ → Prop) (Q : α → Prop) (x : ExceptT ε (StateM σ) α) : Prop :=
  ∀ ⦃w⦄, I w → I (outcome x w).2 ∧ ∀ a, (outcome x w).1 = .ok a → Q a

section

variable {ε : Type} {I : σ → Prop} {Q : α → Prop} {Q' : β → Prop} {x : ExceptT ε (StateM σ) α}
  {f : α → ExceptT ε (StateM σ) β}

theorem outcome_bind (x : ExceptT ε (StateM σ) α) (f : α → ExceptT ε (StateM σ) β) (w : σ) :
    outcome (x >>= f) w = match outcome x w with
      | (.ok a, v) => outcome (f a) v
      | (.error e, v) => (.error e, v) := by
  simp only [outcome, Bind.bind, ExceptT.bind, ExceptT.mk, ExceptT.run, ExceptT.bindCont, StateT.bind]
  cases x w with
  | mk result v => cases result <;> rfl

theorem Keeps.bind (first : Keeps I Q x) (next : ∀ a, Q a → Keeps I Q' (f a)) : Keeps I Q' (x >>= f) := by
  intro w inv
  have kept := first inv
  rw [outcome_bind]
  cases result : outcome x w with
  | mk value v =>
    rw [result] at kept
    cases value with
    | error e => exact ⟨kept.1, nofun⟩
    | ok a => exact next a (kept.2 a rfl) kept.1

theorem Keeps.imp {Q₂ : α → Prop} (keeps : Keeps I Q x) (weaker : ∀ a, Q a → Q₂ a) : Keeps I Q₂ x := by
  intro w inv
  exact ⟨(keeps inv).1, fun a returned => weaker a ((keeps inv).2 a returned)⟩

theorem Keeps.ends (keeps : Keeps I Q x) (inv : I w) (ran : outcome x w = (.ok a, w')) : I w' ∧ Q a := by
  have kept := keeps inv
  rw [ran] at kept
  exact ⟨kept.1, kept.2 a rfl⟩

theorem keeps_pure (good : Q a) : Keeps I Q (pure a : ExceptT ε (StateM σ) α) := by
  intro w inv
  refine ⟨inv, fun b returned => ?_⟩
  cases returned
  exact good

theorem keeps_throw (e : ε) : Keeps I Q (throw e : ExceptT ε (StateM σ) α) :=
  fun _ inv => ⟨inv, nofun⟩

theorem keeps_get : Keeps I I (get : ExceptT ε (StateM σ) σ) := by
  intro w inv
  refine ⟨inv, fun v returned => ?_⟩
  cases returned
  exact inv

theorem outcome_get_bind (f : σ → ExceptT ε (StateM σ) β) (w : σ) : outcome (get >>= f) w = outcome (f w) w := rfl

theorem outcome_modify_bind (g : σ → σ) (f : PUnit → ExceptT ε (StateM σ) β) (w : σ) :
    outcome (modify g >>= f) w = outcome (f ⟨⟩) (g w) := rfl

theorem keeps_modifyGet {g : σ → α × σ} (step : ∀ w, I w → I (g w).2 ∧ Q (g w).1) :
    Keeps I Q (modifyGet g : ExceptT ε (StateM σ) α) := by
  intro w inv
  refine ⟨(step w inv).1, fun a returned => ?_⟩
  cases returned
  exact (step w inv).2

theorem keeps_modify {g : σ → σ} (step : ∀ w, I w → I (g w)) :
    Keeps I (fun _ => True) (modify g : ExceptT ε (StateM σ) PUnit) :=
  keeps_modifyGet fun w inv => ⟨step w inv, trivial⟩

end

end TokenAudit
