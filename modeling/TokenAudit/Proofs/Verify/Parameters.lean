import TokenAudit.Proofs.Machine.Rebinding
import TokenAudit.Proofs.Verify.Completion
import TokenAudit.Proofs.Verify.Trails

/-!
# What a parameter selector denotes

Before a function runs, each of its parameters is bound to a symbol of its own, the argument.
-/

namespace TokenAudit

open List Resolve TokenAudit.Path

open Resolve (Resolves Registration Registrations)

variable {K : Resolve.Interest → Prop} {c : Contract} {v : Variable} {i : Nat} {S : Subject}

namespace Machine

variable {M : Machine} {p q : Path} {x : VarId} {s : Path} {ways : List Successor}

def LastBinds (M : Machine) (x : VarId) (visited : List Path) (s : Path) : Prop :=
  ∃ before after, visited = before ++ s :: after ∧ M.BindsIn s x ∧ ∀ later ∈ after, ¬ M.BindsIn later x

theorem not_lastBinds_nil : ¬ M.LastBinds x [] s := by
  rintro ⟨before, after, split, _⟩
  cases before <;> cases split

theorem lastBinds_append_singleton {visited : List Path} :
    M.LastBinds x (visited ++ [p]) s ↔ (M.BindsIn p x ∧ s = p) ∨ (¬ M.BindsIn p x ∧ M.LastBinds x visited s) := by
  constructor
  · rintro ⟨before, after, split, binds, later⟩
    rcases eq_nil_or_concat after with rfl | ⟨after, last, rfl⟩
    · obtain ⟨_, same⟩ := append_inj' split rfl
      cases same
      exact .inl ⟨binds, rfl⟩
    · rw [concat_eq_append, ← cons_append, ← append_assoc] at split
      obtain ⟨rfl, same⟩ := append_inj' split rfl
      cases same
      refine .inr ⟨later p (by simp), before, after, rfl, binds, fun s member => later s (by simp [member])⟩
  · rintro (⟨binds, rfl⟩ | ⟨free, before, after, rfl, binds, later⟩)
    · exact ⟨visited, [], rfl, binds, by simp⟩
    · refine ⟨before, after ++ [p], by simp, binds, fun s member => ?_⟩
      rcases mem_append.mp member with member | member
      · exact later s member
      · exact mem_singleton.mp member ▸ free

theorem step_bound (runs : Runs M.step p ways q) (bound : (p.bindings.get? x).isSome) : (q.bindings.get? x).isSome := by
  let R (p q : Path) : Prop := (p.bindings.get? x).isSome → (q.bindings.get? x).isSome
  have : Std.Refl R := ⟨fun _ => id⟩
  have : Trans R R R := ⟨fun first second => second ∘ first⟩
  have changes (K : Part → Prop) (p q : Path) (change : Change K p q) : R p q := by
    intro bound
    cases change with
    | bind v value =>
      simp only [Path.bind, Table.get?_insert]
      split
      · rfl
      · exact bound
    | redefine v =>
      simp only [Path.redefine, Table.get?_insert]
      split
      · rfl
      · exact bound
    | _ => exact bound
  exact step_always changes (fun _ _ => id) (fun _ _ => id) (fun _ _ => id) runs bound

theorem lastBinds_step {visited : List Path} {value : Value} (runs : Runs M.step p ways q)
    (bound : (p.bindings.get? x).isSome)
    (before : p.bindings.get? x = some value ↔ ∀ s, M.LastBinds x visited s →
      (M.stepOn s).2.bindings.get? x = some value) :
    q.bindings.get? x = some value ↔
      ∀ s, M.LastBinds x (visited ++ [p]) s → (M.stepOn s).2.bindings.get? x = some value := by
  have stepped : (M.stepOn p).2 = q := congrArg Prod.snd (show M.stepOn p = (.ok ways, q) from runs)
  simp only [lastBinds_append_singleton]
  by_cases binds : M.BindsIn p x
  · simp [binds, stepped]
  · simp only [binds, false_and, not_false_eq_true, true_and, false_or, ← before]
    obtain ⟨held, found⟩ := Option.isSome_iff_exists.mp bound
    rw [step_keeps binds runs found, found]

end Machine

open Machine (LastBinds)

variable {M : Machine} {start p q : Path} {visited : List Path} {x : VarId} {value : Value}

theorem Trail.bound (trail : Trail M start visited p) (bound : (start.bindings.get? x).isSome) :
    (p.bindings.get? x).isSome := by
  induction trail with
  | here => exact bound
  | @on visited p q ways way next before runs member goes id ih =>
    have after := Machine.step_bound runs ih
    rwa [go_eq]

theorem Trail.value_iff (trail : Trail M start visited p) (bound : start.bindings.get? x = some value) :
    p.bindings.get? x = some value ↔
      ∀ s, M.LastBinds x visited s → (M.stepOn s).2.bindings.get? x = some value := by
  induction trail with
  | here => exact ⟨fun _ s last => absurd last Machine.not_lastBinds_nil, fun _ => bound⟩
  | @on visited p q ways way next before runs member goes id ih =>
    have after := Machine.lastBinds_step runs (before.bound (by simp [bound])) ih
    rwa [go_eq]

theorem FinishedBy.value_iff (finished : FinishedBy M start visited p) (bound : start.bindings.get? x = some value) :
    (p.bindings.get? x).isSome ∧ (p.bindings.get? x = some value ↔
      ∀ s, M.LastBinds x visited s → (M.stepOn s).2.bindings.get? x = some value) := by
  cases finished with
  | by_step trail runs member id =>
    have some_bound := trail.bound (x := x) (by simp [bound])
    have after := Machine.lastBinds_step runs some_bound (trail.value_iff bound)
    have still := Machine.step_bound runs some_bound
    exact ⟨still, after⟩

theorem Resolve.Registration.keeps (registration : Registration K p q) (bound : p.bindings.get? x = some value) :
    q.bindings.get? x = some value := by
  cases registration with
  | read c v => exact (read_grows rfl).1.keeps x value bound
  | _ => exact bound

def Path.Holds (x : VarId) (value : Value) (p q : Path) : Prop :=
  p.bindings.get? x = some value → q.bindings.get? x = some value

instance : Std.Refl (Path.Holds x value) := ⟨fun _ => id⟩

instance : Trans (Path.Holds x value) (Path.Holds x value) (Path.Holds x value) :=
  ⟨fun first second => second ∘ first⟩

theorem Resolve.Registrations.keeps (registrations : Registrations K p q) (bound : p.bindings.get? x = some value) :
    q.bindings.get? x = some value :=
  registrations.lift (R := Path.Holds x value) (fun _ _ => Registration.keeps) bound

def Variable.argument (x : Variable) (i : Nat) : Term := .var ("p" ++ toString i) (.ofType x.type)

theorem readUnsigned_other {u : Variable} (apart : u.id ≠ x) :
    (p.readUnsigned c u).bindings.get? x = p.bindings.get? x ∧ (p.readUnsigned c u).entryName = p.entryName := by
  have unsigned (p : Path) (value : Value) : ∃ log, p.assumeUnsigned value u.type = { p with constraints := log } := by
    unfold Path.assumeUnsigned
    repeat' split
    all_goals exact ⟨_, rfl⟩
  obtain ⟨log, same⟩ := unsigned (p.read c u).2 (p.read c u).1
  unfold Path.readUnsigned
  dsimp only
  rw [same]
  unfold Path.read
  split
  · exact ⟨rfl, rfl⟩
  · obtain ⟨log, pinned⟩ := Machine.pinInitial_log p c u (symbolFor (p.symbolBase u.id) u.type)
    dsimp only
    rw [pinned]
    simp [Path.bind, apart]

theorem readUnsigned_first (unbound : p.bindings.get? v.id = none) :
    (p.readUnsigned c v).bindings.get? v.id = some (symbolFor (p.symbolBase v.id) v.type) := by
  have reads : p.read c v = ((p.read c v).1, (p.read c v).2) := rfl
  have value : (p.read c v).1 = symbolFor (p.symbolBase v.id) v.type := by
    simp [Path.read, unbound]
  have bound := value ▸ (read_grows reads).2
  exact (Prepare.assumeUnsigned_registers (K := fun _ => True) _ _ _).keeps bound

theorem readAll_binds {vars : List Variable} (among : v ∈ vars) (only : ∀ u ∈ vars, u.id = v.id → u = v)
    (unbound : p.bindings.get? v.id = none) :
    (vars.foldl (readUnsigned c) p).bindings.get? v.id = some (symbolFor (p.symbolBase v.id) v.type) := by
  induction vars generalizing p with
  | nil => cases among
  | cons u rest ih =>
    obtain ⟨here, later⟩ := forall_mem_cons.mp only
    rw [foldl_cons]
    by_cases same : u.id = v.id
    · obtain rfl := here same
      exact (Prepare.readAll_registers (K := fun _ => True) c rest _).keeps (readUnsigned_first unbound)
    · obtain ⟨other, named⟩ := readUnsigned_other (p := p) (c := c) same
      have among : v ∈ rest := (mem_cons.mp among).resolve_left fun here => same (here ▸ rfl)
      have symbol : (p.readUnsigned c u).symbolBase v.id = p.symbolBase v.id := by
        simp only [symbolBase, named]
      rw [ih among later (other.trans unbound), symbol]

theorem param_scope {f : Function} (parameter : f.param? i = some v) : v.scope = .param f.name i := by
  obtain ⟨param, _, rfl⟩ := Option.map_eq_some_iff.mp parameter
  rfl

theorem seed_binds_parameter (parameter : S.function.param? i = some v) (plain : ∀ items, v.type ≠ .tuple items) :
    (S.seed S.entryPath).bindings.get? v.id = some (.term (v.argument i)) := by
  have scope := param_scope parameter
  have symbol : symbolFor (S.entryPath.symbolBase v.id) v.type = .term (v.argument i) := by
    have base : S.entryPath.symbolBase v.id = "p" ++ toString i := by
      simp [symbolBase, Variable.id, scope, Subject.entryPath, start]
    rw [base]
    unfold symbolFor Variable.argument
    split
    · rename_i items tuple
      exact absurd tuple (plain items)
    · rfl
  refine (Prepare.readUnsigned_registers (K := fun _ => True) _ _ _).keeps ?_
  refine (read_grows rfl).1.keeps _ _ ((read_grows rfl).1.keeps _ _ ?_)
  rw [← symbol]
  refine readAll_binds ?_ ?_ rfl
  · refine mem_append_left _ (mem_filterMap.mpr ⟨i, mem_range.mpr ?_, parameter⟩)
    obtain ⟨param, found, _⟩ := Option.map_eq_some_iff.mp parameter
    exact (List.getElem?_eq_some_iff.mp found).1
  · intro u member same
    have scopes : u.scope = v.scope := congrArg VarId.scope same
    rcases mem_append.mp member with member | member
    · obtain ⟨k, _, other⟩ := mem_filterMap.mp member
      rw [param_scope other, scope] at scopes
      cases scopes
      exact Option.some.inj (other.symm.trans parameter)
    · obtain ⟨n, _, state⟩ := mem_filterMap.mp member
      obtain ⟨_, _, rfl⟩ := Option.map_eq_some_iff.mp state
      rw [scope] at scopes
      cases scopes

def Resolve.result {α : Type} (x : ResolveM α) (r : Resolution) : Except VerifyError α :=
  (show Except VerifyError α × Resolution from x.run r).1

theorem selector_parameter {opts : Reading} {r : Resolution} (parameter : S.function.param? i = some v)
    (bound : r.path.bindings.get? v.id = some value) (t : Term) :
    Resolve.result (Resolve.selector S opts (.funcParam i)) r = .ok (some t) ↔ value = .term t := by
  have reads : r.path.read S.contract v = (value, r.path) := by simp [Path.read, bound]
  have chosen : Resolve.parameter S i = pure v := by simp [Resolve.parameter, parameter]
  rw [selector, functionParam, chosen]
  show result (do
      let t ← (do
        let t ← single (r.path.read S.contract v).1
        if v.type.isUnsigned then noteUnsigned t
        pure t)
      pure (some t)) { r with path := (r.path.read S.contract v).2 } = _ ↔ _
  rw [reads]
  cases value with
  | tuple items =>
    constructor
    · intro fails
      cases fails
    · intro same
      cases same
  | term s =>
    have gives : result (do
        let t ← (do
          let t ← single (.term s)
          if v.type.isUnsigned then noteUnsigned t
          pure t)
        pure (some t)) r = .ok (some s) := by
      cases unsigned : v.type.isUnsigned <;> rfl
    exact (Eq.congr_left gives).trans (by simp)

theorem prepared_binds_parameter {program : Option Program} {config : Config} {contract : String} {target : Target}
    {check : Check} {prepared : Prepared} (prepares : prepare program config contract target check = .ok prepared)
    (parameter : prepared.subject.function.param? i = some v) (plain : ∀ items, v.type ≠ .tuple items) :
    ∀ start ∈ prepared.paths, start.bindings.get? v.id = some (.term (v.argument i)) := by
  intro start among
  refine Prepare.prepare_seeded (R := Path.Holds v.id (.term (v.argument i))) (fun _ _ => Registration.keeps)
    (fun _ _ _ => id) check.permits_all prepares start among ?_
  exact seed_binds_parameter parameter plain

/-- A parameter selector denotes the argument on a prepared path, and on a finished one exactly if the last step
that may have bound the parameter left the argument in it. -/
theorem parameter_denotes_argument_iff {σ : Type} {solver : Solver (StateM σ)} {clock : Clock (StateM σ)}
    {program : Option Program} {config : Config} {contract : String} {target : Target} {check : Check}
    {prepared : Prepared} (prepares : prepare program config contract target check = .ok prepared) {w₁ w₂ w₃ w₄ : σ}
    {paths final : List Path} (explores : Returns (explore solver clock config prepared) w₁ paths w₂)
    (completes : Returns (prepared.complete solver paths) w₃ (.ok final) w₄) {i : Nat} {v : Variable}
    (parameter : prepared.subject.function.param? i = some v) (plain : ∀ items, v.type ≠ .tuple items) :
    (∀ start ∈ prepared.paths, ∀ opts r, Registrations (fun _ => True) start r.path →
      result (selector prepared.subject opts (.funcParam i)) r = .ok (some (v.argument i))) ∧
    ∀ q ∈ final, q.status = .finished → ∃ start ∈ prepared.paths, ∃ visited, ∃ p ∈ paths,
      FinishedBy (prepared.machine config) start visited p ∧
      Settled solver prepared.subject.contract prepared.tracking prepared.expectedCalls p q ∧
      ∀ opts r, Registrations (fun _ => True) q r.path →
        (result (selector prepared.subject opts (.funcParam i)) r = .ok (some (v.argument i)) ↔
          ∀ s, LastBinds (prepared.machine config) v.id visited s →
            ((prepared.machine config).stepOn s).2.bindings.get? v.id =
              some (.term (v.argument i))) := by
  have argued := prepared_binds_parameter prepares parameter plain
  have running := Prepare.prepared_running prepares
  constructor
  · intro start among opts r registrations
    exact (selector_parameter parameter (registrations.keeps (argued start among)) _).mpr rfl
  · intro q member finished
    obtain ⟨p, among, settled⟩ := exists_of_mem_right (complete_settled completes) member
    obtain ⟨was_finished, closes, _⟩ := settled.of_finished finished
    obtain ⟨start, first, visited, finishes⟩ :=
      (Explore.explore_emerges running explores p among).finished running was_finished
    obtain ⟨bound, meaning⟩ := finishes.value_iff (argued start first)
    obtain ⟨held, found⟩ := Option.isSome_iff_exists.mp bound
    refine ⟨start, first, visited, p, among, finishes, settled, fun opts r registrations => ?_⟩
    rw [selector_parameter parameter (registrations.keeps (Complete.close_keeps closes found)), ← meaning, found, Option.some.injEq]

def setParameter : Variable := ⟨"x", .param "set" 0, .named "int256"⟩

def setting (instruction : Instruction) : Trial where
  program := { contracts := [{
    name := "Token"
    functions := [{
      name := "set"
      params := [⟨"x", .named "int256"⟩]
      nodes := [{ instructions := [instruction, .ret [.const (.int 2)]] }] }] }] }
  function := "set"
  check := .returns { expected := .funcParam 0 }

structure Denotations where
  parameter : Option Variable
  before : List (Option Term)
  after : List (Status × Option Term)
  deriving DecidableEq

def Subject.denoted (S : Subject) (p : Path) : Option Term :=
  (result (selector S {} (.funcParam 0)) (.start p)).toOption.join

def Trial.denotations (t : Trial) : Option Denotations :=
  t.outcome?.map fun (prepared, _, final) =>
    ⟨prepared.subject.function.param? 0, prepared.paths.map prepared.subject.denoted,
      final.map fun q => (q.status, prepared.subject.denoted q)⟩

def copying : Trial := setting (.assignment ⟨"y", .localIn "set", .named "int256"⟩ (.var setParameter))

theorem copying_denotations : copying.denotations =
    some ⟨some setParameter, [some (.var "p0" .int)], [(.finished, some (.var "p0" .int))]⟩ := by
  decide +kernel

theorem copied_parameter_denotes_argument : ∃ prepared paths final, copying.outcome? = some (prepared, paths, final) ∧
    (∀ start ∈ prepared.paths, ∀ opts r, Registrations (fun _ => True) start r.path →
      result (selector prepared.subject opts (.funcParam 0)) r = .ok (some (.var "p0" .int))) ∧
    ∃ q ∈ final, q.status = .finished ∧ ∃ start ∈ prepared.paths, ∃ visited, ∃ p ∈ paths,
      FinishedBy (prepared.machine Trial.config) start visited p ∧
      ∀ s, LastBinds (prepared.machine Trial.config) setParameter.id visited s →
        ((prepared.machine Trial.config).stepOn s).2.bindings.get? setParameter.id =
          some (.term (.var "p0" .int)) := by
  obtain ⟨⟨prepared, paths, final⟩, ends, denoted⟩ := Option.map_eq_some_iff.mp copying_denotations
  obtain ⟨prepares, explores, completes⟩ := Trial.outcome_runs ends
  obtain ⟨parameter, _, after⟩ := Denotations.mk.inj denoted
  obtain ⟨denotes, meaning⟩ := parameter_denotes_argument_iff prepares explores completes parameter
    nofun
  refine ⟨prepared, paths, final, ends, denotes, ?_⟩
  obtain ⟨q, rest, rfl, finished, _⟩ := map_eq_cons_iff.mp after
  obtain ⟨ended, last⟩ := Prod.mk.inj finished
  obtain ⟨start, first, visited, p, among, finishes, _, iff⟩ := meaning q (mem_cons_self ..) ended
  refine ⟨q, mem_cons_self .., ended, start, first, visited, p, among, finishes, ?_⟩
  refine (iff {} (.start q) .refl).mp ?_
  unfold Subject.denoted at last
  cases gives : result (selector prepared.subject {} (.funcParam 0)) (.start q) with
  | error e =>
    rw [gives] at last
    cases last
  | ok t =>
    rw [gives] at last
    exact congrArg Except.ok last

/-- An assignment to the parameter takes its place: at the end the selector denotes the value that was assigned. -/
theorem assigned_parameter_denotes_value : (setting (.assignment setParameter (.const (.int 1)))).denotations =
    some ⟨some setParameter, [some (.var "p0" .int)], [(.finished, some (.int 1))]⟩ := by
  decide +kernel

end TokenAudit
