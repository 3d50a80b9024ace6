import TokenAudit.Proofs.Machine.Composition

/-!
# What an instruction can do

Every instruction is a sequence of changes to the parts it touches that at most ends by entering a function
(`Executed`).
-/

namespace TokenAudit

namespace Machine

variable {K : Part → Prop} {M : Machine}

theorem changing : Compositional K (Changes K) fun _ => Always (Changes K) where
  changes := id
  ok := always_pure
  fail _ := always_throw _
  look _ next := .bind always_get next
  change changes _ := always_modifyGet changes
  seq first next _ _ _ runs := by
    obtain ⟨_, _, before, after⟩ := runs.of_bind
    exact (first before).trans (next before after)

theorem termOf_changes (operand : Operand) : Always (Changes K) (M.termOf operand) :=
  (changing.operates.termOf fun _ _ => trivial).1

theorem redefine_changes (v : Variable) : Always (Changes K) (redefine v) :=
  always_modifyGet fun p => .single (.redefine p v)

theorem recordOperands_changes (target : Variable) (operands : List Operand) :
    Always (Changes K) (M.recordOperands target operands) :=
  (changing.operates.recordOperands target operands).1

theorem assign_changes (target : Variable) (value : Value) : Always (Changes K) (M.assign target value) :=
  (changing.operates.assign (fun _ _ _ _ _ _ => ⟨trivial, trivial, trivial⟩) trivial (Value.all_true value)).1

theorem declareAt_changes (M : Machine) (n : Node) (offset : Nat) : Always (Changes K) (declareAt n offset) :=
  (changing.operates (M := M)).declared (fun _ _ _ _ => trivial) |>.1

/-- What the instruction `i` at `loc` leaves of the path `p`, and the ways it opens. -/
inductive Executed (M : Machine) (loc : Location) (i : Instruction) (p : Path) :
    Option (List Successor) → Path → Prop
  | passed {q : Path} (changes : Changes (· ∈ i.touches) p q) : Executed M loc i p none q
  | checked {q : Path} (cond : Term) (changes : Changes (· ∈ i.touches) p q) :
      Executed M loc i p
        (some [.goto loc.next (some cond), .throws (some (Term.mkNot cond))]) q
  | reverted {q : Path} (changes : Changes (· ∈ i.touches) p q) : Executed M loc i p (some [.throws none]) q
  | entered {q : Path} {callee : FnId} {f : Function} {target : Option Variable}
      (calls : M.callee? i = some callee) (known : M.program.function? callee = some f)
      (changes : Changes (· ∈ i.touches) p q) (body : f.nodes ≠ []) :
      Executed M loc i p (some [.goto (.start callee f.entry) none])
        { q with stack := ⟨loc.next, target⟩ :: q.stack }

section

variable {p q : Path} {result : Option (List Successor)} {loc : Location} {i : Instruction} {arguments : List Operand}
  {target : Option Variable}

theorem Always.passed {β : Type} {x : StepM β} (always : Always (Changes (· ∈ i.touches)) x)
    (runs : Runs (do let _ ← x; pure none) p result q) : Executed M loc i p result q := by
  obtain ⟨_, r, before, ends⟩ := runs.of_bind
  obtain ⟨rfl, rfl⟩ := runs_pure.mp ends
  exact .passed (always before)

theorem builtinCall_executed (touched : .checks ∈ i.touches) {function : String}
    (runs : Runs (M.builtinCall loc function arguments target) p result q) : Executed M loc i p result q := by
  unfold builtinCall at runs
  dsimp only at runs
  split at runs
  · obtain ⟨cond, r, reads, ends⟩ := runs.of_bind
    obtain ⟨rfl, rfl⟩ := runs_pure.mp ends
    exact .checked cond ((changing.operates.checkedCondition touched _ fun _ _ => trivial).1 reads)
  · split at runs
    · obtain ⟨cond, r, reads, runs⟩ := runs.of_bind
      obtain ⟨_, s, assumes, ends⟩ := runs.of_bind
      obtain ⟨rfl, rfl⟩ := runs_pure.mp ends
      exact .passed
        (((changing.operates.checkedCondition touched _ fun _ _ => trivial).1 reads).trans
          ((changing.operates.assumes (M := M) trivial).1 assumes))
    · split at runs
      · obtain ⟨rfl, rfl⟩ := runs_pure.mp runs
        exact .reverted .refl
      · exact (changing.operates.builtinValue _ (fun _ _ => trivial) fun _ _ => trivial).1.passed runs

theorem enter_executed (touched : .calls ∈ i.touches) {callee : FnId} (calls : M.callee? i = some callee)
    (runs : Runs (M.enter loc callee arguments target) p result q) : Executed M loc i p result q := by
  unfold enter at runs
  split at runs
  · exact (runs_throw runs).elim
  · rename_i f known
    -- what is left once the arguments are passed and the target has its symbol
    have goes : ∀ {r : Path}, Changes (· ∈ i.touches) p r → Runs (if f.nodes.isEmpty then pure none else do
        modify fun p => { p with stack := ⟨loc.next, target⟩ :: p.stack }
        pure (some [.goto (.start callee f.entry) none]) : StepM (Option (List Successor))) r result q →
        Executed M loc i p result q := by
      intro r changes runs
      split at runs
      · obtain ⟨rfl, rfl⟩ := runs_pure.mp runs
        exact .passed changes
      · rename_i body
        obtain ⟨_, s, pushes, ends⟩ := runs.of_bind
        obtain ⟨rfl, rfl⟩ := runs_pure.mp ends
        rw [← runs_modify.mp pushes]
        exact .entered calls known changes (body ∘ List.isEmpty_iff.mpr)
    obtain ⟨_, r, visits, runs⟩ := runs.of_bind
    obtain ⟨_, s, passes, runs⟩ := runs.of_bind
    have changes : Changes (· ∈ i.touches) p s :=
      .trans (always_modify (fun p => .single (.call p _ _ _ touched)) visits)
        ((changing.operates.passArguments _ (fun _ _ _ => trivial) fun _ _ => trivial).1 passes)
    cases target with
    | none => exact goes changes runs
    | some t =>
      obtain ⟨_, u, defines, runs⟩ := runs.of_bind
      exact goes (changes.trans (redefine_changes t defines)) runs

theorem passing_executed (passes : i.passes = true) (runs : Runs (M.exec loc i) p result q) :
    Executed M loc i p result q := by
  have admits : Upkeep.Allows Any (Changes (· ∈ i.touches)) Any Any M Any loc i :=
    changing.admits (fun _ => id) fun calls => by
      cases i <;> first | exact absurd rfl calls | cases passes
  obtain ⟨β, Q, x, same, always⟩ := changing.operates.exec_passes (fun _ => id) admits passes
  rw [same] at runs
  exact Always.passed always.1 runs

theorem exec_executed (runs : Runs (M.exec loc i) p result q) : Executed M loc i p result q := by
  cases i with
  | builtinCall function arguments target => exact builtinCall_executed (List.mem_singleton_self _) runs
  | internalCall function arguments target | libraryCall library function arguments target =>
    simp only [exec] at runs
    split at runs
    · rename_i callee resolved
      exact enter_executed (List.mem_singleton_self _) resolved runs
    · exact (runs_throw runs).elim
  | _ => exact passing_executed rfl runs

theorem Executed.lift {R : Path → Path → Prop} [Std.Refl R] [Trans R R R]
    (holds : ∀ p q, Change (· ∈ i.touches) p q → R p q)
    (stack : ∀ (p : Path) frames, R p { p with stack := frames }) (executed : Executed M loc i p result q) :
    R p q := by
  cases executed with
  | passed changes | checked cond changes | reverted changes => exact changes.lift holds
  | entered calls known changes => exact Trans.trans (changes.lift holds) (stack _ _)

theorem Executed.changes (executed : Executed M loc i p none q) : Changes (· ∈ i.touches) p q := by
  cases executed with
  | passed changes => exact changes

end

end Machine

end TokenAudit
