import TokenAudit.Proofs.Machine.Steps

/-!
# Performed instructions

The path goes through the instructions of a step as through a chain.
-/

namespace TokenAudit

structure Performed where
  before : Path
  instruction : Instruction
  after : Path

namespace Machine

variable {M : Machine} {p q r s : Path} {loc : Location} {instructions : List Instruction} {d : Performed}

/-- The instructions that are run from `loc` on, up to the one that ends the run or fails. -/
def performedFrom (M : Machine) : Location → List Instruction → Path → List Performed
  | _, [], _ => []
  | loc, i :: rest, p =>
    match (M.exec loc i).run p with
    | (.ok none, q) => ⟨p, i, q⟩ :: M.performedFrom loc.next rest q
    | (.ok (some _), q) => [⟨p, i, q⟩]
    | _ => []

def performedAt (M : Machine) (loc : Location) (n : Node) (p : Path) : List Performed :=
  if n.kind == .throw then []
  else
    match (declareAt n loc.offset).run (counted p) with
    | (.ok _, q) => M.performedFrom loc (n.instructions.drop loc.offset) q
    | _ => []

def performedIn (M : Machine) (p : Path) : List Performed :=
  match p.location with
  | none => []
  | some loc =>
    match (M.program.function? loc.function).bind (·.node? loc.node) with
    | none => []
    | some n => M.performedAt loc n p

def performedOn (M : Machine) (beyond : Bool) (n : Nat) (choices : List Nat) (p : Path) : List Performed :=
  (M.walk beyond n choices p).1.flatMap fun stride => M.performedIn stride.before

theorem performedFrom_runs (performed : d ∈ M.performedFrom loc instructions p) :
    d.instruction ∈ instructions ∧ ∃ at_loc result, Runs (M.exec at_loc d.instruction) d.before result d.after := by
  induction instructions generalizing loc p with
  | nil => cases performed
  | cons i rest ih =>
    rw [performedFrom] at performed
    split at performed
    · rename_i q runs
      rcases List.mem_cons.mp performed with rfl | later
      · exact ⟨List.mem_cons_self .., loc, none, runs⟩
      · exact (ih later).imp_left (List.mem_cons_of_mem _)
    · rename_i ways q runs
      rw [List.mem_singleton.mp performed]
      exact ⟨List.mem_cons_self .., loc, some ways, runs⟩
    · cases performed

theorem performedIn_cases (performed : d ∈ M.performedIn p) :
    ∃ loc f n u q, p.location = some loc ∧ M.program.function? loc.function = some f ∧ f.node? loc.node = some n ∧
      Runs (declareAt n loc.offset) (counted p) u q ∧ d ∈ M.performedFrom loc (n.instructions.drop loc.offset) q := by
  unfold performedIn at performed
  split at performed
  · cases performed
  · rename_i loc located
    split at performed
    · cases performed
    · rename_i n found
      obtain ⟨f, known, listed⟩ := Option.bind_eq_some_iff.mp found
      unfold performedAt at performed
      split at performed
      · cases performed
      · split at performed
        · rename_i u q declares
          exact ⟨loc, f, n, u, q, located, known, listed, declares, performed⟩
        · cases performed

theorem performedOn_runs {beyond : Bool} {n : Nat} {choices : List Nat}
    (performed : d ∈ M.performedOn beyond n choices p) :
    ∃ loc result, Runs (M.exec loc d.instruction) d.before result d.after := by
  obtain ⟨stride, _, performed⟩ := List.mem_flatMap.mp performed
  obtain ⟨_, _, _, _, _, _, _, _, _, performed⟩ := performedIn_cases performed
  exact (performedFrom_runs performed).2

inductive Chain (M : Machine) : List Performed → Path → Path → Prop
  | done (p : Path) : Chain M [] p p
  | deed {loc : Location} {i : Instruction} {result : Option (List Successor)} {p q r : Path}
      {later : List Performed} (runs : Runs (M.exec loc i) p result q) (rest : Chain M later q r) :
      Chain M (⟨p, i, q⟩ :: later) p r

theorem execAll_chain {result : Option (List Successor)} (runs : Runs (M.execAll loc instructions) p result q) :
    Chain M (M.performedFrom loc instructions p) p q := by
  induction instructions generalizing loc p with
  | nil =>
    obtain ⟨_, rfl⟩ := runs_pure.mp runs
    exact .done p
  | cons i rest ih =>
    obtain ⟨found, r, executes, runs⟩ := runs.of_bind
    have ran : (M.exec loc i).run p = (.ok found, r) := executes
    rw [performedFrom, ran]
    cases found with
    | some ways =>
      obtain ⟨_, rfl⟩ := runs_pure.mp runs
      exact .deed executes (.done r)
    | none => exact .deed executes (ih runs)

/-- A step counts, declares the variable of its node, runs the instructions in turn and leaves the node, where
a node that throws does nothing of it and an instruction that ends the run of its node leaves it. -/
inductive Stepped (M : Machine) (p : Path) (ways : List Successor) (q : Path) : Prop
  | through {loc : Location} {f : Function} {n : Node} {opened closed : Path} (located : p.location = some loc)
      (known : M.program.function? loc.function = some f) (found : f.node? loc.node = some n)
      (declares : opened = counted p ∨ ∃ u, Runs (declareAt n loc.offset) (counted p) u opened)
      (performs : Chain M (M.performedIn p) opened closed)
      (leaves : closed = q ∨ Runs (M.leave loc.function f n) closed ways q) : Stepped M p ways q

theorem step_stepped {ways : List Successor} (runs : Runs M.step p ways q) : Stepped M p ways q := by
  obtain ⟨loc, f, n, located, known, found, runs⟩ := step_cases runs
  have performed : M.performedIn p = M.performedAt loc n p := by
    unfold performedIn
    rw [located]
    dsimp only
    rw [known, Option.bind_some, found]
  obtain ⟨_, r, counts, runs⟩ := runs.of_bind
  have counts : counted p = r := runs_modify.mp counts
  subst counts
  unfold performedAt at performed
  split at runs
  · rename_i throws
    obtain ⟨_, rfl⟩ := runs_pure.mp runs
    rw [if_pos throws] at performed
    exact .through located known found (.inl rfl) (performed ▸ .done (counted p)) (.inl rfl)
  · rename_i passable
    rw [if_neg passable] at performed
    obtain ⟨u, r, declares, runs⟩ := runs.of_bind
    obtain ⟨result, s, executes, runs⟩ := runs.of_bind
    have ran : (declareAt n loc.offset).run (counted p) = (.ok u, r) := declares
    rw [ran] at performed
    have chain : Chain M (M.performedIn p) r s := performed ▸ execAll_chain executes
    cases result with
    | some ways' =>
      obtain ⟨_, rfl⟩ := runs_pure.mp runs
      exact .through located known found (.inr ⟨u, declares⟩) chain (.inl rfl)
    | none => exact .through located known found (.inr ⟨u, declares⟩) chain (.inr runs)

end Machine

end TokenAudit
