import TokenAudit.Proofs.Machine.Composition

/-!
# Names and the symbols made of them

Where names have no hash, the symbols of variables have none, so that no value is mistaken for a fact.
-/

namespace TokenAudit

open List

def Instruction.variables (i : Instruction) : List Variable := i.bound?.toList ++ i.sees

def Instruction.calledName? : Instruction → Option String
  | .highLevelCall _ callee _ _ => some callee.name
  | _ => none

def Node.variables (n : Node) : List Variable := n.declared.toList ++ n.instructions.flatMap Instruction.variables

def Function.parameters (f : Function) : List Variable := (List.range f.params.length).filterMap f.param?

def Function.variables (f : Function) : List Variable := f.parameters ++ f.nodes.flatMap Node.variables

def Contract.stateNames (c : Contract) : List Variable := c.stateVariables.map fun sv => .ofState sv.name sv.type

def Program.variables (program : Program) : List Variable :=
  program.contracts.flatMap fun c => c.stateNames ++ c.functions.flatMap Function.variables

def Program.calledNames (program : Program) : List String :=
  program.contracts.flatMap fun c => c.functions.flatMap fun f => f.instructions.filterMap Instruction.calledName?

theorem Function.mem_parameters {f : Function} {v : Variable} : v ∈ f.parameters ↔ ∃ k, f.param? k = some v := by
  unfold parameters
  rw [mem_filterMap]
  constructor
  · rintro ⟨k, _, param⟩
    exact ⟨k, param⟩
  · rintro ⟨k, param⟩
    obtain ⟨_, listed, _⟩ := Option.map_eq_some_iff.mp param
    exact ⟨k, mem_range.mpr (List.getElem?_eq_some_iff.mp listed).1, param⟩

namespace Program

variable {program : Program} {c : Contract} {f : Function} {n : Node} {i : Instruction} {v : Variable} {id : FnId}

theorem listed_of_function (known : program.function? id = some f) : ∃ c ∈ program.contracts, f ∈ c.functions := by
  unfold function? at known
  split at known
  · rename_i c listed
    exact ⟨c, mem_of_getElem? listed, mem_of_getElem? known⟩
  · cases known

theorem mem_variables_of_state (contract : c ∈ program.contracts) (among : v ∈ c.stateNames) : v ∈ program.variables :=
  mem_flatMap.mpr ⟨c, contract, mem_append_left _ among⟩

section

variable (known : program.function? id = some f)

include known

theorem mem_variables_of_function (among : v ∈ f.variables) : v ∈ program.variables := by
  obtain ⟨c, contract, listed⟩ := listed_of_function known
  exact mem_flatMap.mpr ⟨c, contract, mem_append_right _ (mem_flatMap.mpr ⟨f, listed, among⟩)⟩

theorem mem_variables_of_parameter {k : Nat} (param : f.param? k = some v) : v ∈ program.variables :=
  mem_variables_of_function known (mem_append_left _ (Function.mem_parameters.mpr ⟨k, param⟩))

theorem mem_variables_of_node (listed : n ∈ f.nodes) (among : v ∈ n.variables) : v ∈ program.variables :=
  mem_variables_of_function known (mem_append_right _ (mem_flatMap.mpr ⟨n, listed, among⟩))

theorem mem_variables_of_instruction (listed : n ∈ f.nodes)
    (here : i ∈ n.instructions) (among : v ∈ i.variables) : v ∈ program.variables :=
  mem_variables_of_node known listed (mem_append_right _ (mem_flatMap.mpr ⟨i, here, among⟩))

theorem mem_calledNames (listed : n ∈ f.nodes) (here : i ∈ n.instructions)
    {name : String} (calls : i.calledName? = some name) : name ∈ program.calledNames := by
  obtain ⟨c, contract, among⟩ := listed_of_function known
  refine mem_flatMap.mpr ⟨c, contract, mem_flatMap.mpr ⟨f, among, mem_filterMap.mpr ⟨i, ?_, calls⟩⟩⟩
  exact mem_flatMap.mpr ⟨n, listed, here⟩

end

end Program

def VarId.Tidy (v : VarId) : Prop := '#' ∉ v.name.toList ∧ ∀ f ∈ v.scope.function?, '#' ∉ f.toList

instance (v : VarId) : Decidable v.Tidy :=
  inferInstanceAs (Decidable ('#' ∉ v.name.toList ∧ ∀ f ∈ v.scope.function?, '#' ∉ f.toList))

theorem Path.hash_notMem_symbolBase (p : Path) {v : VarId} (tidy : v.Tidy) : '#' ∉ (p.symbolBase v).toList := by
  obtain ⟨named, owned⟩ := tidy
  have qualified : '#' ∉ ((v.scope.function?).getD "" ++ "." ++ v.name).toList := by
    cases owner : v.scope.function? with
    | none => simp [named]
    | some f => simp [named, owned f owner]
  unfold symbolBase
  split
  · split
    · simp
    · exact qualified
  · exact named
  · exact named
  · exact qualified

theorem symbolFor_term {name : String} {type : ContractType} {t : Term} (symbol : symbolFor name type = .term t) :
    ∃ s, t = .var name s := by
  cases type with
  | tuple items =>
    cases symbol
  | _ =>
    cases symbol
    exact ⟨_, rfl⟩

mutual

theorem symbolFor_clear : ∀ {name : String} (type : ContractType), '#' ∉ name.toList →
    (symbolFor name type).All Term.Clear
  | name, .tuple items, plain => by
    rw [symbolFor]
    exact .tuple (symbolsFor_clear 0 items plain)
  | name, .named _, plain => .term ⟨.var (Term.plain_of_unhashed plain _), trivial⟩
  | name, .mapping _ _, plain => .term ⟨.var (Term.plain_of_unhashed plain _), trivial⟩
  | name, .array _ _, plain => .term ⟨.var (Term.plain_of_unhashed plain _), trivial⟩

theorem symbolsFor_clear : ∀ {name : String} (i : Nat) (items : List ContractType), '#' ∉ name.toList →
    ∀ x ∈ symbolsFor name i items, x.All Term.Clear
  | name, i, [], plain => by simp [symbolsFor]
  | name, i, t :: rest, plain => by
    rw [symbolsFor]
    refine forall_mem_cons.mpr ⟨symbolFor_clear t ?_, symbolsFor_clear (i + 1) rest plain⟩
    simp [plain]

end

end TokenAudit
