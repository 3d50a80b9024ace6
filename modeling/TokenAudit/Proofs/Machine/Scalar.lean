import TokenAudit.Proofs.Machine.Concrete
import TokenAudit.Proofs.Machine.Runs
import TokenAudit.Proofs.Term.Builders

/-!
# Scalar instructions

The instructions that only compute with single values, their typing, and the simulation of each of them.
-/

namespace TokenAudit

abbrev SortContext := VarId → Option SmtSort

namespace SortContext

def set (Γ : SortContext) (v : VarId) (s : SmtSort) : SortContext := fun w => if v = w then some s else Γ w

def operand (Γ : SortContext) : Operand → Option SmtSort
  | .const (.bool _) => some .bool
  | .const (.int _) => some .int
  | .const (.str _) => none
  | .var v => Γ v.id

end SortContext

def SmtSort.isTruth : SmtSort → Bool
  | .bool => true
  | .int => true
  | _ => false

def BinaryOp.resultSort (op : BinaryOp) (a b : SmtSort) : Option SmtSort :=
  match op with
  | .add | .sub | .mul => if a = .int ∧ b = .int then some .int else none
  | .lt | .gt | .le | .ge => if a = .int ∧ b = .int then some .bool else none
  | .eq | .ne => if a = b then some .bool else none
  | .and | .or => if a.isTruth ∧ b.isTruth then some .bool else none
  | _ => none

/-- A scalar instruction that assigns no reference, with the sorts before and after it.  A returned value
goes to `receiver`. -/
inductive Instruction.Scalar (links : Table VarId IndexLink) (receiver : Option Variable) :
    SortContext → Instruction → SortContext → Prop
  | assignment {Γ : SortContext} {target : Variable} {source : Operand}
      (sorted : Γ.operand source = some (.ofType target.type)) (direct : links.get? target.id = none) :
      Scalar links receiver Γ (.assignment target source) (Γ.set target.id (.ofType target.type))
  | binary {Γ : SortContext} {op : BinaryOp} {left right : Operand} {target : Variable} {checked : Bool}
      {a b : SmtSort} (leftSort : Γ.operand left = some a) (rightSort : Γ.operand right = some b)
      (rule : op.resultSort a b = some (.ofType target.type)) (direct : links.get? target.id = none) :
      Scalar links receiver Γ (.binary op left right target checked) (Γ.set target.id (.ofType target.type))
  | negation {Γ : SortContext} {source : Operand} {target : Variable} {a : SmtSort}
      (sorted : Γ.operand source = some a) (truth : a.isTruth = true)
      (result : SmtSort.ofType target.type = .bool) (direct : links.get? target.id = none) :
      Scalar links receiver Γ (.unary .not source target) (Γ.set target.id .bool)
  | check {Γ : SortContext} {function : String} {condition : Operand} {others : List Operand}
      {target : Option Variable} {a : SmtSort}
      (name : Machine.builtinName function = "require" ∨ Machine.builtinName function = "assert")
      (sorted : Γ.operand condition = some a) (truth : a.isTruth = true) :
      Scalar links receiver Γ (.builtinCall function (condition :: others) target) Γ
  | revert {Γ : SortContext} {function : String} {arguments : List Operand} {target : Option Variable}
      (name : Machine.builtinName function = "revert") :
      Scalar links receiver Γ (.builtinCall function arguments target) Γ
  | condition {Γ : SortContext} {value : Operand} : Scalar links receiver Γ (.condition value) Γ
  | returnNothing {Γ : SortContext} : Scalar links receiver Γ (.ret []) Γ
  | returnValue {Γ : SortContext} {value : Operand} {s : SmtSort} (sorted : Γ.operand value = some s) :
      Scalar links receiver Γ (.ret [value])
        (match receiver with
          | some target => Γ.set target.id s
          | none => Γ)

def Path.Models (p : Path) (Γ : SortContext) : Prop :=
  ∀ v s, Γ v = some s → ∃ t, p.bindings.get? v = some (.term t) ∧ t.HasSort s

def Path.receiver (p : Path) : Option Variable := p.stack.head?.bind Frame.target

namespace Path

variable {p q r : Path} {Γ : SortContext}

theorem Models.assume (models : p.Models Γ) (t : Term) : (p.assume t).Models Γ := models

theorem Models.bind (models : p.Models Γ) (v : VarId) {t : Term} {s : SmtSort} (sorted : t.HasSort s) :
    (p.bind v (.term t)).Models (Γ.set v s) := by
  intro w s' known
  simp only [Path.bind, Table.get?_insert]
  simp only [SortContext.set] at known
  split at known
  · rename_i same
    cases known
    exact ⟨t, by simp [same], sorted⟩
  · rename_i other
    obtain ⟨u, bound, hasSort⟩ := models w s' known
    exact ⟨u, by simp [other, bound], hasSort⟩

/-- A path after some instructions of a node: it only narrows what it has assumed. -/
structure Extends (p q : Path) : Prop where
  links : q.links = p.links
  stack : q.stack = p.stack
  loopCounts : q.loopCounts = p.loopCounts
  narrows : ∀ E : Env, E.Satisfies q.constraints → E.Satisfies p.constraints

theorem Extends.refl (p : Path) : p.Extends p := ⟨rfl, rfl, rfl, fun _ holds => holds⟩

theorem Extends.trans (first : p.Extends q) (second : q.Extends r) : p.Extends r :=
  ⟨second.links.trans first.links, second.stack.trans first.stack,
    second.loopCounts.trans first.loopCounts, fun E holds => first.narrows E (second.narrows E holds)⟩

theorem Extends.assume (before : p.Extends q) (t : Term) : p.Extends (q.assume t) :=
  ⟨before.links, before.stack, before.loopCounts,
    fun E holds => before.narrows E (Env.satisfies_push.mp holds).1⟩

end Path

variable {built : Except SortError Term} {op : BinaryOp} {b : SmtSort}

namespace Term

variable {s : SmtSort}

theorem Yields.term {admissible : Prop} {v : Env → Datum} (yields : ∀ E, Yields E built admissible s (v E))
    (admitted : admissible) : ∃ t, built = .ok t ∧ t.HasSort s ∧ ∀ E, t.eval E = v E := by
  obtain ⟨t, returned⟩ := (yields default).gives admitted
  exact ⟨t, returned, ((yields default).denotes t returned).hasSort,
    fun E => ((yields E).denotes t returned).eval_eq⟩

theorem truthy_term {t : Term} (sorted : t.HasSort s) (truth : s.isTruth = true) :
    ∃ c, truthy t = .ok c ∧ c.HasSort .bool ∧ ∀ E, c.eval E = .bool (t.eval E).truth := by
  refine Yields.term (fun E => truthy_yields sorted.1) ?_
  rw [sorted.2]
  cases s with
  | bool => exact .inl rfl
  | int => exact .inr rfl
  | str | array domain range => cases truth

end Term

namespace Machine

open Term BinaryOp

variable {s a : SmtSort} {l r : Term}

theorem binaryTerm_of_builder {v : Env → Datum} (builds : ∃ t, built = .ok t ∧ t.HasSort s ∧ ∀ E, t.eval E = v E) :
    ∃ t, built.map some = .ok (some t) ∧ t.HasSort s ∧ ∀ E, some (v E) = some (t.eval E) := by
  obtain ⟨t, rfl, sorted, value⟩ := builds
  exact ⟨t, rfl, sorted, fun E => by rw [value]⟩

theorem mkArith_term (op : ArithOp) (left : l.HasSort .int) (right : r.HasSort .int) :
    ∃ t, mkArith op l r = .ok t ∧ t.HasSort .int ∧
      ∀ E : Env, t.eval E = .int (E.arith op (l.eval E).toInt (r.eval E).toInt) :=
  Yields.term (fun _ => mkArith_yields op left.1 right.1) ⟨left.2, right.2⟩

theorem mkOrder_term (op : OrderOp) (left : l.HasSort .int) (right : r.HasSort .int) :
    ∃ t, mkOrder op l r = .ok t ∧ t.HasSort .bool ∧
      ∀ E : Env, t.eval E = .bool (op.holds (l.eval E).toInt (r.eval E).toInt) :=
  Yields.term (fun _ => mkOrder_yields op left.1 right.1) ⟨left.2, right.2⟩

theorem mkEq_term (left : l.HasSort a) (right : r.HasSort a) :
    ∃ t, mkEq l r = .ok t ∧ t.HasSort .bool ∧ ∀ E, t.eval E = .bool (decide (l.eval E = r.eval E)) := by
  have same : l.sort = r.sort := left.2.trans right.2.symm
  have yields := fun E => mkEq_yields (E := E) left.1 right.1
  rw [coercePair_of_sort same] at yields
  exact Yields.term yields same

theorem mkNe_term (left : l.HasSort a) (right : r.HasSort a) :
    ∃ t, mkNe l r = .ok t ∧ t.HasSort .bool ∧ ∀ E, t.eval E = .bool (decide (l.eval E ≠ r.eval E)) := by
  have same : l.sort = r.sort := left.2.trans right.2.symm
  have yields := fun E => mkNe_yields (E := E) left.1 right.1
  rw [coercePair_of_sort same] at yields
  exact Yields.term yields same

/-- A typed operator has a term, and the term means the operator. -/
theorem binaryTerm_denotes (left : l.HasSort a) (right : r.HasSort b)
    (rule : op.resultSort a b = some s) : ∃ t, binaryTerm op l r = .ok (some t) ∧ t.HasSort s ∧
      ∀ E, op.apply (l.eval E) (r.eval E) = some (t.eval E) := by
  cases op
  case add | sub | mul =>
    obtain ⟨⟨rfl, rfl⟩, rfl⟩ := by simpa [resultSort] using rule
    exact binaryTerm_of_builder (mkArith_term _ left right)
  case lt | gt | le | ge =>
    obtain ⟨⟨rfl, rfl⟩, rfl⟩ := by simpa [resultSort] using rule
    exact binaryTerm_of_builder (mkOrder_term _ left right)
  case eq =>
    obtain ⟨rfl, rfl⟩ := by simpa [resultSort] using rule
    exact binaryTerm_of_builder (mkEq_term left right)
  case ne =>
    obtain ⟨rfl, rfl⟩ := by simpa [resultSort] using rule
    exact binaryTerm_of_builder (mkNe_term left right)
  case and =>
    obtain ⟨⟨leftTruth, rightTruth⟩, rfl⟩ := by simpa [resultSort] using rule
    obtain ⟨c, condition, cSort, cValue⟩ := truthy_term left leftTruth
    obtain ⟨d, consequence, dSort, dValue⟩ := truthy_term right rightTruth
    have parts : ∀ t ∈ [c, d], t.HasSort .bool := by simp [cSort, dSort]
    have both := fun E => mkAnd_denotes (E := E) parts
    refine ⟨mkAnd [c, d], by simp only [binaryTerm, condition, consequence]; rfl, (both default).hasSort, ?_⟩
    intro E
    simp [(both E).eval_eq, apply, cValue, dValue]
  case or =>
    obtain ⟨⟨leftTruth, rightTruth⟩, rfl⟩ := by simpa [resultSort] using rule
    obtain ⟨c, condition, cSort, cValue⟩ := truthy_term left leftTruth
    obtain ⟨d, consequence, dSort, dValue⟩ := truthy_term right rightTruth
    have parts : ∀ t ∈ [c, d], t.HasSort .bool := by simp [cSort, dSort]
    have either := fun E => mkOr_denotes (E := E) parts
    refine ⟨mkOr [c, d], by simp only [binaryTerm, condition, consequence]; rfl, (either default).hasSort, ?_⟩
    intro E
    simp [(either E).eval_eq, apply, cValue, dValue]
  all_goals cases rule

end Machine

theorem Path.Models.operand {p : Path} {Γ : SortContext} {o : Operand} {s : SmtSort} (models : p.Models Γ)
    (sorted : Γ.operand o = some s) :
    ∃ t, (∀ c, p.valueOf c o = (.term t, p)) ∧ Machine.Runs (Machine.conditionTerm o) p t p ∧
      t.HasSort s ∧ ∀ E, (p.memory E).operand o = some (t.eval E) := by
  cases o with
  | const c =>
    refine ⟨c.term, fun _ => rfl, by simp [Machine.conditionTerm], ?_, fun E => by
      rw [Constant.eval_term]; rfl⟩
    cases c with
    | bool b | int i => cases sorted; exact ⟨trivial, rfl⟩
    | str text => cases sorted
  | var v =>
    obtain ⟨t, bound, hasSort⟩ := models v.id s sorted
    refine ⟨t, fun c => ?_, ?_, hasSort, fun E => ?_⟩
    · simp [valueOf, read, bound]
    · simp [Machine.conditionTerm, bound]
    · simp [Memory.operand, memory, bound, Value.content]

/-- In an environment, a result of the machine and the path it leaves are what an effect says. -/
def Matches (E : Env) (result : Option (List Successor)) (q : Path) : Effect → Prop
  | .continues m => result = none ∧ E.Satisfies q.constraints ∧ q.memory E = m
  | .leaves exit again m =>
    again = false ∧ E.Satisfies q.constraints ∧ q.memory E = m ∧
      ∃ ways, result = some ways ∧ openExits E ways = [exit]
  | .blocked => ¬ E.Satisfies q.constraints

/-- The machine runs `x` on a path, and in every environment of the path it does what `run` does to the
memory of the path.  The bindings have the sorts of `Γ` if the node is not left. -/
def Simulates (p : Path) (x : StepM (Option (List Successor))) (run : Memory → Option Effect)
    (Γ : SortContext) : Prop :=
  ∃ result q, Machine.Runs x p result q ∧ p.Extends q ∧ (result = none → q.Models Γ) ∧
    ∀ E : Env, E.Satisfies p.constraints →
      ∃ effect, run (p.memory E) = some effect ∧ Matches E result q effect

namespace Machine

variable {M : Machine} {p q : Path} {Γ : SortContext} {target : Variable} {u : Unit} {t c : Term}
  {x : StepM (Option (List Successor))} {run : Memory → Option Effect} {s a : SmtSort}
  {source condition value : Operand} {type : ContractType} {function : String} {others : List Operand} {v : Value}

theorem runs_recordOperands (quiet : M.tracking = {}) {operands : List Operand} :
    Runs (M.recordOperands target operands) p u q ↔ p = q := by
  simp [recordOperands, recordDependencies, quiet]

theorem runs_recordWrite (quiet : M.tracking = {}) : Runs (M.recordWrite target) p u q ↔ p = q := by
  simp [recordWrite, quiet]

theorem runs_assign_direct (direct : p.links.get? target.id = none) (sorted : t.HasSort (.ofType target.type)) :
    Runs (M.assign target (.term t)) p u q ↔ p.bind target.id (.term t) = q := by
  have fits : Term.fit (.ofType target.type) t = some t := by
    simp [Term.fit, Term.coerce_of_sort sorted.2, sorted.2]
  simp [assign, direct, fitted, fits]

theorem simulates_bind {v : VarId} (aliases : Table VarId (List VarId)) (models : p.Models Γ)
    (runs : Runs x p none ({ p with aliases := aliases }.bind v (.term t))) (sorted : t.HasSort s)
    (effect : ∀ E, run (p.memory E) = some (.continues ((p.memory E).set v (t.eval E)))) :
    Simulates p x run (Γ.set v s) := by
  refine ⟨none, _, runs, ⟨rfl, rfl, rfl, fun _ holds => holds⟩, fun _ => ?_, fun E holds => ?_⟩
  · have models' : { p with aliases := aliases }.Models Γ := models
    exact models'.bind v sorted
  · exact ⟨_, effect E, rfl, holds, Path.memory_bind⟩

theorem simulates_skip (models : p.Models Γ) (runs : Runs x p none p)
    (effect : ∀ E, run (p.memory E) = some (.continues (p.memory E))) : Simulates p x run Γ :=
  ⟨none, p, runs, .refl p, fun _ => models, fun E holds => ⟨_, effect E, rfl, holds, rfl⟩⟩

theorem assignment_simulates (quiet : M.tracking = {}) (models : p.Models Γ) (loc : Location)
    (sorted : Γ.operand source = some (.ofType target.type)) (direct : p.links.get? target.id = none) :
    Simulates p (M.exec loc (.assignment target source)) (·.exec loc (.assignment target source))
      (Γ.set target.id (.ofType target.type)) := by
  cases source with
  | const c =>
    obtain ⟨t, read, _, hasSort, value⟩ := models.operand sorted
    refine simulates_bind p.aliases models ?_ hasSort fun E => by simp [Memory.exec, value]
    simp [exec, assignment, runs_recordOperands quiet, runs_recordWrite quiet, read,
      runs_assign_direct direct hasSort]
  | var v =>
    -- the alias is noted before the operand is read
    have noted : (p.addAlias target.id v.id).Models Γ := models
    obtain ⟨t, read, _, hasSort, value⟩ := noted.operand sorted
    have before : ∀ E, (p.memory E).operand (.var v) = some (t.eval E) := value
    refine simulates_bind (p.addAlias target.id v.id).aliases models ?_ hasSort fun E => by
      simp [Memory.exec, before]
    simp [exec, assignment, runs_recordOperands quiet, runs_recordWrite quiet, read,
      runs_assign_direct (p := p.addAlias target.id v.id) direct hasSort]
    rfl

theorem negation_simulates (quiet : M.tracking = {}) (models : p.Models Γ) (loc : Location)
    (sorted : Γ.operand source = some a) (truth : a.isTruth = true) (result : SmtSort.ofType target.type = .bool)
    (direct : p.links.get? target.id = none) :
    Simulates p (M.exec loc (.unary .not source target)) (·.exec loc (.unary .not source target))
      (Γ.set target.id .bool) := by
  obtain ⟨t, read, _, hasSort, value⟩ := models.operand sorted
  obtain ⟨c, built, cSort, cValue⟩ := Term.truthy_term hasSort truth
  have negated := fun E => Term.mkNot_denotes (E := E) cSort
  have fits : (Term.mkNot c).HasSort (.ofType target.type) := result ▸ (negated default).hasSort
  refine simulates_bind p.aliases models ?runs (negated default).hasSort ?effect
  case runs =>
    simp [exec, unary, runs_recordOperands quiet, read, built, runs_assign_direct direct fits]
  case effect =>
    intro E
    simp [Memory.exec, value, (negated E).eval_eq, cValue]

theorem ofType_unsigned (unsigned : type.isUnsigned = true) : SmtSort.ofType type = .int := by
  cases type with
  | named n =>
    have notString : ContractType.isString (.named n) = false := by
      simp [ContractType.isString]
      rintro rfl
      exact absurd unsigned (by decide)
    have notBool : n ≠ "bool" := by
      rintro rfl
      exact absurd unsigned (by decide)
    simp [SmtSort.ofType, notString, SmtSort.stored, notBool]
  | mapping key value | array item size | tuple items => cases unsigned

theorem assumeUnsigned_cases (p : Path) (value : Value) (type : ContractType) :
    p.assumeUnsigned value type = p ∨
      ∃ x e, value = .term x ∧ Term.mkGe x .zero = .ok e ∧ p.assumeUnsigned value type = p.assume e := by
  unfold Path.assumeUnsigned
  split
  · split
    · split
      · rename_i x _ e built
        exact .inr ⟨x, e, rfl, built, rfl⟩
      · exact .inl rfl
    · exact .inl rfl
  · exact .inl rfl

theorem assumeUnsigned_eq (p : Path) (value : Value) (type : ContractType) :
    ∃ log, p.assumeUnsigned value type = { p with constraints := log } := by
  rcases assumeUnsigned_cases p value type with same | ⟨_, _, _, _, same⟩ <;> exact ⟨_, same⟩

theorem assumeUnsigned_holds (sorted : t.HasSort (.ofType type)) (E : Env) :
    E.Satisfies (p.assumeUnsigned (.term t) type).constraints ↔
      E.Satisfies p.constraints ∧ (type.isUnsigned && decide ((t.eval E).toInt < 0)) = false := by
  unfold Path.assumeUnsigned
  cases unsigned : type.isUnsigned with
  | false => simp
  | true =>
    rw [ofType_unsigned unsigned] at sorted
    obtain ⟨e, built, _, value⟩ := mkOrder_term .ge sorted (r := Term.zero) ⟨trivial, rfl⟩
    have bound : Term.mkGe t Term.zero = .ok e := built
    simp only [bound, if_true]
    rw [Path.assume, Env.satisfies_push, Env.Holds, value]
    simp [OrderOp.holds, Term.zero, Term.eval]

theorem binary_simulates (quiet : M.tracking = {}) (models : p.Models Γ) (loc : Location)
    {left right : Operand} {checked : Bool} (leftSort : Γ.operand left = some a)
    (rightSort : Γ.operand right = some b) (rule : op.resultSort a b = some (.ofType target.type))
    (direct : p.links.get? target.id = none) : Simulates p (M.exec loc (.binary op left right target checked))
      (·.exec loc (.binary op left right target checked)) (Γ.set target.id (.ofType target.type)) := by
  obtain ⟨l, readLeft, _, lSort, lValue⟩ := models.operand leftSort
  obtain ⟨r, readRight, _, rSort, rValue⟩ := models.operand rightSort
  obtain ⟨t, built, tSort, tValue⟩ := binaryTerm_denotes lSort rSort rule
  have effect : ∀ E, (p.memory E).exec loc (.binary op left right target checked) =
      some ((p.memory E).define target checked (t.eval E)) := by
    simp [Memory.exec, lValue, rValue, tValue]
  cases checked with
  | false =>
    refine simulates_bind p.aliases models ?_ tSort fun E => by rw [effect]; rfl
    simp [exec, binary, runs_recordOperands quiet, runs_recordWrite quiet, readLeft, readRight, built,
      runs_assign_direct direct tSort]
  | true =>
    have assumed := assumeUnsigned_holds (p := p) tSort
    obtain ⟨log, equal⟩ := assumeUnsigned_eq p (.term t) target.type
    rw [equal] at assumed
    have models' : { p with constraints := log }.Models Γ := models
    refine ⟨none, { p with constraints := log }.bind target.id (.term t), ?_, ?_, ?_, ?_⟩
    · simp [exec, binary, runs_recordOperands quiet, runs_recordWrite quiet, readLeft, readRight, built,
        equal, runs_assign_direct (p := { p with constraints := log }) direct tSort]
    · exact ⟨rfl, rfl, rfl, fun E holds => ((assumed E).mp holds).1⟩
    · exact fun _ => models'.bind target.id tSort
    · intro E holds
      refine ⟨_, effect E, ?_⟩
      unfold Memory.define
      cases negative : target.type.isUnsigned && decide ((t.eval E).toInt < 0) with
      | true =>
        simp only [Bool.true_and, negative, if_true]
        intro satisfied
        have positive := ((assumed E).mp satisfied).2
        rw [negative] at positive
        cases positive
      | false =>
        simp only [Bool.true_and, negative]
        exact ⟨rfl, (assumed E).mpr ⟨holds, negative⟩, Path.memory_bind⟩

theorem runs_checkedCondition (quiet : M.tracking = {}) (read : ∀ k, p.valueOf k condition = (.term t, p))
    (built : Term.truthy t = .ok c) (name : String) (others : List Operand) {u : Term} :
    Runs (M.checkedCondition name (condition :: others)) p u q ↔ c = u ∧ p = q := by
  simp [checkedCondition, quiet, read, built, and_comm]

theorem openExits_require {E : Env} {b : Bool} (sorted : c.HasSort .bool) (value : c.eval E = .bool b)
    (next : Location) :
    openExits E [.goto next (some c), .throws (some (Term.mkNot c))] =
      [if b then .goto next else .throws] := by
  have negated := (Term.mkNot_denotes (E := E) sorted).eval_eq
  cases b <;>
    simp [openExits, Successor.isOpen, Successor.constraint?, value, negated, Successor.exit]

theorem require_simulates (quiet : M.tracking = {}) (models : p.Models Γ) (loc : Location) {target : Option Variable}
    (name : builtinName function = "require") (sorted : Γ.operand condition = some a) (truth : a.isTruth = true) :
    Simulates p (M.exec loc (.builtinCall function (condition :: others) target))
      (·.exec loc (.builtinCall function (condition :: others) target)) Γ := by
  obtain ⟨t, read, _, hasSort, value⟩ := models.operand sorted
  obtain ⟨c, built, cSort, cValue⟩ := Term.truthy_term hasSort truth
  refine ⟨some [.goto loc.next (some c), .throws (some (Term.mkNot c))], p, ?_,
    .refl p, fun _ => models, fun E holds => ?_⟩
  · simp [exec, builtinCall, name, runs_checkedCondition quiet read built]
  · refine ⟨.leaves (if (t.eval E).truth then .goto loc.next else .throws) false
      (p.memory E), ?_, rfl, holds, rfl, _, rfl, openExits_require cSort (cValue E) _⟩
    simp [Memory.exec, name, value, Memory.check]

theorem assert_simulates (quiet : M.tracking = {}) (models : p.Models Γ) (loc : Location) {target : Option Variable}
    (name : builtinName function = "assert") (sorted : Γ.operand condition = some a) (truth : a.isTruth = true) :
    Simulates p (M.exec loc (.builtinCall function (condition :: others) target))
      (·.exec loc (.builtinCall function (condition :: others) target)) Γ := by
  obtain ⟨t, read, _, hasSort, value⟩ := models.operand sorted
  obtain ⟨c, built, cSort, cValue⟩ := Term.truthy_term hasSort truth
  refine ⟨none, p.assume c, ?_, (Path.Extends.refl p).assume c, fun _ => models.assume c, ?_⟩
  · simp [exec, builtinCall, name, runs_checkedCondition quiet read built]
  · intro E holds
    refine ⟨if (t.eval E).truth then .continues (p.memory E) else .blocked, ?_, ?_⟩
    · simp [Memory.exec, name, value, Memory.check]
    · have assumed : E.Satisfies (p.assume c).constraints ↔ (t.eval E).truth = true := by
        rw [Path.assume, Env.satisfies_push, Env.Holds, cValue]
        exact and_iff_right holds
      cases outcome : (t.eval E).truth with
      | true => exact ⟨rfl, assumed.mpr outcome, rfl⟩
      | false =>
        intro satisfied
        rw [assumed.mp satisfied] at outcome
        cases outcome

theorem revert_simulates (models : p.Models Γ) (loc : Location) {arguments : List Operand} {target : Option Variable}
    (name : builtinName function = "revert") :
    Simulates p (M.exec loc (.builtinCall function arguments target))
      (·.exec loc (.builtinCall function arguments target)) Γ := by
  refine ⟨some [.throws none], p, ?_, .refl p, fun _ => models, fun E holds => ?_⟩
  · simp [exec, builtinCall, name]
  · exact ⟨.leaves .throws false (p.memory E), by simp [Memory.exec, name], rfl, holds, rfl, _, rfl, rfl⟩

theorem runs_ret (read : ∀ k, p.valueOf k value = (v, p)) :
    Runs (M.ret [value]) p u q ↔ Runs (M.giveBack [value] v) p u q := by
  simp [ret, valuesOf, read]

def withResult (p : Path) (slot : Returned) : Path := { p with returned := some slot }

theorem runs_giveBack_result (outermost : p.stack = []) (same : ∀ E, (p.memory E).operand value = some (t.eval E)) :
    ∃ slot : Returned, Runs (M.giveBack [value] (.term t)) p () (withResult p slot) ∧
      ∀ E, slot.content E = .single (t.eval E) := by
  cases value with
  | const c =>
    refine ⟨.constant c, ?_, fun E => congrArg Content.single (Option.some.inj (same E))⟩
    simp only [giveBack, runs_bind, runs_get]
    refine ⟨p, p, ⟨rfl, rfl⟩, ?_⟩
    rw [outermost]
    exact runs_modify.mpr rfl
  | var v =>
    refine ⟨.symbolic (.term t), ?_, fun E => rfl⟩
    simp only [giveBack, runs_bind, runs_get]
    refine ⟨p, p, ⟨rfl, rfl⟩, ?_⟩
    rw [outermost]
    exact runs_modify.mpr rfl

theorem runs_giveBack_call (quiet : M.tracking = {}) {frame : Frame} {rest : List Frame}
    (inner : p.stack = frame :: rest) {values : List Operand} :
    Runs (M.giveBack values v) p u q ↔
      (match frame.target with
        | some target => p.bind target.id v
        | none => p) = q := by
  cases target : frame.target <;> simp [giveBack, inner, target, runs_recordOperands quiet]

theorem returnValue_simulates (quiet : M.tracking = {}) (models : p.Models Γ) (loc : Location)
    (sorted : Γ.operand value = some s) :
    Simulates p (M.exec loc (.ret [value])) (·.exec loc (.ret [value]))
      (match p.receiver with
        | some target => Γ.set target.id s
        | none => Γ) := by
  obtain ⟨t, read, _, hasSort, same⟩ := models.operand sorted
  have effect : ∀ E, (p.memory E).exec loc (.ret [value]) =
      some (.continues ((p.memory E).giveBack (t.eval E))) := by
    intro E
    simp [Memory.exec, same]
  cases stack : p.stack with
  | nil =>
    have nobody : p.receiver = none := by simp [Path.receiver, stack]
    obtain ⟨slot, runs, content⟩ := runs_giveBack_result (M := M) stack same
    rw [nobody]
    refine ⟨none, withResult p slot, ?_, ⟨rfl, rfl, rfl, fun _ holds => holds⟩, fun _ => models,
      fun E holds => ?_⟩
    · exact runs_bind.mpr ⟨(), _, (runs_ret read).mpr runs, by simp⟩
    · refine ⟨_, effect E, rfl, holds, ?_⟩
      simp [Memory.giveBack, Path.memory, withResult, stack, content]
  | cons frame rest =>
    have receives : p.receiver = frame.target := by simp [Path.receiver, stack]
    rw [receives]
    cases target : frame.target with
    | some target =>
      refine simulates_bind p.aliases models ?_ hasSort fun E => ?_
      · simp [exec, runs_ret read, runs_giveBack_call quiet stack, target]
      · rw [effect]
        simp [Memory.giveBack, Path.memory, stack, target]
    | none =>
      refine simulates_skip models ?_ fun E => ?_
      · simp [exec, runs_ret read, runs_giveBack_call quiet stack, target]
      · rw [effect]
        simp [Memory.giveBack, Path.memory, stack, target]

theorem exec_simulates (quiet : M.tracking = {}) (models : p.Models Γ) (loc : Location) {i : Instruction}
    {Γ' : SortContext} (scalar : Instruction.Scalar p.links p.receiver Γ i Γ') :
    Simulates p (M.exec loc i) (·.exec loc i) Γ' := by
  cases scalar with
  | assignment sorted direct => exact assignment_simulates quiet models loc sorted direct
  | binary leftSort rightSort rule direct =>
    exact binary_simulates quiet models loc leftSort rightSort rule direct
  | negation sorted truth result direct => exact negation_simulates quiet models loc sorted truth result direct
  | check name sorted truth =>
    rcases name with require | assert
    · exact require_simulates quiet models loc require sorted truth
    · exact assert_simulates quiet models loc assert sorted truth
  | revert name => exact revert_simulates models loc name
  | condition => exact simulates_skip models (by simp [exec]) fun E => rfl
  | returnNothing => exact simulates_skip models (by simp [exec, ret, valuesOf]) fun E => rfl
  | returnValue sorted => exact returnValue_simulates quiet models loc sorted

end Machine

end TokenAudit
