import TokenAudit.Proofs.Machine.Changes

/-!
# Ill-typed instructions

No term is made of operands that a builder refuses: the instruction fails, or the symbol of the next definition of its
target takes the place of the term.
-/

namespace TokenAudit

open Term

namespace Path

variable {p q r : Path}

structure Steady (p q : Path) : Prop where
  links : q.links = p.links
  versions : q.versions = p.versions
  entryName : q.entryName = p.entryName

theorem Steady.trans (first : p.Steady q) (second : q.Steady r) : p.Steady r :=
  ⟨second.links.trans first.links, second.versions.trans first.versions, second.entryName.trans first.entryName⟩

theorem Steady.redefine (steady : p.Steady q) (v : Variable) : (q.redefine v).1 = (p.redefine v).1 := by
  unfold Path.redefine
  rw [steady.versions, symbolBase_congr steady.entryName]

theorem redefine_bound {v : Variable} {value : Value} (defines : p.redefine v = (value, q)) :
    q.bindings.get? v.id = some value := by
  cases defines
  simp

theorem read_steady (p : Path) (c : Contract) (v : Variable) : p.Steady (p.read c v).2 := by
  have same := Machine.read_record p c v
  exact ⟨(congrArg Path.links same :), (congrArg Path.versions same :), (congrArg Path.entryName same :)⟩

theorem valueOf_steady (p : Path) (c : Contract) (o : Operand) : p.Steady (p.valueOf c o).2 := by
  cases o with
  | const k => exact ⟨rfl, rfl, rfl⟩
  | var v => exact p.read_steady c v

structure Alike (p q : Path) : Prop extends Steady p q where
  bindings : q.bindings = p.bindings

theorem Alike.refl (p : Path) : p.Alike p := ⟨⟨rfl, rfl, rfl⟩, rfl⟩

theorem Alike.trans (first : p.Alike q) (second : q.Alike r) : p.Alike r :=
  ⟨first.toSteady.trans second.toSteady, second.bindings.trans first.bindings⟩

instance : Std.Refl Alike := ⟨Alike.refl⟩

theorem Alike.read (alike : p.Alike q) (c : Contract) (v : Variable) :
    (q.read c v).1 = (p.read c v).1 ∧ (p.read c v).2.Alike (q.read c v).2 := by
  have symbol := symbolBase_congr alike.entryName v.id
  unfold Path.read
  rw [alike.bindings, symbol]
  split
  · exact ⟨rfl, alike⟩
  · obtain ⟨log, pinned⟩ := Machine.pinInitial_log p c v (symbolFor (p.symbolBase v.id) v.type)
    obtain ⟨log', pinned'⟩ := Machine.pinInitial_log q c v (symbolFor (p.symbolBase v.id) v.type)
    dsimp only
    rw [pinned, pinned']
    refine ⟨rfl, { alike with }, ?_⟩
    simp only [Path.bind, alike.bindings]

theorem Alike.operand (alike : p.Alike q) (c : Contract) (o : Operand) :
    (q.valueOf c o).1 = (p.valueOf c o).1 ∧ (p.valueOf c o).2.Alike (q.valueOf c o).2 := by
  cases o with
  | const k => exact ⟨rfl, alike⟩
  | var v => exact alike.read c v

theorem Alike.reads {c : Contract} {o : Operand} {x y : Value} (alike : p.Alike q) (value : (p.valueOf c o).1 = x)
    (reads : q.valueOf c o = (y, r)) : y = x ∧ p.Steady r ∧ (p.valueOf c o).2.Alike r := by
  obtain ⟨same, after⟩ := alike.operand c o
  have steady := q.valueOf_steady c o
  rw [reads] at same after steady
  exact ⟨same.trans value, alike.toSteady.trans steady, after⟩

theorem assumeUnsigned_alike (p : Path) (value : Value) (type : ContractType) :
    p.Alike (p.assumeUnsigned value type) := by
  obtain ⟨log, same⟩ := Machine.assumeUnsigned_eq p value type
  rw [same]
  exact ⟨⟨rfl, rfl, rfl⟩, rfl⟩

theorem noteWrite_alike (p : Path) (i : Nat) (name : String) (count : Bool) : p.Alike (p.noteWrite i name count) := by
  unfold noteWrite
  split <;> split <;> exact ⟨⟨rfl, rfl, rfl⟩, rfl⟩

theorem markUsedInCheck_alike (p : Path) (o : Operand) : p.Alike (p.markUsedInCheck o) := by
  obtain ⟨used, log, marked⟩ := Machine.markUsedInCheck_log p o
  rw [marked]
  exact ⟨⟨rfl, rfl, rfl⟩, rfl⟩

end Path

namespace Machine

variable {M : Machine} {p q : Path} {target : Variable} {name : String} {t array : Term} {r next : Path}
  {argument source : Operand} {rest : List Operand} {u : Unit} {loc : Location} {ways : Option (List Successor)}
  {i : Instruction}

theorem recordDependencies_alike (target : Variable) (vars : List Variable) :
    Always Path.Alike (M.recordDependencies target vars) :=
  recordDependencies_always (fun _ _ _ => ⟨⟨rfl, rfl, rfl⟩, rfl⟩) target vars

theorem recordOperands_alike (target : Variable) (operands : List Operand) :
    Always Path.Alike (M.recordOperands target operands) :=
  recordDependencies_alike target _

theorem recordWrite_alike (target : Variable) : Always Path.Alike (M.recordWrite target) :=
  recordWrite_always Path.noteWrite_alike target

/-- The instruction is to make a term of operands that its builder refuses. -/
inductive IllTyped (M : Machine) (p : Path) : Instruction → Prop
  | operator {op : BinaryOp} {left right : Operand} {target : Variable} {checked : Bool} {q : Path} {l r : Term}
      (first : p.valueOf M.contract left = (.term l, q)) (second : (q.valueOf M.contract right).1 = .term r)
      (refused : ∀ t, binaryTerm op l r ≠ .ok (some t)) : IllTyped M p (.binary op left right target checked)
  | negation {source : Operand} {target : Variable} {t : Term} (value : (p.valueOf M.contract source).1 = .term t)
      (refused : ∀ u, truthy t ≠ .ok u) : IllTyped M p (.unary .not source target)
  | conversion {target : Variable} {source : Operand} {t : Term} (value : (p.valueOf M.contract source).1 = .term t)
      (refused : fit (.ofType target.type) t = none) : IllTyped M p (.conversion target source)
  | assignment {target : Variable} {source : Operand} {t : Term} (unlinked : p.links.get? target.id = none)
      (value : (p.valueOf M.contract source).1 = .term t) (refused : fit (.ofType target.type) t = none) :
      IllTyped M p (.assignment target source)
  | cell {target : Variable} {source : Operand} {link : IndexLink} {t : Term}
      (linked : p.links.get? target.id = some link) (value : (p.valueOf M.contract source).1 = .term t)
      (refused : ∀ u, mkStore link.baseValue link.key t ≠ .ok u) : IllTyped M p (.assignment target source)
  | element {target base : Variable} {key : Operand} {q : Path} {array k : Term}
      (based : p.read M.contract base = (.term array, q)) (keyed : (q.valueOf M.contract key).1 = .term k)
      (refused : ∀ t, mkSelect array k ≠ .ok t) : IllTyped M p (.index target base key)
  | check {function : String} {argument : Operand} {rest : List Operand} {target : Option Variable} {t : Term}
      (checks : builtinName function = "require" ∨ builtinName function = "assert")
      (value : (p.valueOf M.contract argument).1 = .term t) (refused : ∀ u, truthy t ≠ .ok u) :
      IllTyped M p (.builtinCall function (argument :: rest) target)
  | size {target : Variable} {size : Operand} {rest : List Operand} {q : Path} {array t : Term}
      (fresh : p.redefine target = (.term array, q)) (value : (q.valueOf M.contract size).1 = .term t)
      (refused : ∀ u, mkEq (array.derived "length" .int) t ≠ .ok u) :
      IllTyped M p (.newArray target (size :: rest))
  | item {target : Variable} {before rest : List Operand} {item : Operand} {q r : Path} {array filled t : Term}
      (fresh : p.redefine target = (.term array, q)) (fills : Runs (M.storeItems 0 before array) q filled r)
      (value : (r.valueOf M.contract item).1 = .term t)
      (refused : ∀ u, mkStore filled (.int before.length) t ≠ .ok u) :
      IllTyped M p (.initArray target (before ++ item :: rest))

/-- The symbol of the next definition of `target` on `p` is its value on `q`, or was written through it where it is a
reference. -/
inductive Renewed (M : Machine) (target : Variable) (p q : Path) : Prop
  | bound (fresh : q.bindings.get? target.id = some (p.redefine target).1)
  | written {link : IndexLink} {r : Path} (linked : p.links.get? target.id = some link)
      (assigns : Runs (M.assign target (p.redefine target).1) r ⟨⟩ q)

theorem fit_symbolFor {type : ContractType} (symbol : symbolFor name type = .term t) :
    fit (.ofType type) t = some t := by
  have same : t.sort = .ofType type := by
    cases type <;> cases symbol <;> rfl
  unfold fit
  rw [coerce_of_sort same, if_pos same]

theorem assign_renewed (symbol : (p.redefine target).1 = .term t) (links : r.links = p.links)
    (assigns : Runs (M.assign target (.term t)) r ⟨⟩ q) : M.Renewed target p q := by
  cases found : p.links.get? target.id with
  | some link => exact .written found (symbol ▸ assigns)
  | none =>
    refine .bound ?_
    unfold assign fitted at assigns
    simp only [runs_bind, runs_get] at assigns
    obtain ⟨_, _, ⟨rfl, rfl⟩, assigns⟩ := assigns
    rw [links, found] at assigns
    simp only [runs_bind, runs_bindVar, fit_symbolFor symbol, runs_pure] at assigns
    obtain ⟨_, _, ⟨rfl, rfl⟩, rfl⟩ := assigns
    rw [symbol]
    simp [Path.bind]

theorem fitted_refused (refused : fit (.ofType target.type) t = none) {value : Value}
    (fits : Runs (fitted target (.term t)) p value q) : value = (p.redefine target).1 := by
  unfold fitted at fits
  simp only [refused, runs_redefine] at fits
  rw [fits]

theorem checkedCondition_refused (value : (p.valueOf M.contract argument).1 = .term t)
    (refused : ∀ u, truthy t ≠ .ok u) {cond : Term} :
    ¬ Runs (M.checkedCondition name (argument :: rest)) p cond q := by
  have reading {r : Path} (alike : p.Alike r) : ¬ Runs (do sorted (truthy (← M.termOf argument))) r cond q := by
    intro runs
    simp only [runs_bind, runs_termOf, runs_sorted] at runs
    obtain ⟨u, _, reads, built, rfl⟩ := runs
    cases (alike.reads value reads).1
    exact refused cond built
  intro runs
  unfold checkedCondition at runs
  dsimp only at runs
  split at runs
  · obtain ⟨_, _, marks, runs⟩ := runs.of_bind
    exact reading (runs_modify.mp marks ▸ p.markUsedInCheck_alike argument) runs
  · exact reading (.refl p) runs

theorem binary_refused {op : BinaryOp} {left right : Operand} {checked : Bool} {l r : Term}
    (first : p.valueOf M.contract left = (.term l, next)) (second : (next.valueOf M.contract right).1 = .term r)
    (refused : ∀ t, binaryTerm op l r ≠ .ok (some t)) (runs : Runs (M.binary op left right target checked) p u q) :
    M.Renewed target p q := by
  obtain ⟨_, p₁, records, runs⟩ := runs.of_bind
  obtain ⟨l', p₂, readLeft, runs⟩ := runs.of_bind
  obtain ⟨r', p₃, readRight, runs⟩ := runs.of_bind
  rw [runs_termOf] at readLeft readRight
  have noted := recordOperands_alike _ _ records
  -- both operands have the values they have before anything is recorded
  obtain ⟨same, steady, after⟩ := noted.reads (congrArg Prod.fst first) readLeft
  cases same
  rw [first] at after
  cases (after.reads second readRight).1
  have later := p₂.valueOf_steady M.contract right
  rw [readRight] at later
  have steady := steady.trans later
  dsimp only at runs
  split at runs
  · rename_i t built
    exact absurd built (refused t)
  · simp only [runs_bind, runs_redefine, runs_single] at runs
    obtain ⟨_, p₄, defines, value, _, ⟨rfl, rfl⟩, runs⟩ := runs
    have fresh : (p.redefine target).1 = .term value := by
      rw [← steady.redefine, defines]
    have links : (p₃.redefine target).2.links = p.links := steady.links
    rw [defines] at links
    have ends {r : Path} (alike : p₄.Alike r)
        (runs : Runs (do M.recordWrite target; M.assign target (.term value)) r u q) : M.Renewed target p q := by
      obtain ⟨_, s, writes, assigns⟩ := runs.of_bind
      exact assign_renewed fresh ((recordWrite_alike target writes).links.trans (alike.links.trans links)) assigns
    split at runs
    · obtain ⟨_, _, unsigned, runs⟩ := runs.of_bind
      exact ends (runs_modify.mp unsigned ▸ p₄.assumeUnsigned_alike _ _) runs
    · exact ends (.refl _) runs

theorem conversion_refused (value : (p.valueOf M.contract source).1 = .term t)
    (refused : fit (.ofType target.type) t = none) (runs : Runs (M.conversion target source) p u q) :
    M.Renewed target p q := by
  unfold conversion at runs
  simp only [runs_bind, runs_valueOf, runs_bindVar] at runs
  obtain ⟨_, p₁, records, _, p₂, reads, fresh, p₃, fits, rfl⟩ := runs
  obtain ⟨rfl, steady, _⟩ := (recordOperands_alike _ _ records).reads value reads
  refine .bound ?_
  rw [fitted_refused refused fits, steady.redefine]
  simp [Path.bind]

theorem assignment_reads (value : (p.valueOf M.contract source).1 = .term t)
    (runs : Runs (M.assignment target source) p u q) : ∃ r, p.Steady r ∧ Runs (M.assign target (.term t)) r u q := by
  have ends {r : Path} (alike : p.Alike r)
      (runs : Runs (do M.recordWrite target; M.assign target (← M.valueOf source)) r u q) :
      ∃ s, p.Steady s ∧ Runs (M.assign target (.term t)) s u q := by
    simp only [runs_bind, runs_valueOf] at runs
    obtain ⟨_, r₁, writes, x, r₂, reads, assigns⟩ := runs
    obtain ⟨rfl, steady, _⟩ := (alike.trans (recordWrite_alike target writes)).reads value reads
    exact ⟨r₂, steady, assigns⟩
  obtain ⟨_, p₁, records, runs⟩ := runs.of_bind
  have noted := recordOperands_alike _ _ records
  split at runs
  · obtain ⟨_, p₂, aliases, runs⟩ := runs.of_bind
    have aliased : p₁.Alike p₂ := runs_modify.mp aliases ▸ ⟨⟨rfl, rfl, rfl⟩, rfl⟩
    exact ends (noted.trans aliased) runs
  · exact ends noted runs

theorem assignment_refused (unlinked : p.links.get? target.id = none)
    (value : (p.valueOf M.contract source).1 = .term t) (refused : fit (.ofType target.type) t = none)
    (runs : Runs (M.assignment target source) p u q) : M.Renewed target p q := by
  obtain ⟨r, steady, assigns⟩ := assignment_reads value runs
  unfold assign at assigns
  simp only [runs_bind, runs_get] at assigns
  obtain ⟨_, _, ⟨rfl, rfl⟩, assigns⟩ := assigns
  rw [steady.links, unlinked] at assigns
  simp only [runs_bind, runs_bindVar] at assigns
  obtain ⟨fresh, _, fits, rfl⟩ := assigns
  refine .bound ?_
  rw [fitted_refused refused fits, steady.redefine]
  simp [Path.bind]

theorem cell_refused {link : IndexLink} (linked : p.links.get? target.id = some link)
    (value : (p.valueOf M.contract source).1 = .term t) (refused : ∀ u, mkStore link.baseValue link.key t ≠ .ok u) :
    ¬ Runs (M.assignment target source) p u q := by
  intro runs
  obtain ⟨r, steady, assigns⟩ := assignment_reads value runs
  unfold assign at assigns
  simp only [runs_bind, runs_get] at assigns
  obtain ⟨_, _, ⟨rfl, rfl⟩, assigns⟩ := assigns
  rw [steady.links, linked] at assigns
  simp only [runs_bind, runs_single, runs_sorted] at assigns
  obtain ⟨_, _, ⟨same, rfl⟩, updated, _, ⟨built, _⟩, _⟩ := assigns
  cases same
  exact refused updated built

theorem index_refused {base : Variable} {key : Operand} {k : Term}
    (based : p.read M.contract base = (.term array, next)) (keyed : (next.valueOf M.contract key).1 = .term k)
    (refused : ∀ t, mkSelect array k ≠ .ok t) (runs : Runs (M.index target base key) p u q) :
    M.Renewed target p q := by
  unfold index at runs
  simp only [runs_bind, runs_get, runs_modify, runs_read, runs_single, runs_termOf] at runs
  obtain ⟨_, p₁, depends, _, _, ⟨rfl, rfl⟩, _, p₂, rooted, _, p₃, readBase, array', _, ⟨rfl, rfl⟩, key', p₄, readKey,
    runs⟩ := runs
  have noted : p.Alike p₂ :=
    (recordDependencies_alike _ _ depends).trans (rooted ▸ ⟨⟨rfl, rfl, rfl⟩, rfl⟩)
  obtain ⟨same, steady, after⟩ := noted.reads (o := .var base) (congrArg Prod.fst based) readBase
  cases same
  rw [show p.valueOf M.contract (.var base) = _ from based] at after
  cases (after.reads keyed readKey).1
  have later := p₃.valueOf_steady M.contract key
  rw [readKey] at later
  have steady := steady.trans later
  split at runs
  · simp only [runs_bind, runs_modify, runs_redefine, runs_pure] at runs
    obtain ⟨_, _, rfl, _, _, defines, _, rfl⟩ := runs
    refine .bound ?_
    rw [Path.redefine_bound defines, ← steady.redefine]
    exact congrArg some (congrArg Prod.fst defines).symm
  · rename_i t built
    exact absurd built (refused t)

theorem negation_refused (value : (p.valueOf M.contract source).1 = .term t) (refused : ∀ u, truthy t ≠ .ok u) :
    ¬ Runs (M.unary .not source target) p u q := by
  intro runs
  unfold unary at runs
  simp only [runs_bind, runs_termOf, runs_sorted] at runs
  obtain ⟨_, p₁, records, _, _, reads, cond, _, ⟨built, _⟩, _⟩ := runs
  cases ((recordOperands_alike _ _ records).reads value reads).1
  exact refused cond built

theorem check_refused {function : String} {given : Option Variable}
    (checks : builtinName function = "require" ∨ builtinName function = "assert")
    (value : (p.valueOf M.contract argument).1 = .term t) (refused : ∀ u, truthy t ≠ .ok u) :
    ¬ Runs (M.builtinCall loc function (argument :: rest) given) p ways q := by
  intro runs
  unfold builtinCall at runs
  have other : ("assert" == "require") = false := by decide
  rcases checks with name | name <;>
    simp only [name, other, beq_self_eq_true, if_true, Bool.false_eq_true, if_false] at runs
  all_goals
    obtain ⟨cond, _, holds, _⟩ := runs.of_bind
    exact checkedCondition_refused value refused holds

theorem newArray_refused {size : Operand} (fresh : p.redefine target = (.term array, next))
    (value : (next.valueOf M.contract size).1 = .term t)
    (refused : ∀ u, mkEq (array.derived "length" .int) t ≠ .ok u) :
    ¬ Runs (M.newArray target (size :: rest)) p u q := by
  intro runs
  unfold newArray at runs
  simp only [runs_bind, runs_redefine, runs_single, runs_termOf, runs_sorted] at runs
  obtain ⟨_, p₁, defines, array', _, ⟨rfl, rfl⟩, t', _, reads, equation, _, ⟨built, _⟩, _⟩ := runs
  rw [fresh] at defines
  cases defines
  rw [reads] at value
  cases value
  exact refused equation built

theorem storeItems_append (before rest : List Operand) (i : Nat) (array : Term) :
    M.storeItems i (before ++ rest) array =
      (do M.storeItems (i + before.length) rest (← M.storeItems i before array)) := by
  induction before generalizing i array with
  | nil => simp [storeItems]
  | cons o before ih =>
    have place : i + 1 + before.length = i + (o :: before).length := by
      simp only [List.length_cons]
      omega
    simp only [List.cons_append, storeItems, ih, bind_assoc, place]

theorem initArray_refused {before : List Operand} {item : Operand} {filled : Term}
    (fresh : p.redefine target = (.term array, next)) (fills : Runs (M.storeItems 0 before array) next filled r)
    (value : (r.valueOf M.contract item).1 = .term t)
    (refused : ∀ u, mkStore filled (.int before.length) t ≠ .ok u) :
    ¬ Runs (M.initArray target (before ++ item :: rest)) p u q := by
  intro runs
  unfold initArray at runs
  simp only [storeItems_append, storeItems, runs_bind, runs_redefine, runs_single, runs_termOf, runs_sorted] at runs
  obtain ⟨_, p₁, defines, array', _, ⟨rfl, rfl⟩, stored, _, ⟨filled', r', fills', t', _, reads, updated, _,
    ⟨built, _⟩, _⟩, _⟩ := runs
  rw [fresh] at defines
  cases defines
  obtain ⟨rfl, rfl⟩ := fills.unique fills'
  rw [reads] at value
  cases value
  rw [Nat.zero_add] at built
  exact refused updated built

theorem runs_done {x : StepM Unit} (runs : Runs (do x; pure none) p ways q) : Runs x p ⟨⟩ q := by
  obtain ⟨_, _, performs, ends⟩ := runs.of_bind
  obtain ⟨_, rfl⟩ := runs_pure.mp ends
  exact performs

theorem exec_refused (illTyped : M.IllTyped p i) (runs : Runs (M.exec loc i) p ways q) :
    ∃ target, i.target? = some target ∧ M.Renewed target p q := by
  cases illTyped with
  | operator first second refused => exact ⟨_, rfl, binary_refused first second refused (runs_done runs)⟩
  | negation value refused => exact absurd (runs_done runs) (negation_refused value refused)
  | conversion value refused => exact ⟨_, rfl, conversion_refused value refused (runs_done runs)⟩
  | assignment unlinked value refused => exact ⟨_, rfl, assignment_refused unlinked value refused (runs_done runs)⟩
  | cell linked value refused => exact absurd (runs_done runs) (cell_refused linked value refused)
  | element based keyed refused => exact ⟨_, rfl, index_refused based keyed refused (runs_done runs)⟩
  | check checks value refused => exact absurd runs (check_refused checks value refused)
  | size fresh value refused => exact absurd (runs_done runs) (newArray_refused fresh value refused)
  | item fresh fills value refused => exact absurd (runs_done runs) (initArray_refused fresh fills value refused)

theorem fails_or_runs {α : Type} (x : StepM α) (p : Path) :
    (∃ e q, outcome x p = (.error e, q)) ∨ ∃ a q, Runs x p a q := by
  cases ends : outcome x p with
  | mk result q =>
    cases result with
    | error e => exact .inl ⟨e, q, rfl⟩
    | ok a => exact .inr ⟨a, q, ends⟩

theorem exec_illTyped (loc : Location) (illTyped : M.IllTyped p i) :
    (∃ e q, outcome (M.exec loc i) p = (.error e, q)) ∨
      ∃ v ways q, Runs (M.exec loc i) p ways q ∧ i.target? = some v ∧ M.Renewed v p q := by
  rcases fails_or_runs (M.exec loc i) p with fails | ⟨ways, q, runs⟩
  · exact .inl fails
  · obtain ⟨v, given, renewed⟩ := exec_refused illTyped runs
    exact .inr ⟨v, ways, q, runs, given, renewed⟩

theorem branch_illTyped (fn : FnId) (f : Function) (n : Node) {condition : Operand}
    (value : Runs (conditionTerm condition) p t p) (refused : ∀ u, truthy t ≠ .ok u) :
    ∃ e q, outcome (M.branch fn f n condition) p = (.error e, q) := by
  refine (fails_or_runs (M.branch fn f n condition) p).resolve_right ?_
  rintro ⟨ways, q, runs⟩
  obtain ⟨t', p₁, reads, runs⟩ := runs.of_bind
  obtain ⟨rfl, rfl⟩ := value.unique reads
  obtain ⟨cond, _, built, _⟩ := runs.of_bind
  exact refused cond (runs_sorted.mp built).1

end Machine

end TokenAudit
