import TokenAudit.Proofs.Machine.Scalar

/-!
# What a step leaves alone

Bookkeeping changes neither bindings nor links nor the task of a path.
-/

namespace TokenAudit

namespace Path

variable {p q r : Path} {value : Value} {t : Term} {c : Contract}

/-- The part of a path that is set before it runs and that no step changes. -/
def task (p : Path) : Path :=
  { start p.id p.entry 0 p.entryName with
    status := p.status
    location := p.location
    required := p.required
    buggy := p.buggy
    arrayLength := p.arrayLength
    checkTracked := p.checkTracked
    callArgsTracked := p.callArgsTracked
    returnsTracked := p.returnsTracked
    varsTracked := p.varsTracked
    keyLevels := p.keyLevels
    eventsTracked := p.eventsTracked
    eventArgsTracked := p.eventArgsTracked }

def SortedBindings (p : Path) : Prop := ∀ v t, p.bindings.get? v = some (.term t) → t.WellSorted

/-- Every term that a path holds as a value, a remembered value or a key is well-sorted. -/
structure WellSorted (p : Path) : Prop where
  bindings : p.SortedBindings
  links : ∀ v link, p.links.get? v = some link → link.baseValue.WellSorted ∧ link.key.WellSorted

structure Noted (p q : Path) : Prop where
  bindings : q.bindings = p.bindings
  links : q.links = p.links
  task : q.task = p.task

/-- Variables may have been bound to their symbols, and nothing that was bound has changed. -/
structure Grows (p q : Path) : Prop where
  links : q.links = p.links
  keeps : ∀ v value, p.bindings.get? v = some value → q.bindings.get? v = some value
  sorted : p.SortedBindings → q.SortedBindings

theorem Noted.refl (p : Path) : p.Noted p := ⟨rfl, rfl, rfl⟩

theorem Noted.trans (first : p.Noted q) (second : q.Noted r) : p.Noted r :=
  ⟨second.bindings.trans first.bindings, second.links.trans first.links, second.task.trans first.task⟩

instance : Std.Refl Noted := ⟨Noted.refl⟩

instance : Trans Noted Noted Noted := ⟨Noted.trans⟩

theorem Noted.grows (noted : p.Noted q) : p.Grows q := by
  refine ⟨noted.links, fun v value bound => ?_, fun sorted v t bound => ?_⟩
  · rw [noted.bindings, bound]
  · rw [noted.bindings] at bound
    exact sorted v t bound

theorem Grows.trans (first : p.Grows q) (second : q.Grows r) : p.Grows r :=
  ⟨second.links.trans first.links, fun v value bound => second.keeps v value (first.keeps v value bound),
    fun sorted => second.sorted (first.sorted sorted)⟩

instance : Std.Refl Grows := ⟨fun p => (Noted.refl p).grows⟩

instance : Trans Grows Grows Grows := ⟨Grows.trans⟩

theorem WellSorted.grows (sorted : p.WellSorted) (grows : p.Grows q) : q.WellSorted :=
  ⟨grows.sorted sorted.bindings, fun v link linked => sorted.links v link (grows.links ▸ linked)⟩

theorem SortedBindings.bind (sorted : p.SortedBindings) (v : VarId) (wellSorted : ∀ t, value = .term t → t.WellSorted) :
    (p.bind v value).SortedBindings := by
  intro w u bound
  rcases Table.of_get?_insert bound with same | earlier
  · exact wellSorted u same
  · exact sorted w u earlier

theorem WellSorted.bind (sorted : p.WellSorted) (v : VarId) (wellSorted : t.WellSorted) :
    (p.bind v (.term t)).WellSorted :=
  ⟨sorted.bindings.bind v fun _ same => Value.term.inj same ▸ wellSorted, sorted.links⟩

theorem symbolFor_wellSorted {name : String} {type : ContractType} (symbol : symbolFor name type = .term t) :
    t.WellSorted := by
  cases type <;> simp only [symbolFor, Value.term.injEq, reduceCtorEq] at symbol <;> subst symbol <;> trivial

theorem pinInitial_noted (p : Path) (c : Contract) (v : Variable) (value : Value) :
    p.Noted (p.pinInitial c v value) := by
  unfold pinInitial
  split
  · split
    · split
      · exact ⟨rfl, rfl, rfl⟩
      · exact .refl p
    · exact .refl p
  · exact .refl p

theorem read_grows {v : Variable} (reads : p.read c v = (value, q)) :
    p.Grows q ∧ q.bindings.get? v.id = some value := by
  unfold read at reads
  split at reads
  · rename_i bound
    cases reads
    exact ⟨(Noted.refl p).grows, bound⟩
  · rename_i unbound
    cases reads
    have pinned := pinInitial_noted p c v (symbolFor (p.symbolBase v.id) v.type)
    refine ⟨⟨pinned.links, fun w value bound => ?_, fun sorted => ?_⟩, by simp [Path.bind]⟩
    · have other : v.id ≠ w := by
        rintro rfl
        rw [unbound] at bound
        cases bound
      simp only [Path.bind, Table.get?_insert, other, if_false, pinned.bindings, bound]
    · exact (pinned.grows.sorted sorted).bind v.id fun t => symbolFor_wellSorted

theorem valueOf_grows {o : Operand} (reads : p.valueOf c o = (.term t, q)) :
    p.Grows q ∧ (q.SortedBindings → t.WellSorted) := by
  cases o with
  | const k =>
    cases reads
    exact ⟨(Noted.refl p).grows, fun _ => by cases k <;> trivial⟩
  | var v =>
    obtain ⟨grows, bound⟩ := read_grows reads
    exact ⟨grows, fun sorted => sorted v.id t bound⟩

theorem symbolBase_congr (named : q.entryName = p.entryName) (v : VarId) : q.symbolBase v = p.symbolBase v := by
  unfold symbolBase
  rw [named]

theorem Noted.valueOf (noted : p.Noted q) (c : Contract) (o : Operand) : (q.valueOf c o).1 = (p.valueOf c o).1 := by
  cases o with
  | const k => rfl
  | var v =>
    have entryName := congrArg Path.entryName noted.task
    have symbol : q.symbolBase v.id = p.symbolBase v.id := symbolBase_congr entryName v.id
    simp only [Path.valueOf, Path.read, noted.bindings, symbol]
    split <;> rfl

end Path

namespace Machine

variable {M : Machine} {p q : Path} {value : Value} {target : Variable} {u : Unit}

theorem assume_noted (t : Term) : Always Path.Noted (assume t) := always_modify fun _ => ⟨rfl, rfl, rfl⟩

section

variable {R : Path → Path → Prop} [Std.Refl R]

theorem recordDependencies_always (depends : ∀ p target vars, R p (p.addDependencies target vars))
    (target : Variable) (vars : List Variable) : Always R (M.recordDependencies target vars) := by
  unfold recordDependencies
  split
  · exact always_modify fun p => depends p _ _
  · exact always_pure _

theorem recordWrite_always (writes : ∀ p i name count, R p (p.noteWrite i name count)) (target : Variable) :
    Always R (M.recordWrite target) := by
  unfold recordWrite
  split
  · refine always_modify fun p => ?_
    split
    · exact writes p _ _ _
    · exact Std.Refl.refl p
  · exact always_pure _

variable [Trans R R R]

theorem deferReceiver_always (sender : Always R (M.read .sender)) (defers : ∀ p ts, R p { p with deferred := ts })
    (receiver : Term) : Always R (M.deferReceiver receiver) := by
  have defer (t : Term) : Always R (modify fun p => { p with deferred := p.deferred ++ [t] }) :=
    always_modify fun p => defers p _
  exact .bind sender fun _ => .bind (always_single _) fun _ => .bind (always_sorted _) fun _ =>
    .bind (defer _) fun _ => .bind (always_sorted _) fun _ => .bind (defer _) fun _ =>
    .bind (always_sorted _) fun _ => defer _

end

theorem recordDependencies_noted (target : Variable) (vars : List Variable) :
    Always Path.Noted (M.recordDependencies target vars) :=
  recordDependencies_always (fun _ _ _ => ⟨rfl, rfl, rfl⟩) target vars

theorem noteWrite_noted (p : Path) (i : Nat) (name : String) (count : Bool) :
    p.Noted (p.noteWrite i name count) := by
  unfold Path.noteWrite
  split <;> split <;> exact ⟨rfl, rfl, rfl⟩

theorem assumeUnsigned_noted (p : Path) (value : Value) (type : ContractType) :
    p.Noted (p.assumeUnsigned value type) := by
  obtain ⟨log, equal⟩ := assumeUnsigned_eq p value type
  rw [equal]
  exact ⟨rfl, rfl, rfl⟩

theorem assumeCell_always {R : Path → Path → Prop} [Std.Refl R] [Trans R R R]
    (reads : Always R (M.read .sender)) (assumes : ∀ t, Always R (assume t)) (root : Variable)
    (outermost value : Term) : Always R (M.assumeCell root outermost value) := by
  have approval : Always R (if root.name ∈ M.config.approvalVars then do
      let sender ← single (← M.read .sender)
      assume (← sorted (Term.mkNe value sender))
      else pure ()) := by
    split
    · exact .bind reads fun _ => .bind (always_single _) fun _ => .bind (always_sorted _) fun _ => assumes _
    · exact always_pure _
  unfold assumeCell
  dsimp only
  split
  · split
    · exact .bind (always_sorted _) fun _ => .bind (always_sorted _) fun _ =>
        .bind (assumes _) fun _ => approval
    · exact approval
  · exact approval

theorem assumeCell_grows (root : Variable) (outermost value : Term) :
    Always Path.Grows (M.assumeCell root outermost value) := by
  refine assumeCell_always (fun p a q runs => ?_) (fun t => ?_) root outermost value
  · exact (Path.read_grows (runs_read.mp runs)).1
  · exact (assume_noted t).mono fun _ _ => Path.Noted.grows

theorem assumeIndexed_grows (root base : Variable) (key value : Term) :
    Always Path.Grows (M.assumeIndexed root base key value) := by
  unfold assumeIndexed
  dsimp only
  split
  · refine .bind always_get fun p => ?_
    split
    · split
      · exact assumeCell_grows _ _ _
      · exact always_pure _
    · exact always_throw _
  · exact always_pure _

structure Rebinds (target : VarId) (p q : Path) : Prop where
  sorted : q.WellSorted
  keeps : ∀ v value, v ≠ target → p.bindings.get? v = some value → q.bindings.get? v = some value

theorem Rebinds.after {target : VarId} {r : Path} (rebinds : Rebinds target q r) (grows : p.Grows q) :
    Rebinds target p r :=
  ⟨rebinds.sorted, fun v value other bound => rebinds.keeps v value other (grows.keeps v value bound)⟩

section

variable (sorted : p.WellSorted)

include sorted

theorem rebinds_bind (target : VarId) (wellSorted : ∀ t, value = .term t → t.WellSorted) :
    Rebinds target p (p.bind target value) := by
  refine ⟨⟨sorted.bindings.bind target wellSorted, sorted.links⟩, fun v value other bound => ?_⟩
  simp only [Path.bind, Table.get?_insert, Ne.symm other, if_false, bound]

theorem redefine_rebinds (defines : p.redefine target = (value, q)) : Rebinds target.id p q := by
  cases defines
  have symbol : ∀ t, (p.redefine target).1 = .term t → t.WellSorted := fun t => Path.symbolFor_wellSorted
  have bound := rebinds_bind sorted target.id symbol
  exact ⟨⟨bound.sorted.bindings, sorted.links⟩, bound.keeps⟩

theorem wellSorted_link (target : VarId) {link : IndexLink}
    (remembered : link.baseValue.WellSorted ∧ link.key.WellSorted) :
    { p with links := p.links.insert target link }.WellSorted := by
  refine ⟨sorted.bindings, fun v other linked => ?_⟩
  rcases Table.of_get?_insert linked with rfl | earlier
  · exact remembered
  · exact sorted.links v other earlier

theorem wellSorted_unlink (target : VarId) : { p with links := p.links.erase target }.WellSorted :=
  ⟨sorted.bindings, fun v other linked => sorted.links v other (Table.of_get?_erase linked)⟩

theorem bindCell_rebinds {t : Term} (cell : t.WellSorted) (runs : Runs (do
      modify (·.assumeUnsigned (.term t) target.type)
      bind target (.term t)) p u q) : Rebinds target.id p q := by
  obtain ⟨_, _, rfl, rfl⟩ := runs
  have noted := (assumeUnsigned_noted p (.term t) target.type).grows
  refine (rebinds_bind (sorted.grows noted) target.id fun u same => ?_).after noted
  cases same
  exact cell

theorem index_rebinds {base : Variable} {key : Operand}
    (runs : Runs (M.index target base key) p u q) : Rebinds target.id p q := by
  unfold index at runs
  simp only [runs_bind, runs_get, runs_modify, runs_read, runs_single, runs_termOf] at runs
  obtain ⟨_, p₁, depends, _, _, ⟨rfl, rfl⟩, _, p₂, rooted, _, p₃, readBase, array, _, ⟨rfl, rfl⟩, keyTerm, p₄,
    readKey, runs⟩ := runs
  have rooted : p₁.Noted p₂ := rooted ▸ ⟨rfl, rfl, rfl⟩
  obtain ⟨growsBase, boundBase⟩ := Path.read_grows readBase
  obtain ⟨growsKey, keySorted⟩ := Path.valueOf_grows readKey
  have before : p.Grows p₄ :=
    ((recordDependencies_noted _ _ depends).trans rooted).grows.trans (growsBase.trans growsKey)
  have sorted₄ : p₄.WellSorted := sorted.grows before
  have arraySorted : array.WellSorted := sorted₄.bindings base.id array (growsKey.keeps _ _ boundBase)
  have keySorted : keyTerm.WellSorted := keySorted sorted₄.bindings
  split at runs
  · -- the key does not fit: the target is no reference
    simp only [runs_bind, runs_modify, runs_redefine, runs_pure] at runs
    obtain ⟨_, _, rfl, _, _, defines, _, rfl⟩ := runs
    have rebinds := redefine_rebinds (wellSorted_unlink sorted₄ target.id) defines
    exact ⟨rebinds.sorted, fun v value other bound =>
      rebinds.keeps v value other (before.keeps v value bound)⟩
  · rename_i value built
    have cell : value.WellSorted :=
      ((Term.mkSelect_yields (E := default) arraySorted keySorted).denotes value built).hasSort.1
    obtain ⟨_, p₅, links, runs⟩ := runs.of_bind
    have links := runs_modify.mp links
    have sorted₅ : p₅.WellSorted := by
      rw [← links]
      exact wellSorted_link sorted₄ target.id ⟨arraySorted, keySorted⟩
    have bound₅ : p₅.bindings = p₄.bindings := by
      rw [← links]
    obtain ⟨_, r, assumes, ends⟩ := runs.of_bind
    have grows := assumeIndexed_grows _ _ _ _ assumes
    have rebinds := (bindCell_rebinds (sorted₅.grows grows) cell ends).after grows
    refine ⟨rebinds.sorted, fun v value other bound => rebinds.keeps v value other ?_⟩
    rw [bound₅]
    exact before.keeps v value bound

end

end Machine

end TokenAudit
