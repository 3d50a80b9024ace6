import TokenAudit.Proofs.Machine.Knots
import TokenAudit.Proofs.Term.Cells

/-!
# Writes into nested cells

References are made one from the other, from a state variable inwards.
-/

namespace TokenAudit

open List IndexLink Term

def SmtSort.nested : Nat → SmtSort → SmtSort
  | 0, leaf => leaf
  | n + 1, leaf => .array .int (nested n leaf)

namespace Datum

noncomputable def cellAt (a : Datum) (keys : List Datum) : Datum := keys.foldl select a

theorem setAt_append (a : Datum) (keys : List Datum) (key value : Datum) :
    a.setAt (keys ++ [key]) value = a.setAt keys ((a.cellAt keys).store key value) := by
  induction keys generalizing a with
  | nil => rfl
  | cons first rest ih => exact congrArg (a.store first) (ih (a.select first))

theorem cellAt_append (a : Datum) (keys : List Datum) (key : Datum) :
    a.cellAt (keys ++ [key]) = (a.cellAt keys).select key := by
  simp [cellAt]

end Datum

namespace Machine

variable {M : Machine} {p q : Path} {root v w : VarId} {up : List IndexLink} {link : IndexLink} {a b c k t : Term}
  {leaf : SmtSort} {target base : Variable} {keys : List Term} (loc : Location) {name : String}

noncomputable def keyData (E : Env) (up : List IndexLink) : List Datum := (up.map fun link => link.key.eval E).reverse

theorem keyData_cons (E : Env) (link : IndexLink) (up : List IndexLink) :
    keyData E (link :: up) = keyData E up ++ [link.key.eval E] := by
  simp [keyData]

/-- The links remember the arrays that their keys address in `a`, down to a cell of some sort. -/
inductive Current (a : Term) : List IndexLink → SmtSort → Prop
  | root : Current a [] a.sort
  | step {link : IndexLink} {up : List IndexLink} {leaf : SmtSort} (above : Current a up link.baseValue.sort)
      (array : link.baseValue.HasSort (.array .int leaf)) (keyed : link.key.HasSort .int)
      (current : ∀ E, link.baseValue.eval E = (a.eval E).cellAt (keyData E up)) : Current a (link :: up) leaf

/-- From `p` to `q` the cell that the links from `v` up to the root address was set to `t`: the root holds `b`, and
every variable on the way what its own keys address in `b`. -/
structure Sets (a : Term) (root v : VarId) (up : List IndexLink) (t : Term) (p q : Path) (b : Term) : Prop where
  frame : q = { p with bindings := q.bindings }
  sets : ∀ E, b.eval E = (a.eval E).setAt (keyData E up) (t.eval E)
  held : q.bindings.get? root = some (.term b)
  cell : ∀ E, t.eval E = (b.eval E).cellAt (keyData E up)
  bound : q.bindings.get? v = some (.term t)
  along : ∀ w up', Leads p.links v w → Reaches p.links root w up' →
    ∃ u, q.bindings.get? w = some (.term u) ∧ ∀ E, u.eval E = (b.eval E).cellAt (keyData E up')
  others : ∀ w, ¬ Leads p.links v w → q.bindings.get? w = p.bindings.get? w

theorem mkStore_of_sorts (array : c.HasSort (.array k.sort leaf)) (keyed : k.WellSorted) (valued : t.HasSort leaf) :
    mkStore c k t = .ok (.store c k t) ∧ (store c k t).HasSort c.sort := by
  have built : mkStore c k t = .ok (.store c k t) := by
    simp [mkStore, array.2, coerce_of_sort, valued.2]
  exact ⟨built, ((mkStore_yields (E := default) array.1 keyed valued.1).denotes _ built).hasSort⟩

theorem writeUp_sets (reaches : Reaches p.links root v up) (current : Current a up leaf) (valued : t.HasSort leaf)
    (keys : List Term) :
    ∃ q b, Runs (writeUp up v t keys) p ((up.map key).reverse ++ keys) q ∧ Sets a root v up t p q b := by
  induction up generalizing p v t leaf keys with
  | nil =>
    cases reaches with
    | root free =>
      refine ⟨p.bind root (.term t), t, by simp [writeUp], rfl, fun _ => rfl, by simp [Path.bind], fun _ => rfl,
        by simp [Path.bind], fun w up' leads reaches' => ?_, fun w apart => ?_⟩
      · obtain rfl | ⟨_, ⟨_, linked, _⟩, _⟩ := leads.cases_head
        · cases reaches'.unique (.root free)
          exact ⟨t, by simp [Path.bind], fun _ => rfl⟩
        · rw [free] at linked
          cases linked
      · have other : root ≠ w := fun same => apart (same ▸ .refl)
        simp [Path.bind, other]
  | cons link up ih =>
    have chain := reaches
    cases reaches with
    | step linked above =>
      cases current with
      | step above' array keyed current =>
        obtain ⟨built, stored⟩ := mkStore_of_sorts (keyed.2.symm ▸ array) keyed.1 valued
        obtain ⟨q, b, runs, sets⟩ := ih (p := p.bind v (.term t)) above above' stored (link.key :: keys)
        have back : ¬ Leads p.links link.base v := chain.not_back linked
        have bound : q.bindings.get? v = some (.term t) := by
          rw [sets.others v back]
          simp [Path.bind]
        have cell (E : Env) : t.eval E = (b.eval E).cellAt (keyData E (link :: up)) := by
          rw [keyData_cons, Datum.cellAt_append, ← sets.cell E]
          exact (Datum.select_store_same (array.sort_eval E) (valued.sort_eval E)).symm
        refine ⟨q, b, ?_, sets.frame, fun E => ?_, sets.held, cell, bound, fun w up' leads reaches' => ?_,
          fun w apart => ?_⟩
        · simp only [writeUp, runs_bind, runs_modify, runs_sorted]
          exact ⟨⟨⟩, _, rfl, _, _, ⟨built, rfl⟩, by simpa using runs⟩
        · rw [sets.sets E, keyData_cons, Datum.setAt_append, ← current E]
          rfl
        · obtain rfl | ⟨_, ⟨_, linked', rfl⟩, leads⟩ := leads.cases_head
          · cases reaches'.unique chain
            exact ⟨t, bound, cell⟩
          · cases linked.symm.trans linked'
            exact sets.along w up' leads reaches'
        · have other : v ≠ w := fun same => apart (same ▸ .refl)
          rw [sets.others w fun leads => apart (.head ⟨link, linked, rfl⟩ leads)]
          simp [Path.bind, other]

/-- The log holds the equation of a symbol with a term, unless the term is the symbol. -/
def Pinned (symbol t : Term) (log : ConstraintLog) : Prop := t = symbol ∨ .eq symbol t ∈ log.terms

theorem mkEq_fact {fact : Fact} (same : fact.sort = k.sort) :
    mkEq fact.term k = .ok (if fact.term = k then .bool true else .eq fact.term k) := by
  have same : (var fact.symbol fact.sort).sort = k.sort := same
  rw [Fact.term, mkEq, coercePair_of_sort same]
  simp [same]

theorem pinKeys_pins (name : String) (write : Nat) (ints : ∀ k ∈ keys, k.sort = .int)
    (levels : List Nat) (p : Path) : ∃ log, Runs (pinKeys name write keys levels) p ⟨⟩ { p with constraints := log } ∧
      (∀ t ∈ p.constraints.terms, t ∈ log.terms) ∧
      ∀ l ∈ levels, ∀ k, keys[l]? = some k → Pinned (Fact.writtenKey name write l).term k log := by
  induction levels generalizing p with
  | nil => exact ⟨p.constraints, by simp [pinKeys], fun _ old => old, fun _ none => nomatch none⟩
  | cons level rest ih =>
    rw [pinKeys]
    cases found : keys[level]? with
    | none =>
      obtain ⟨log, runs, keeps, pins⟩ := ih p
      refine ⟨log, runs, keeps, forall_mem_cons.mpr ⟨fun k given => ?_, pins⟩⟩
      rw [found] at given
      cases given
    | some key =>
      have int := ints key (mem_of_getElem? found)
      obtain ⟨log, runs, keeps, pins⟩ := ih (p.assume _)
      have built : mkEq (Fact.writtenKey name write level).term key = _ := mkEq_fact int.symm
      refine ⟨log, ?_, fun t old => keeps t ?_, forall_mem_cons.mpr ⟨fun k given => ?_, pins⟩⟩
      · simp only [runs_bind, runs_sorted, runs_assume]
        exact ⟨_, _, ⟨built, rfl⟩, ⟨⟩, _, rfl, runs⟩
      · simp only [Path.assume, ConstraintLog.terms_push]
        split
        · exact old
        · exact mem_append_left _ old
      · cases found.symm.trans given
        by_cases same : (Fact.writtenKey name write level).term = key
        · exact .inl same.symm
        · exact .inr (keeps _ (by simp [Path.assume, same]))

theorem recordKeys_pins (ints : M.tracking.writtenKey = true → ∀ k ∈ keys, k.sort = .int) (p : Path)
    (target : Variable) : ∃ log, Runs (M.recordKeys target keys) p ⟨⟩ { p with constraints := log } ∧
      (M.tracking.writtenKey = true → ∀ i name, M.stateRoot? p target = some (i, name) →
        ∀ levels, p.keyLevels.get? i = some levels → ∀ l ∈ levels.toList, ∀ k, keys[l]? = some k →
          Pinned (Fact.writtenKey name (p.writeCounts.getD i 0) l).term k log) := by
  simp only [recordKeys, runs_bind, runs_get]
  generalize M.tracking.writtenKey = pinning at ints ⊢
  cases pinning with
  | false => exact ⟨p.constraints, ⟨p, p, ⟨rfl, rfl⟩, rfl⟩, fun off => nomatch off⟩
  | true =>
    cases rooted : M.stateRoot? p target with
    | none => exact ⟨p.constraints, ⟨p, p, ⟨rfl, rfl⟩, by simp [rooted]⟩, fun _ _ _ none => nomatch none⟩
    | some place =>
      cases registered : p.keyLevels.get? place.1 with
      | none =>
        refine ⟨p.constraints, ⟨p, p, ⟨rfl, rfl⟩, by simp [rooted, registered]⟩, ?_⟩
        rintro _ i name ⟨⟩ levels some
        rw [registered] at some
        cases some
      | some levels =>
        obtain ⟨log, runs, _, pins⟩ := pinKeys_pins place.2 (p.writeCounts.getD place.1 0) (ints rfl) levels.toList p
        refine ⟨log, ⟨p, p, ⟨rfl, rfl⟩, by simpa [rooted, registered] using runs⟩, ?_⟩
        rintro _ i name ⟨⟩ levels some
        cases registered.symm.trans some
        exact pins

theorem assign_of_writeUp {r : Path} (reaches : Reaches p.links root target.id (link :: up))
    (runs : Runs (writeUp (link :: up) target.id t []) p keys q) (records : Runs (M.recordKeys target keys) q ⟨⟩ r) :
    Runs (M.assign target (.term t)) p ⟨⟩ r := by
  cases reaches with
  | step linked above =>
    simp only [writeUp, runs_bind, runs_modify, runs_sorted] at runs
    obtain ⟨_, _, rfl, outer, _, ⟨built, rfl⟩, runs⟩ := runs
    simp only [assign, runs_bind, runs_get]
    refine ⟨p, p, ⟨rfl, rfl⟩, ?_⟩
    rw [linked]
    simp only [runs_bind, runs_single, runs_sorted, runs_bindVar]
    refine ⟨t, p, ⟨rfl, rfl⟩, outer, p, ⟨built, rfl⟩, ⟨⟩, _, rfl, _, q, ?_, records⟩
    exact (writeBack_eq_writeUp (p := p.bind target.id (.term t)) above above.length_le).trans runs

theorem recordDependencies_depends (p : Path) (target : Variable) (vars : List Variable) :
    ∃ definedBy, Runs (M.recordDependencies target vars) p ⟨⟩ { p with definedBy := definedBy } := by
  unfold recordDependencies
  split <;> exact ⟨_, rfl⟩

theorem valueOf_record (p : Path) (c : Contract) (o : Operand) : (p.valueOf c o).2.record = p.record := by
  cases o with
  | const _ => rfl
  | var v => exact read_record p c v

theorem recordWrite_counts (M : Machine) (p : Path) (target : Variable) :
    ∃ q, Runs (M.recordWrite target) p ⟨⟩ q ∧ p.Noted q ∧ q.roots = p.roots ∧
      ∀ i name, M.stateRoot? p target = some (i, name) → M.tracking.write = true → M.tracking.writeCount = true →
        q.writeCounts.getD i 0 = p.writeCounts.getD i 0 + 1 := by
  unfold recordWrite
  split
  · cases rooted : M.stateRoot? p target with
    | none => exact ⟨p, by simp [rooted], .refl p, rfl, by simp⟩
    | some place =>
      refine ⟨p.noteWrite place.1 place.2 M.tracking.writeCount, by simp [rooted], noteWrite_noted _ _ _ _, ?_, ?_⟩
      · obtain ⟨_, _, _, noted⟩ := Path.noteWrite_log p place.1 place.2 M.tracking.writeCount
        rw [noted]
      · rintro i name ⟨⟩ _ counting
        simp only [Path.noteWrite, counting, if_true]
        split <;> simp [Table.update, Table.getD, Path.assume]
  · rename_i off
    exact ⟨p, rfl, .refl p, rfl, fun _ _ _ on => (off on).elim⟩

theorem assignment_assigns {source : Operand} (target : Variable)
    (value : (p.valueOf M.contract source).1 = .term t) :
    ∃ q, p.Grows q ∧ (q.SortedBindings → t.WellSorted) ∧ q.roots = p.roots ∧ q.keyLevels = p.keyLevels ∧
      (∀ i name, M.stateRoot? p target = some (i, name) → M.tracking.write = true → M.tracking.writeCount = true →
        q.writeCounts.getD i 0 = p.writeCounts.getD i 0 + 1) ∧
      ∀ r, Runs (M.assign target (.term t)) q ⟨⟩ r → Runs (M.exec loc (.assignment target source)) p none r := by
  obtain ⟨definedBy, depends⟩ := recordDependencies_depends p target ([source].filterMap Operand.var?)
  obtain ⟨aliases, aliased⟩ : ∃ aliases, ∀ r, Runs (do M.recordWrite target; M.assign target (← M.valueOf source))
      { p with definedBy := definedBy, aliases := aliases } ⟨⟩ r →
        Runs (M.exec loc (.assignment target source)) p none r := by
    cases source with
    | const c =>
      exact ⟨p.aliases, fun r writes => runs_bind.mpr ⟨⟨⟩, r, runs_bind.mpr ⟨⟨⟩, _, depends, writes⟩, rfl⟩⟩
    | var v =>
      exact ⟨_, fun r writes => runs_bind.mpr ⟨⟨⟩, r, runs_bind.mpr ⟨⟨⟩, _, depends,
        runs_bind.mpr ⟨⟨⟩, _, runs_modify.mpr rfl, writes⟩⟩, rfl⟩⟩
  obtain ⟨s, records, noted, roots, counts⟩ :=
    M.recordWrite_counts { p with definedBy := definedBy, aliases := aliases } target
  have noted : p.Noted s := { noted with }
  have reads : s.valueOf M.contract source = (.term t, (s.valueOf M.contract source).2) :=
    Prod.ext ((noted.valueOf M.contract source).trans value) rfl
  obtain ⟨grows, valued⟩ := Path.valueOf_grows reads
  have record := valueOf_record s M.contract source
  have levels := congrArg Path.keyLevels noted.task
  refine ⟨_, noted.grows.trans grows, valued, (congrArg Path.roots record).trans roots,
    (congrArg Path.keyLevels record).trans levels, fun i name rooted on counting => ?_, fun r assigns => ?_⟩
  · rw [← counts i name rooted on counting]
    exact congrArg (fun r => r.writeCounts.getD i 0) record
  · exact aliased r (runs_bind.mpr ⟨⟨⟩, _, records, runs_bind.mpr ⟨_, _, runs_valueOf.mpr reads, assigns⟩⟩)

/-- What is assumed of a fully indexed cell can be written down: owners are numbers, and approved is a number like the
sender. -/
structure Assumable (M : Machine) (p : Path) (name : String) (keys : List Term) (cell : SmtSort) : Prop where
  owned : name ∈ M.config.ownerKeyedVars → ∀ k ∈ keys, k.sort = .int
  approved : name ∈ M.config.approvalVars →
    cell = .int ∧ ∃ sender, p.bindings.get? Variable.sender.id = some (.term sender) ∧ sender.sort = .int

theorem assumeCell_assumes {r : Variable} (bindings : p.SortedBindings) (assumable : Assumable M p r.name keys t.sort)
    (among : k ∈ keys) (keyed : k.WellSorted) (cell : t.WellSorted) :
    ∃ log, Runs (M.assumeCell r k t) p ⟨⟩ { p with constraints := log } := by
  have approves (log : ConstraintLog) : ∃ log', Runs (do
      if r.name ∈ M.config.approvalVars then
        let sender ← single (← M.read .sender)
        assume (← sorted (mkNe t sender))) { p with constraints := log } ⟨⟩ { p with constraints := log' } := by
    split
    · rename_i named
      obtain ⟨int, sender, bound, senderInt⟩ := assumable.approved named
      obtain ⟨differs, built, _⟩ := mkNe_term ⟨cell, int⟩ ⟨bindings _ _ bound, senderInt⟩
      simp only [runs_bind, runs_read, runs_single, runs_sorted, runs_assume]
      refine ⟨_, .term sender, { p with constraints := log }, ?_, sender, _, ⟨rfl, rfl⟩, differs, _, ⟨built, rfl⟩, rfl⟩
      simp [Path.read, bound]
    · exact ⟨log, rfl⟩
  unfold assumeCell
  dsimp only
  split
  · rename_i owned
    split
    · rename_i empty found
      obtain ⟨noOwner, owner, _⟩ := mkEq_term ⟨keyed, assumable.owned owned k among⟩ (r := .zero) ⟨trivial, rfl⟩
      have sorted : empty.HasSort t.sort := by
        generalize t.sort = s at found ⊢
        cases s <;> cases found <;> exact ⟨trivial, rfl⟩
      obtain ⟨same, empties, _⟩ := mkEq_term ⟨cell, rfl⟩ sorted
      obtain ⟨log, runs⟩ := approves (p.constraints.push (mkImplies noOwner same))
      simp only [runs_bind, runs_sorted, runs_assume]
      exact ⟨log, noOwner, p, ⟨owner, rfl⟩, same, p, ⟨empties, rfl⟩, ⟨⟩, _, rfl, runs⟩
    · exact approves p.constraints
  · exact approves p.constraints

theorem mkSelect_term (array : c.HasSort (.array k.sort leaf)) (keyed : k.WellSorted) :
    ∃ t, mkSelect c k = .ok t ∧ t.HasSort leaf ∧ ∀ E, t.eval E = (c.eval E).select (k.eval E) := by
  have yields := fun E => mkSelect_yields (E := E) array.1 keyed
  simp only [array.2, SmtSort.domain, SmtSort.range, coerce_of_sort] at yields
  exact Term.Yields.term yields ⟨rfl, trivial⟩

/-- What an index leaves: its target is a cell of `c`, linked to the base, and has the root of the base. -/
structure Indexes (target base : Variable) (c k : Term) (leaf : SmtSort) (p q : Path) : Prop where
  sorted : q.WellSorted
  array : c.HasSort (.array k.sort leaf)
  keyed : k.WellSorted
  keeps : ∀ v value, v ≠ target.id → p.bindings.get? v = some value → q.bindings.get? v = some value
  links : q.links = p.links.insert target.id ⟨base.id, c, k⟩
  roots : q.roots = p.roots.insert target.id (p.rootOf base)
  keyLevels : q.keyLevels = p.keyLevels
  writeCounts : q.writeCounts = p.writeCounts
  bound : ∃ t, q.bindings.get? target.id = some (.term t) ∧ t.HasSort leaf ∧
    ∀ E, t.eval E = (c.eval E).select (k.eval E)

theorem index_indexes (target : Variable) {key : Operand} (sorted : p.WellSorted)
    (bound : p.bindings.get? base.id = some (.term c)) (valued : (p.valueOf M.contract key).1 = .term k)
    (shape : c.sort = .array k.sort leaf) (reaches : Reaches p.links root base.id up)
    (apart : ¬ Leads p.links base.id target.id)
    (assumable : Assumable M p (p.rootOf base).name (k :: up.map IndexLink.key) leaf) :
    ∃ q, Runs (M.exec loc (.index target base key)) p none q ∧ Indexes target base c k leaf p q := by
  obtain ⟨definedBy, depends⟩ := recordDependencies_depends p target (base :: key.var?.toList)
  let rooted : Path := { p with definedBy := definedBy, roots := p.roots.insert target.id (p.rootOf base) }
  have noted : p.Noted rooted := ⟨rfl, rfl, rfl⟩
  have reads : rooted.read M.contract base = (.term c, rooted) := by
    simp [Path.read, rooted, bound]
  have readsKey : rooted.valueOf M.contract key = (.term k, (rooted.valueOf M.contract key).2) :=
    Prod.ext ((noted.valueOf M.contract key).trans valued) rfl
  have array : c.HasSort (.array k.sort leaf) := ⟨sorted.bindings _ _ bound, shape⟩
  obtain ⟨grows, keySorted⟩ := Path.valueOf_grows readsKey
  have keyed : k.WellSorted := keySorted (grows.sorted sorted.bindings)
  obtain ⟨cell, selects, cellSorted, meaning⟩ := mkSelect_term array keyed
  have record := valueOf_record rooted M.contract key
  generalize (rooted.valueOf M.contract key).2 = read at readsKey grows record
  let linked : Path := { read with links := read.links.insert target.id ⟨base.id, c, k⟩ }
  obtain ⟨log, assumes⟩ : ∃ log, Runs (M.assumeIndexed (p.rootOf base) base k cell) linked ⟨⟩
      { linked with constraints := log } := by
    have walks : Reaches linked.links root base.id up := by
      refine Reaches.relinked (fun v other => ?_) reaches apart
      rw [Table.get?_insert, if_neg (Ne.symm other), grows.links]
    unfold assumeIndexed
    dsimp only
    split
    · simp only [runs_bind, runs_get]
      suffices ∃ log, Runs (if (k :: up.map IndexLink.key).length = (p.rootOf base).type.mappingKeys.length then
          M.assumeCell (p.rootOf base) ((k :: up.map IndexLink.key).getLastD .zero) cell else pure ()) linked ⟨⟩
          { linked with constraints := log } by
        obtain ⟨log, runs⟩ := this
        exact ⟨log, linked, linked, ⟨rfl, rfl⟩, by rwa [walks.linkKeys walks.length_le]⟩
      split
      · have among : (k :: up.map IndexLink.key).getLastD .zero ∈ k :: up.map IndexLink.key := by
          rw [getLastD_cons]
          exact getLastD_mem_cons ..
        refine assumeCell_assumes (grows.sorted sorted.bindings) ?_ among ?_ cellSorted.1
        · refine ⟨assumable.owned, fun named => ?_⟩
          obtain ⟨int, sender, bound, senderInt⟩ := assumable.approved named
          exact ⟨cellSorted.2.trans int, sender, grows.keeps _ _ bound, senderInt⟩
        · refine forall_mem_cons.mpr ⟨keyed, forall_mem_map.mpr fun link among => ?_⟩ _ among
          exact (reaches.remembered sorted link among).2
      · exact ⟨read.constraints, rfl⟩
    · exact ⟨read.constraints, rfl⟩
  obtain ⟨log', assumed⟩ := assumeUnsigned_eq { linked with constraints := log } (.term cell) target.type
  have runs : Runs (M.index target base key) p ⟨⟩
      (Path.bind { linked with constraints := log' } target.id (.term cell)) := by
    simp only [index, runs_bind, runs_get, runs_modify, runs_read, runs_single, runs_termOf]
    refine ⟨⟨⟩, _, depends, _, _, ⟨rfl, rfl⟩, ⟨⟩, _, rfl, _, _, reads, c, _, ⟨rfl, rfl⟩, k, read, readsKey, ?_⟩
    rw [selects]
    simp only [runs_bind, runs_modify, runs_bindVar]
    exact ⟨⟨⟩, linked, rfl, ⟨⟩, _, assumes, ⟨⟩, _, assumed, rfl⟩
  have rebinds := index_rebinds sorted runs
  refine ⟨_, runs_bind.mpr ⟨⟨⟩, _, runs, rfl⟩, rebinds.sorted, array, keyed, rebinds.keeps, ?_, ?_, ?_,
    ?_, cell, by simp [Path.bind], cellSorted, meaning⟩
  · exact congrArg (fun r => r.links.insert target.id ⟨base.id, c, k⟩) record
  · exact congrArg Path.roots record
  · have same := congrArg Path.keyLevels record
    exact same
  · have same := congrArg Path.writeCounts record
    exact same

/-- The instructions that make each variable a reference into the one before, from the base on. -/
def descend : Variable → List (Variable × Operand) → List Instruction
  | _, [] => []
  | base, (target, key) :: hops => .index target base key :: descend target hops

def innermost : Variable → List (Variable × Operand) → Variable
  | base, [] => base
  | _, (target, _) :: hops => innermost target hops

def keysFound (M : Machine) : Location → Variable → List (Variable × Operand) → Path → List Value
  | _, _, [], _ => []
  | loc, base, (target, key) :: hops, p => (p.valueOf M.contract key).1 ::
      M.keysFound loc.next target hops (outcome (M.exec loc (.index target base key)) p).2

/-- From `p` to `q` the references were made, with the keys given, down to cells of some sort. -/
structure Descends (base : Variable) (c : Term) (hops : List (Variable × Operand)) (keys : List Term) (leaf : SmtSort)
    (p q : Path) : Prop where
  sorted : q.WellSorted
  keyLevels : q.keyLevels = p.keyLevels
  writeCounts : q.writeCounts = p.writeCounts
  rootOf : q.rootOf (innermost base hops) = p.rootOf base
  others : ∀ v, v ∉ hops.map (·.1.id) → q.links.get? v = p.links.get? v
  chain : ∀ {a root up}, Reaches q.links root base.id up → Current a up c.sort →
    (∀ E, c.eval E = (a.eval E).cellAt (keyData E up)) → ∃ up', Reaches q.links root (innermost base hops).id up' ∧
      Current a up' leaf ∧ up'.map key = keys.reverse ++ up.map key ∧
      Leads q.links (innermost base hops).id base.id ∧
      ∀ j hop, hops[j]? = some hop → Leads q.links (innermost base hops).id hop.1.id ∧ ∃ above,
        Reaches q.links root hop.1.id above ∧
          above.map key = (keys.take (j + 1)).reverse ++ up.map key

theorem execAll_descends {loc : Location} {hops : List (Variable × Operand)} (sorted : p.WellSorted)
    (bound : p.bindings.get? base.id = some (.term c)) (shape : c.sort = .nested hops.length leaf)
    (found : M.keysFound loc base hops p = keys.map .term) (int : ∀ k ∈ keys, k.sort = .int)
    (distinct : (hops.map (·.1.id)).Nodup) (reaches : Reaches p.links root base.id up)
    (ints : ∀ link ∈ up, link.key.sort = .int) (apart : ∀ hop ∈ hops, ¬ Leads p.links base.id hop.1.id)
    (unapproved : (p.rootOf base).name ∉ M.config.approvalVars) :
    ∃ q, Runs (M.execAll loc (descend base hops)) p none q ∧ Descends base c hops keys leaf p q := by
  induction hops generalizing loc base c keys p up with
  | nil =>
    obtain rfl : keys = [] := by simpa [keysFound] using found
    refine ⟨p, rfl, sorted, rfl, rfl, rfl, fun _ _ => rfl, fun {_ _ up} reaches current _ => ?_⟩
    have shape : c.sort = leaf := shape
    exact ⟨up, reaches, shape ▸ current, rfl, .refl, fun _ _ none => nomatch none⟩
  | cons hop hops ih =>
    obtain ⟨target, key⟩ := hop
    cases keys with
    | nil => cases found
    | cons k keys =>
      obtain ⟨valued, found⟩ := List.cons.inj found
      obtain ⟨first, int⟩ := forall_mem_cons.mp int
      obtain ⟨away, apart⟩ := forall_mem_cons.mp apart
      have shape : c.sort = .array k.sort (.nested hops.length leaf) := first.symm ▸ shape
      obtain ⟨r, runs, indexes⟩ := index_indexes loc target sorted bound valued shape reaches away
        ⟨fun _ => forall_mem_cons.mpr ⟨first, forall_mem_map.mpr ints⟩, fun approved => (unapproved approved).elim⟩
      obtain ⟨cell, boundCell, cellSorted, meaning⟩ := indexes.bound
      have after : (outcome (M.exec loc (.index target base key)) p).2 = r := congrArg Prod.snd runs
      rw [after] at found
      have rooted : r.rootOf target = p.rootOf base := by
        simp [Path.rootOf, Table.getD, indexes.roots]
      have others (v : VarId) (other : v ≠ target.id) : r.links.get? v = p.links.get? v := by
        rw [indexes.links, Table.get?_insert, if_neg (Ne.symm other)]
      have linked : r.links.get? target.id = some ⟨base.id, c, k⟩ := by
        rw [indexes.links, Table.get?_insert, if_pos rfl]
      have onward : ∀ hop ∈ hops, ¬ Leads r.links target.id hop.1.id := by
        intro hop later leads
        obtain same | ⟨_, ⟨_, linked', rfl⟩, leads⟩ := leads.cases_head
        · exact (nodup_cons.mp distinct).1 (mem_map.mpr ⟨hop, later, same.symm⟩)
        · cases linked.symm.trans linked'
          exact apart hop later (Leads.of_relinked others leads away)
      obtain ⟨q, runs', descends⟩ := ih indexes.sorted boundCell cellSorted.2 found int (nodup_cons.mp distinct).2
        (.step linked (reaches.relinked others away)) (forall_mem_cons.mpr ⟨first, ints⟩) onward (rooted ▸ unapproved)
      refine ⟨q, runs_bind.mpr ⟨none, r, runs, runs'⟩, descends.sorted, descends.keyLevels.trans indexes.keyLevels,
        descends.writeCounts.trans indexes.writeCounts, descends.rootOf.trans rooted, fun v apart => ?_, ?_⟩
      · obtain ⟨other, apart⟩ := not_or.mp (fun among => apart (mem_cons.mpr among))
        rw [descends.others v apart, others v other]
      · intro a root up reaches current evals
        have linked : q.links.get? target.id = some ⟨base.id, c, k⟩ :=
          (descends.others _ (nodup_cons.mp distinct).1).trans linked
        have here : Reaches q.links root target.id (⟨base.id, c, k⟩ :: up) := .step linked reaches
        have cellEvals (E : Env) : cell.eval E = (a.eval E).cellAt (keyData E (⟨base.id, c, k⟩ :: up)) := by
          rw [keyData_cons, Datum.cellAt_append, ← evals E, meaning E]
        obtain ⟨up', last, current', keys', leads, each⟩ := descends.chain here
          (cellSorted.2 ▸ .step current (first ▸ indexes.array) ⟨indexes.keyed, first⟩ evals) cellEvals
        refine ⟨up', last, current', by simp [keys'], leads.tail ⟨_, linked, rfl⟩, fun j hop at_j => ?_⟩
        cases j with
        | zero =>
          cases at_j
          exact ⟨leads, _, here, rfl⟩
        | succ j =>
          obtain ⟨leads, above, reaches', keys''⟩ := each j hop at_j
          exact ⟨leads, above, reaches', by simp [keys'']⟩

theorem keyData_eq (same : up.map key = keys.reverse) (E : Env) : keyData E up = keys.map (eval E) := by
  have keyed : keyData E up = (up.map key).reverse.map (eval E) := by simp [keyData]
  rw [keyed, same, reverse_reverse]

/-- A write through references that are made one from the other, from a state variable that is its own root, sets the
cell that their keys address and no other. -/
theorem nested_write_sets_cell {root : Variable} {i : Nat} {sv : StateVariable} {loc : Location}
    {hops : List (Variable × Operand)} {keys : List Term} (sorted : p.WellSorted) (state : root.isState = true)
    (declared : M.contract.stateVariable? root.name = some (i, sv)) (unapproved : root.name ∉ M.config.approvalVars)
    (own : p.rootOf root = root) (free : p.links.get? root.id = none)
    (bound : p.bindings.get? root.id = some (.term a)) (nonempty : hops ≠ [])
    (shape : a.sort = .nested hops.length leaf) (found : M.keysFound loc root hops p = keys.map .term)
    (int : ∀ k ∈ keys, k.sort = .int) (distinct : (root.id :: hops.map (·.1.id)).Nodup) :
    ∃ q, Runs (M.execAll loc (descend root hops)) p none q ∧
      ∀ source v loc', (q.valueOf M.contract source).1 = .term v → v.sort = leaf →
        ∃ r b, Runs (M.exec loc' (.assignment (innermost root hops) source)) q none r ∧
          r.bindings.get? root.id = some (.term b) ∧
          (∀ E, b.eval E = (a.eval E).setAt (keys.map (eval E)) (v.eval E)) ∧
          (∀ j hop, hops[j]? = some hop → ∃ u, r.bindings.get? hop.1.id = some (.term u) ∧
            ∀ E, u.eval E = (b.eval E).cellAt ((keys.take (j + 1)).map (eval E))) ∧
          r.bindings.get? (innermost root hops).id = some (.term v) ∧
          (M.tracking.write = true → M.tracking.writeCount = true → M.tracking.writtenKey = true →
            r.writeCounts.getD i 0 = p.writeCounts.getD i 0 + 1 ∧
              ∀ levels, p.keyLevels.get? i = some levels → ∀ l ∈ levels.toList, ∀ k, keys[l]? = some k →
                Pinned (Fact.writtenKey root.name (p.writeCounts.getD i 0 + 1) l).term k r.constraints) := by
  obtain ⟨fresh, distinct⟩ := nodup_cons.mp distinct
  have apart : ∀ hop ∈ hops, ¬ Leads p.links root.id hop.1.id := by
    intro hop among leads
    obtain same | ⟨_, ⟨_, linked, _⟩, _⟩ := leads.cases_head
    · exact fresh (mem_map.mpr ⟨hop, among, same.symm⟩)
    · rw [free] at linked
      cases linked
  obtain ⟨q, runs, descends⟩ := execAll_descends sorted bound shape found int distinct (.root free) (forall_mem_nil _)
    apart (own.symm ▸ unapproved)
  obtain ⟨up, reaches, current, keys', _, each⟩ := descends.chain
    (.root ((descends.others _ fresh).trans free)) .root fun _ => rfl
  simp only [map_nil, append_nil] at keys' each
  refine ⟨q, runs, fun source v loc' valued leafed => ?_⟩
  have rooted : M.stateRoot? q (innermost root hops) = some (i, root.name) := by
    simp [stateRoot?, descends.rootOf, own, state, declared]
  obtain ⟨s, grows, sortedValue, roots, levels, counts, assigns⟩ := assignment_assigns loc' (innermost root hops) valued
  cases up with
  | nil =>
    obtain rfl : keys = [] := by simpa using keys'.symm
    cases hops with
    | nil => exact (nonempty rfl).elim
    | cons _ _ => cases found
  | cons link up =>
    have hasSort : v.HasSort leaf := ⟨sortedValue (grows.sorted descends.sorted.bindings), leafed⟩
    have reaches : Reaches s.links root.id (innermost root hops).id (link :: up) := grows.links.symm ▸ reaches
    obtain ⟨t, b, writes, sets⟩ := writeUp_sets reaches current hasSort []
    rw [append_nil] at writes
    have ordered : ((link :: up).map key).reverse = keys := by rw [keys', reverse_reverse]
    obtain ⟨log, records, pins⟩ := recordKeys_pins (fun _ => ordered.symm ▸ int) t (innermost root hops)
    rw [ordered] at pins
    refine ⟨_, b, assigns _ (assign_of_writeUp reaches writes records), sets.held,
      fun E => keyData_eq keys' E ▸ sets.sets E, fun j hop at_j => ?_, sets.bound, fun on counting keyed => ?_⟩
    · obtain ⟨leads, above, reaches', keys''⟩ := each j hop at_j
      obtain ⟨u, bound', meaning⟩ := sets.along _ above (grows.links.symm ▸ leads) (grows.links.symm ▸ reaches')
      exact ⟨u, bound', fun E => keyData_eq keys'' E ▸ meaning E⟩
    · have count : t.writeCounts.getD i 0 = p.writeCounts.getD i 0 + 1 := by
        rw [sets.frame, ← descends.writeCounts]
        exact counts i root.name rooted on counting
      have rooted' : M.stateRoot? t (innermost root hops) = some (i, root.name) := by
        rw [← rooted, sets.frame]
        unfold stateRoot? Path.rootOf
        rw [← roots]
      have levels' : t.keyLevels = p.keyLevels := by
        rw [sets.frame, ← descends.keyLevels]
        exact levels
      exact ⟨count, count ▸ levels' ▸ pins keyed i root.name rooted'⟩

def allowances : Variable := .ofState "allowances" (.mapping .uint256 (.mapping .uint256 .uint256))

def approvals : List (Variable × Operand) :=
  [(⟨"REF_0", .reference "approve", .mapping .uint256 .uint256⟩, .const (.int 1)),
    (⟨"REF_1", .reference "approve", .uint256⟩, .const (.int 2))]

def grants : Machine where
  program := ⟨[]⟩
  contract := { stateVariables :=
    [{ name := "allowances", type := allowances.type },
      { name := "permits", type := allowances.type }] }
  contractId := 0
  tracking := { write := true, writeCount := true, writtenKey := true }
  config := {}

def grantsStart : Path := { (Path.start 0 ⟨0, 0⟩ 0 "approve").bind allowances.id
    (.term (.var "allowances" (.array .int (.array .int .int)))) with
  keyLevels := Table.empty.insert 0 (OrdSet.empty.insert 1) }

theorem grantsStart_wellSorted : grantsStart.WellSorted := by
  refine ⟨fun v t bound => ?_, fun v link linked => nomatch linked⟩
  simp only [grantsStart, Path.bind, Table.get?_insert] at bound
  split at bound <;> cases bound
  trivial

theorem approval_sets_allowance : grantsStart.WellSorted ∧ grantsStart.rootOf allowances = allowances ∧
    ∃ q r b, Runs (grants.execAll (.start ⟨0, 0⟩ 0) (descend allowances approvals)) grantsStart none q ∧
      Runs (grants.exec (.start ⟨0, 0⟩ 0) (.assignment (innermost allowances approvals) (.const (.int 5)))) q none r ∧
      r.bindings.get? allowances.id = some (.term b) ∧
      (∀ E : Env, b.eval E = ((var "allowances" (.array .int (.array .int .int))).eval E).setAt
        [.int 1, .int 2] (.int 5)) ∧
      Pinned (Fact.writtenKey "allowances" 1 1).term (.int 2) r.constraints := by
  obtain ⟨q, runs, writes⟩ := @nested_write_sets_cell grants grantsStart _ .int allowances _ _ (.start ⟨0, 0⟩ 0)
    approvals [.int 1, .int 2] grantsStart_wellSorted rfl rfl (by decide) rfl rfl rfl (by decide) rfl rfl
      (by decide) (by decide)
  obtain ⟨r, b, assigns, held, sets, _, _, tracks⟩ := writes (.const (.int 5)) (.int 5) (.start ⟨0, 0⟩ 0) rfl rfl
  exact ⟨grantsStart_wellSorted, rfl, q, r, b, runs, assigns, held, sets,
    (tracks rfl rfl rfl).2 _ rfl 1 (.head _) _ rfl⟩

/-- Where a state variable has the root of another, a write through its cells is a write of that other: the cell is
set, but no write of the variable is counted and no key is pinned. -/
theorem write_of_borrowed_root : ∃ q r b,
    Runs (grants.exec (.start ⟨0, 0⟩ 0) (.member allowances (.var (.ofState "permits" allowances.type)) "spent"))
      grantsStart none q ∧
    q.links.get? allowances.id = none ∧ q.bindings.get? allowances.id = some (.term b) ∧
    Runs (grants.execAll (.start ⟨0, 0⟩ 0) (descend allowances approvals ++
      [.assignment (innermost allowances approvals) (.const (.int 5))])) q none r ∧
    r.writeCounts.getD 0 0 = 0 ∧ r.writeCounts.getD 1 0 = 1 ∧
    ∀ w, .eq (Fact.writtenKey "allowances" w 1).term (.int 2) ∉ r.constraints.terms := by
  refine ⟨_, _, _, rfl, rfl, rfl, rfl, rfl, rfl, fun w pinned => ?_⟩
  rcases pinned with _ | ⟨_, _ | ⟨_, ⟨⟩⟩⟩

end Machine

end TokenAudit
