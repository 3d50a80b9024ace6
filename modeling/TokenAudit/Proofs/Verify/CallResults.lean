import Mathlib.Data.List.Nodup
import TokenAudit.Proofs.Machine.Courses
import TokenAudit.Proofs.Verify.Decision

/-!
# The results of repeated calls

A call of a function whose results are tracked is assumed to give the symbol of the function's result.
-/

namespace TokenAudit

open List Term TokenAudit.Fact TokenAudit.Path Performed Datum

variable {P : Term → Prop} {d : Performed}

namespace Term

variable {E : Env}

theorem holds_mkEq_symbol {name : String} {s : SmtSort} {b t : Term} (sorted : b.WellSorted)
    (built : mkEq (.var name s) b = .ok t) :
    (coerce s b).HasSort s ∧ (E.Holds t ↔ E.symbol name s = ((coerce s b).eval E).as s) := by
  have yields := mkEq_yields (E := E) (a := .var name s) trivial sorted
  have pair := coercePair_symbol name s b
  have same : s = (coerce s b).sort := by
    have admits := yields.admits t built
    rw [pair] at admits
    exact admits
  have hasSort : (coerce s b).HasSort s := ⟨coerce_wellSorted s sorted, same.symm⟩
  refine ⟨hasSort, ?_⟩
  rw [Env.Holds, (yields.denotes t built).eval_eq, pair, toBool_bool, decide_eq_true_iff, eval,
    ← as_inj (sort_ofCarrier s _) (hasSort.sort_eval E), as_ofCarrier]

end Term

namespace Env

/-- The environment in which some symbols have the values that given terms have in another one. -/
noncomputable def define (E : Env) (Defines : String → SmtSort → Term → Prop) : Env :=
  { E with
    symbol := fun name sort =>
      open Classical in
      if defined : ∃ t, Defines name sort t then (defined.choose.eval E).as sort else E.symbol name sort }

variable {E : Env} {Defines : String → SmtSort → Term → Prop} {name : String} {sort : SmtSort} {t : Term}

theorem define_other (free : ∀ t, ¬ Defines name sort t) : (E.define Defines).symbol name sort = E.symbol name sort :=
  dif_neg fun ⟨t, defines⟩ => free t defines

theorem define_symbol (defines : Defines name sort t) (unique : ∀ u, Defines name sort u → u = t)
    (free : t.Within fun name sort => ∀ u, ¬ Defines name sort u) :
    (E.define Defines).symbol name sort = (t.eval (E.define Defines)).as sort := by
  have defined : ∃ u, Defines name sort u := ⟨t, defines⟩
  have chosen : (E.define Defines).symbol name sort = (defined.choose.eval E).as sort := dif_pos defined
  rw [chosen, unique _ defined.choose_spec, free.eval_eq (fun _ _ => define_other) rfl]

end Env

namespace Fact

variable {fact other : Fact}

theorem symbol_ne (kind : fact.halves.2 ≠ other.halves.2) : fact.symbol ≠ other.symbol :=
  fun same => kind (congrArg Prod.snd (halves_of_symbol same))

end Fact

namespace Path

variable {P Q : Term → Prop} {p q r : Path}

/-- The second path has the log of the first with terms of a kind added to it. -/
def Gains (P : Term → Prop) (p q : Path) : Prop :=
  ∃ added, q.constraints.terms = p.constraints.terms ++ added ∧ ∀ t ∈ added, P t

theorem gains_of_same (same : q.constraints = p.constraints) : p.Gains P q :=
  ⟨[], by rw [same, append_nil], by simp⟩

theorem Gains.trans (first : p.Gains P q) (second : q.Gains P r) : p.Gains P r := by
  obtain ⟨added, log, kind⟩ := first
  obtain ⟨more, log', kind'⟩ := second
  exact ⟨added ++ more, by rw [log', log, append_assoc], forall_mem_append.mpr ⟨kind, kind'⟩⟩

theorem Gains.mono (gains : p.Gains P q) (weaker : ∀ t, P t → Q t) : p.Gains Q q := by
  obtain ⟨added, log, kind⟩ := gains
  exact ⟨added, log, fun t among => weaker t (kind t among)⟩

theorem gains_assume {t : Term} (kind : P t) : p.Gains P (p.assume t) := by
  unfold Gains
  rw [assume, ConstraintLog.terms_push]
  split
  · exact ⟨[], (append_nil _).symm, by simp⟩
  · exact ⟨[t], rfl, forall_mem_singleton.mpr kind⟩

instance : Std.Refl (Gains P) := ⟨fun _ => gains_of_same rfl⟩

instance : Trans (Gains P) (Gains P) (Gains P) := ⟨Gains.trans⟩

end Path

def Performed.added (d : Performed) : List Term := d.after.constraints.terms.drop d.before.constraints.terms.length

theorem Performed.added_of_gains (gains : d.before.Gains P d.after) : ∀ t ∈ d.added, P t := by
  obtain ⟨added, log, kind⟩ := gains
  rw [Performed.added, log, drop_left]
  exact kind

theorem Performed.mem_added {q : Path} {t : Term} (gains : d.before.Gains P q) (last : d.after = q.assume t)
    (informative : t ≠ .bool true) : t ∈ d.added := by
  obtain ⟨added, log, _⟩ := gains
  rw [Performed.added, last, Path.assume, ConstraintLog.terms_push, if_neg informative, log, append_assoc,
    drop_left]
  simp

/-- A variable whose name is not like that of a fact, nor like that of a later definition if it is a state
variable. -/
def Variable.Distinct (v : Variable) : Prop := v.id.Tidy ∧ (v.isState = true → '!' ∉ v.name.toList)

def Contract.Initial (c : Contract) (t : Term) : Prop :=
  ∃ (v : Variable) (s : SmtSort) (k : Constant), v.Distinct ∧ v.isState = true ∧ c.initialConstant? v.name = some k ∧
    mkEq (.var v.name s) k.term = .ok t

theorem Path.read_gains (p : Path) (c : Contract) {v : Variable} (distinct : v.Distinct) :
    p.Gains c.Initial (p.read c v).2 := by
  unfold read
  split
  · exact gains_of_same rfl
  · have pinned : p.Gains c.Initial (p.pinInitial c v (symbolFor (p.symbolBase v.id) v.type)) := by
      unfold pinInitial
      split
      · rename_i state
        split
        · rename_i k t constant symbol
          split
          · rename_i built
            have base : p.symbolBase v.id = v.name := by
              have scope : v.scope = .state := beq_iff_eq.mp state
              simp [symbolBase, Variable.id, scope]
            rw [base] at symbol
            obtain ⟨s, rfl⟩ := symbolFor_term symbol
            exact gains_assume ⟨v, s, k, distinct, state, constant, built⟩
          · exact gains_of_same rfl
        · exact gains_of_same rfl
      · exact gains_of_same rfl
    exact pinned.trans (gains_of_same rfl)

namespace Machine

open Upkeep

variable {M : Machine} {p q : Path} {callee : CallSignature} {arguments : List Operand} {number : Nat}

theorem termOf_gains {o : Operand} (distinct : Operand.ForEach Variable.Distinct [o]) :
    Always (Path.Gains M.contract.Initial) (M.termOf o) := by
  refine .bind (always_modifyGet fun p => ?_) fun _ => always_single _
  cases o with
  | const k => exact gains_of_same rfl
  | var v => exact p.read_gains M.contract (distinct v (mem_singleton_self _))

theorem deferReceiver_gains (receiver : Term) :
    Always (Path.Gains M.contract.Initial) (M.deferReceiver receiver) := by
  have sender : Always (Path.Gains M.contract.Initial) (M.read .sender) :=
    always_modifyGet fun p => p.read_gains M.contract ⟨by decide, by decide⟩
  exact deferReceiver_always sender (fun _ _ => gains_of_same rfl) receiver

structure Argument (c : Contract) (callee : CallSignature) (arguments : List Operand) (q : Path) (index : Nat)
    (sort : SmtSort) (value : Term) : Prop where
  given : ∃ o, arguments[index]? = some o ∧ (q.valueOf c o).1 = .term value
  sorted : sort = ((callee.params[index]?).map SmtSort.ofType).getD value.sort
  clear : value.Clear

theorem Argument.unique {c : Contract} {index : Nat} {sort sort' : SmtSort} {value value' : Term}
    (one : Argument c callee arguments q index sort value) (other : Argument c callee arguments q index sort' value') :
    sort = sort' ∧ value = value' := by
  obtain ⟨o, listed, reads⟩ := one.given
  obtain ⟨o', listed', reads'⟩ := other.given
  cases listed.symm.trans listed'
  cases reads.symm.trans reads'
  exact ⟨one.sorted.trans other.sorted.symm, rfl⟩

theorem pinCallArgs_gains {A D : Fact → Prop} (distinct : Operand.ForEach Variable.Distinct arguments)
    {indices : List Nat} {u : Unit} (ledger : p.Ledger M.contract A D)
    (runs : Runs (M.pinCallArgs callee number arguments indices) p u q) :
    p.Grows q ∧ p.Gains (fun t => M.contract.Initial t ∨
      ∃ index sort value, Argument M.contract callee arguments q index sort value ∧
        mkEq (callArg callee.name number index sort).term value = .ok t) q := by
  induction indices generalizing p with
  | nil =>
    obtain ⟨_, rfl⟩ := runs_pure.mp runs
    exact ⟨Std.Refl.refl _, gains_of_same rfl⟩
  | cons index rest ih =>
    rw [pinCallArgs] at runs
    split at runs
    · rename_i o listed
      obtain ⟨value, r, reads, runs⟩ := runs.of_bind
      obtain ⟨t, _, builds, runs⟩ := runs.of_bind
      obtain ⟨built, rfl⟩ := runs_sorted.mp builds
      obtain ⟨_, s, assumes, runs⟩ := runs.of_bind
      obtain rfl := runs_assume.mp assumes
      have only : Operand.ForEach Variable.Distinct [o] :=
        distinct.subset (cons_subset.mpr ⟨mem_of_getElem? listed, nil_subset _⟩)
      obtain ⟨kept, clear⟩ := (upkeep_ledger.operates.termOf fun v member => (only v member).1).ends ledger reads
      obtain ⟨grows, gains⟩ := ih (kept.assume (silent_mkEq built)) runs
      have stays : (q.valueOf M.contract o).1 = .term value := by
        cases o with
        | const k => exact congrArg Prod.fst (runs_termOf.mp reads)
        | var v =>
          have bound := grows.keeps v.id (.term value) (read_grows (runs_termOf.mp reads)).2
          simp [Path.valueOf, Path.read, bound]
      refine ⟨(valueOf_grows (runs_termOf.mp reads)).1.trans ((assume_noted t assumes).grows.trans grows), ?_⟩
      refine ((termOf_gains only reads).mono fun _ => .inl).trans (.trans (gains_assume (.inr ?_)) gains)
      exact ⟨index, _, value, ⟨⟨o, listed, stays⟩, rfl, clear⟩, built⟩
    · exact ih ledger runs

inductive CallAdds (c : Contract) (f : String) (number : Nat) (Given : Nat → SmtSort → Term → Prop) (result : Term) :
    Term → Prop
  | initial {t : Term} (initial : c.Initial t) : CallAdds c f number Given result t
  | called (receiver : String) : CallAdds c f number Given result (called receiver f).term
  | noted : CallAdds c f number Given result (fnCalled f).term
  | argument {index : Nat} {sort : SmtSort} {value t : Term} (given : Given index sort value)
      (built : mkEq (callArg f number index sort).term value = .ok t) : CallAdds c f number Given result t
  | result {sort : SmtSort} {t : Term} (built : mkEq (callReturn f sort).term result = .ok t) :
      CallAdds c f number Given result t

theorem noteCall_gains (p : Path) (receiver name : String) {Given : Nat → SmtSort → Term → Prop} {result : Term} :
    p.Gains (CallAdds M.contract name number Given result) (noteCall p receiver name).2 := by
  have records := noteCall_records (c := M.contract) p receiver name
  refine ⟨_, records.log, fun t among => ?_⟩
  obtain ⟨fact, noted, rfl⟩ := mem_map.mp among
  rcases mem_cons.mp noted with rfl | noted
  · exact .called receiver
  · split at noted
    · rw [mem_singleton.mp noted]
      exact .noted
    · cases noted

/-- What is known of a call whose result is a symbol: what it adds to the log, and that it equates its result with the
symbol of the function's result. -/
structure Accountable (c : Contract) (f : String) (s : SmtSort) (d : Performed) (name : String)
    (Given : Nat → SmtSort → Term → Prop) : Prop where
  clear : ∀ {index sort value}, Given index sort value → value.Clear
  unique : ∀ {index sort value sort' value'}, Given index sort value → Given index sort' value' →
    sort = sort' ∧ value = value'
  version : '!' ∈ name.toList
  unhashed : '#' ∉ name.toList
  adds : ∀ t ∈ d.added, CallAdds c f (d.before.timesCalled f + 1) Given (.var name s) t
  pins : ∃ sort t, mkEq (callReturn f sort).term (.var name s) = .ok t ∧ (t ≠ .bool true → t ∈ d.added)

end Machine

def Performed.result? (d : Performed) : Option (String × SmtSort) :=
  match d.instruction with
  | .highLevelCall _ _ _ (some target) =>
    match d.after.bindings.get? target.id with
    | some (.term (.var name s)) => some (name, s)
    | _ => none
  | _ => none

namespace Machine

open Upkeep

variable {M : Machine} {p q : Path} {callee : CallSignature} {u : Unit} {target : Variable} {name : String}
  {sort : SmtSort} {names : Performed → String}

def resultsOn (M : Machine) (f : String) (beyond : Bool) (n : Nat) (choices : List Nat) (p : Path) :
    List (Option (String × SmtSort)) :=
  (M.callsOnOf f beyond n choices p).map result?

def addedOn (M : Machine) (f : String) (beyond : Bool) (n : Nat) (choices : List Nat) (p : Path) : List Term :=
  (M.callsOnOf f beyond n choices p).flatMap added

theorem pinReturn_noted (callee : CallSignature) (value : Value) : Always Path.Noted (pinReturn callee value) := by
  have first : Always Path.Noted (firstItem value) := by
    unfold firstItem
    split
    · exact always_pure _
    · exact always_pure _
    · exact .bind (always_single _) fun _ => always_pure _
  refine .bind always_get fun p => ?_
  split
  · refine .bind first fun item => ?_
    split
    · exact .bind (always_sorted _) fun _ => assume_noted _
    · exact always_pure _
  · exact always_pure _

theorem pinReturn_term {r : Term} (tracked : callee.name ∈ p.returnsTracked.toList)
    (runs : Runs (pinReturn callee (.term r)) p u q) :
    ∃ sort t, mkEq (callReturn callee.name sort).term r = .ok t ∧ q = p.assume t := by
  obtain ⟨_, _, gets, runs⟩ := runs.of_bind
  obtain ⟨rfl, rfl⟩ := runs_get.mp gets
  have asked : p.returnsTracked.contains callee.name = true := decide_eq_true tracked
  rw [if_pos asked] at runs
  obtain ⟨_, _, items, runs⟩ := runs.of_bind
  obtain ⟨rfl, rfl⟩ := runs_pure.mp items
  obtain ⟨t, _, builds, assumes⟩ := runs.of_bind
  obtain ⟨built, rfl⟩ := runs_sorted.mp builds
  exact ⟨_, t, built, (runs_assume.mp assumes).symm⟩

/-- The parts of a call: the receiver is read, the call is noted, its receiver is put off, its arguments are pinned if
they are tracked, and its target is defined anew and pinned. -/
structure Calling (M : Machine) (destination : Operand) (callee : CallSignature) (arguments : List Operand)
    (target : Variable) (p read noted put pinned recorded q : Path) (receiver : Term) (number : Nat) : Prop where
  reads : Runs (M.termOf destination) p receiver read
  notes : noteCall read receiver.nameHint callee.name = (number, noted)
  defers : Runs (M.deferReceiver receiver) noted () put
  pins : pinned = put ∨ ∃ indices, Runs (M.pinCallArgs callee number arguments indices) put () pinned
  records : Runs (M.recordOperands target (destination :: arguments)) pinned () recorded
  returns : Runs (pinReturn callee (recorded.redefine target).1) (recorded.redefine target).2 () q

theorem highLevelCall_calling {destination : Operand} {arguments : List Operand}
    (runs : Runs (M.highLevelCall destination callee arguments (some target)) p u q) :
    ∃ read noted put pinned recorded receiver number,
      M.Calling destination callee arguments target p read noted put pinned recorded q receiver number := by
  obtain ⟨receiver, read, number, noted, put, pinned, reads, notes, defers, pins, runs⟩ := highLevelCall_cases runs
  obtain ⟨_, recorded, records, runs⟩ := runs.of_bind
  obtain ⟨value, s, defines, returns⟩ := runs.of_bind
  have defines : recorded.redefine target = (value, s) := runs_redefine.mp defines
  refine ⟨read, noted, put, pinned, recorded, receiver, number, ⟨reads, notes, defers, ?_, records, ?_⟩⟩
  · split at pins
    · exact .inr ⟨_, pins⟩
    · exact .inl pins
  · rw [defines]
    exact returns

section

variable {destination : Operand} {callee : CallSignature} {arguments : List Operand} {target : Variable}
  {read noted put pinned recorded : Path} {receiver : Term} {number : Nat}

section

variable (calling : M.Calling destination callee arguments target p read noted put pinned recorded q receiver number)

include calling

theorem Calling.numbered : number = p.timesCalled callee.name + 1 := by
  have tally := (((upkeep_tally p.tally).operates.termOf fun _ _ => trivial).ends rfl calling.reads).1
  have counts := congrArg (fun t : Tally => t.counts.getD callee.name 0 + 1) tally
  exact (congrArg Prod.fst calling.notes).symm.trans counts

theorem Calling.sameTask : p.SameTask (recorded.redefine target).2 := by
  have changes : Changes (fun _ => True) p (recorded.redefine target).2 := by
    have noting := noteCall_changes (K := fun _ => True) read trivial receiver.nameHint callee.name
    rw [calling.notes] at noting
    have pinning : Changes (fun _ => True) put pinned := by
      rcases calling.pins with rfl | ⟨indices, pins⟩
      · exact .refl
      · exact (changing.operates.pinCallArgs trivial callee number indices fun _ _ => trivial).1 pins
    refine (termOf_changes destination calling.reads).trans (noting.trans ?_)
    refine ((changing.operates.deferReceiver trivial trivial).1 calling.defers).trans (pinning.trans ?_)
    exact (recordOperands_changes target _ calling.records).tail (.redefine recorded target)
  exact changes.lift fun _ _ => Change.sameTask

theorem Calling.gains {A D : Fact → Prop} (ledger : p.Ledger M.contract A D) (undotted : '.' ∉ callee.name.toList)
    (result : Term) (distinct : Operand.ForEach Variable.Distinct (destination :: arguments)) :
    p.Gains (CallAdds M.contract callee.name (p.timesCalled callee.name + 1)
      (Argument M.contract callee arguments pinned) result) (recorded.redefine target).2 := by
  have receives : Operand.ForEach Variable.Distinct [destination] := distinct.subset (by simp)
  -- the path from which the arguments are read has clear values
  obtain ⟨ledger, clear⟩ :=
    (upkeep_ledger.operates.termOf fun v member => (receives v member).1).ends ledger calling.reads
  have ledger := noteCall_ledger ledger receiver.nameHint undotted
  rw [calling.notes] at ledger
  have ledger := ((upkeep_ledger.operates.deferReceiver trivial clear).ends ledger calling.defers).1
  have noting : read.Gains (CallAdds M.contract callee.name (p.timesCalled callee.name + 1)
      (Argument M.contract callee arguments pinned) result) (noteCall read receiver.nameHint callee.name).2 :=
    noteCall_gains read receiver.nameHint callee.name
  rw [calling.notes] at noting
  have pinning : put.Gains (CallAdds M.contract callee.name (p.timesCalled callee.name + 1)
      (Argument M.contract callee arguments pinned) result) pinned := by
    rcases calling.pins with rfl | ⟨indices, pins⟩
    · exact gains_of_same rfl
    · refine (pinCallArgs_gains (distinct.subset (by simp)) ledger pins).2.mono fun t kind => ?_
      rcases kind with initial | ⟨index, sort, value, given, built⟩
      · exact .initial initial
      · exact .argument given (calling.numbered ▸ built)
  refine ((termOf_gains receives calling.reads).mono fun _ => .initial).trans (noting.trans ?_)
  refine ((deferReceiver_gains receiver calling.defers).mono fun _ => .initial).trans (pinning.trans ?_)
  exact .trans (recordDependencies_always (fun _ _ _ => gains_of_same rfl) target _ calling.records)
    (gains_of_same rfl)

end

end

theorem redefine_symbol {s : SmtSort} (tidy : target.id.Tidy) (symbol : (p.redefine target).1 = .term (.var name s)) :
    '!' ∈ name.toList ∧ '#' ∉ name.toList := by
  obtain ⟨_, same⟩ := symbolFor_term symbol
  cases same
  have base := p.hash_notMem_symbolBase tidy
  simp [base]

theorem result_cases {s : SmtSort} (gives : d.result? = some (name, s)) :
    ∃ destination callee arguments target,
      d.instruction = .highLevelCall destination callee arguments (some target) ∧
        d.after.bindings.get? target.id = some (.term (.var name s)) := by
  unfold result? at gives
  split at gives
  · rename_i destination callee arguments target instruction
    split at gives
    · rename_i bound
      cases gives
      exact ⟨destination, callee, arguments, target, instruction, bound⟩
    · cases gives
  · cases gives

theorem call_accountable {A D : Fact → Prop} {f : String} {s : SmtSort} (calls : d.instruction.calledName? = some f)
    (gives : d.result? = some (name, s)) {loc : Location} {result : Option (List Successor)}
    (runs : Runs (M.exec loc d.instruction) d.before result d.after) (ledger : d.before.Ledger M.contract A D)
    (distinct : ∀ v ∈ d.instruction.variables, v.Distinct) (undotted : '.' ∉ f.toList)
    (tracked : f ∈ d.before.returnsTracked.toList) : ∃ Given, Accountable M.contract f s d name Given := by
  obtain ⟨destination, callee, arguments, target, instruction, bound⟩ := result_cases gives
  obtain ⟨p, i, q⟩ := d
  cases instruction
  cases calls
  obtain ⟨_, _, calls, ends⟩ := runs.of_bind
  obtain ⟨_, rfl⟩ := runs_pure.mp ends
  obtain ⟨read, noted, put, pinned, recorded, receiver, number, calling⟩ := highLevelCall_calling calls
  have symbol : (recorded.redefine target).1 = .term (.var name s) := by
    have noted := pinReturn_noted _ _ calling.returns
    rw [noted.bindings] at bound
    simpa [Path.redefine] using bound
  have gains := calling.gains ledger undotted (.var name s) fun v member =>
    distinct v (mem_append_right _ (Instruction.mem_sees member))
  have returns := calling.returns
  rw [symbol] at returns
  have asked : callee.name ∈ (recorded.redefine target).2.returnsTracked.toList := by
    have same := congrArg returnsTracked calling.sameTask
    exact same ▸ tracked
  obtain ⟨sort, t, built, last⟩ := pinReturn_term asked returns
  obtain ⟨version, unhashed⟩ := redefine_symbol (distinct target (by simp [Instruction.variables, Instruction.bound?,
    Instruction.target?])).1 symbol
  refine ⟨Argument M.contract callee arguments pinned, fun given => given.clear, Argument.unique, version, unhashed,
    added_of_gains ?_, sort, t, built, mem_added gains last⟩
  rw [last]
  exact gains.trans (gains_assume (.result built))

/-- The results of all calls of the function have one value, what was called was called, and state variables have
the constants they were constructed with. -/
noncomputable def agreement (c : Contract) (f : String) {s : SmtSort} (v : s.Carrier) : Env where
  symbol name sort :=
    if name = (callReturn f s).symbol then (ofCarrier s v).as sort
    else if '#' ∈ name.toList then (Datum.bool true).as sort
    else if '!' ∈ name.toList then (ofCarrier s v).as sort
    else
      match c.initialConstant? name with
      | some k => ((coerce sort k.term).eval default).as sort
      | none => sort.someValue
  quotientByZero := id
  remainderByZero := id

def Passes (f : String) (calls : List Performed) (Given : Performed → Nat → SmtSort → Term → Prop) (name : String)
    (sort : SmtSort) (t : Term) : Prop :=
  ∃ d ∈ calls, ∃ index value, Given d index sort value ∧
    name = (callArg f (d.before.timesCalled f + 1) index sort).symbol ∧ t = coerce sort value

variable {c : Contract} {f : String} {s : SmtSort} {calls : List Performed}
  {Given : Performed → Nat → SmtSort → Term → Prop}

theorem not_passes (plain : Term.Plain name sort) (t : Term) : ¬ Passes f calls Given name sort t := by
  rintro ⟨d, _, index, value, _, rfl, _⟩
  exact plain.unspoken _ rfl

theorem not_passes_fact {fact : Fact} (letter : ∃ c ∈ fact.halves.2, c.isDigit = false) (sort : SmtSort) (t : Term) :
    ¬ Passes f calls Given fact.symbol sort t := by
  rintro ⟨d, _, index, value, _, same, _⟩
  exact (callArg_numbered ..).ne_of_letter letter same

theorem passes_unique (accountable : ∀ d ∈ calls, Accountable c f s d (names d) (Given d))
    (numbered : calls.Pairwise fun d e => d.before.timesCalled f < e.before.timesCalled f) {t u : Term}
    (one : Passes f calls Given name sort t) (other : Passes f calls Given name sort u) : u = t := by
  obtain ⟨d, among, index, value, given, rfl, rfl⟩ := one
  obtain ⟨e, among', index', value', given', same, rfl⟩ := other
  obtain ⟨_, number, rfl⟩ := numbered_inj (callArg_numbered ..) (callArg_numbered ..) same
  have numbers : (calls.map fun d => d.before.timesCalled f).Nodup :=
    List.Pairwise.map _ (fun _ _ => Nat.ne_of_lt) numbered
  obtain rfl := inj_on_of_nodup_map numbers among among' (Nat.succ.inj number)
  rw [((accountable d among).unique given given').2]

/-- For every value there is an environment in which all results of the calls have it, and that satisfies what the
calls have added to the log. -/
theorem exists_agreement (v : s.Carrier) (accountable : ∀ d ∈ calls, Accountable c f s d (names d) (Given d))
    (numbered : calls.Pairwise fun d e => d.before.timesCalled f < e.before.timesCalled f) :
    ∃ E : Env, (∀ d ∈ calls, E.symbol (names d) s = v) ∧ ∀ d ∈ calls, ∀ t ∈ d.added, E.Holds t := by
  let E : Env := (agreement c f v).define (Passes f calls Given)
  have result : E.symbol (callReturn f s).symbol s = v := by
    have other : E.symbol (callReturn f s).symbol s = (agreement c f v).symbol (callReturn f s).symbol s :=
      Env.define_other (not_passes_fact ⟨'r', by simp [halves], by decide⟩ s)
    rw [other]
    simp [agreement]
  have version {name : String} (version : '!' ∈ name.toList) (unhashed : '#' ∉ name.toList) : E.symbol name s = v := by
    have other : E.symbol name s = (agreement c f v).symbol name s :=
      Env.define_other (not_passes (plain_of_unhashed unhashed s))
    have unspoken := (plain_of_unhashed unhashed s).unspoken (.callReturn f s)
    rw [other]
    simp [agreement, unspoken, unhashed, version]
  have noted {fact : Fact} (called : fact.halves.2 = "called".toList) (boolean : fact.sort = .bool) :
      E.Holds fact.term := by
    have other : E.symbol fact.symbol .bool = (agreement c f v).symbol fact.symbol .bool :=
      Env.define_other (not_passes_fact ⟨'c', by simp [called], by decide⟩ .bool)
    have kind : fact.symbol ≠ (callReturn f s).symbol := symbol_ne (by rw [called]; simp [halves])
    rw [Env.Holds, term, boolean, eval, other]
    simp [agreement, kind, fact.hash_mem_symbol]
    rfl
  refine ⟨E, fun d among => version (accountable d among).version (accountable d among).unhashed, ?_⟩
  intro d among t added
  cases (accountable d among).adds t added with
  | initial initial =>
    obtain ⟨x, sort, k, ⟨tidy, unversioned⟩, state, constant, built⟩ := initial
    have unhashed : '#' ∉ x.name.toList := tidy.1
    have literal : k.term.Within fun _ _ => False := by cases k <;> constructor
    have other : E.symbol x.name sort = (agreement c f v).symbol x.name sort :=
      Env.define_other (not_passes (plain_of_unhashed unhashed sort))
    have unspoken := (plain_of_unhashed unhashed s).unspoken (.callReturn f s)
    refine (holds_mkEq_symbol (by cases k <;> trivial) built).2.mpr ?_
    have value : (coerce sort k.term).eval E = (coerce sort k.term).eval default :=
      (literal.coerce sort).eval_eq (fun _ _ => False.elim) rfl
    rw [other, value]
    simp [agreement, unspoken, unhashed, unversioned state, constant]
  | called receiver | noted => exact noted rfl rfl
  | @argument index sort value _ given built =>
    have clear := (accountable d among).clear given
    have passes : Passes f calls Given (callArg f (d.before.timesCalled f + 1) index sort).symbol sort
      (coerce sort value) := ⟨d, among, index, value, given, rfl, rfl⟩
    refine (holds_mkEq_symbol clear.sorted built).2.mpr (Env.define_symbol passes ?_ ?_)
    · exact fun u => passes_unique accountable numbered passes
    · exact (clear.plain.coerce sort).mono fun _ _ plain => not_passes plain
  | @result sort _ built =>
    obtain ⟨hasSort, holds⟩ := holds_mkEq_symbol (b := .var (names d) s) trivial built
    rw [coerce_symbol] at hasSort holds
    obtain rfl : s = sort := hasSort.2
    refine holds.mpr (result.trans ?_)
    rw [eval, version (accountable d among).version (accountable d among).unhashed]
    exact (as_ofCarrier s v).symm

theorem Accountable.agrees {Given : Nat → SmtSort → Term → Prop} (accountable : Accountable c f s d name Given)
    {E : Env} (holds : ∀ t ∈ d.added, E.Holds t) : E.symbol (callReturn f s).symbol s = E.symbol name s := by
  obtain ⟨sort, t, built, added⟩ := accountable.pins
  obtain ⟨hasSort, equal⟩ := holds_mkEq_symbol (b := .var name s) trivial built
  rw [coerce_symbol] at hasSort equal
  obtain rfl : s = sort := hasSort.2
  have holds : E.Holds t := by
    by_cases informative : t = .bool true
    · rw [informative]
      rfl
    · exact holds t (added informative)
  exact (equal.mp holds).trans (as_ofCarrier s _)

end Machine

section

variable {program : Program} {config : Config} {contract : String} {target : Target} {check : Check}
  {prepared : Prepared}

theorem callsOnOf_accountable (prepares : prepare (some program) config contract target check = .ok prepared)
    (plain : check.PlainOn program) (unversioned : ∀ v ∈ program.variables, v.isState = true → '!' ∉ v.name.toList)
    {start : Path} (first : start ∈ prepared.paths) {f : String} (tracked : f ∈ start.returnsTracked.toList)
    (beyond : Bool) (n : Nat) (choices : List Nat) :
    ∀ d ∈ (prepared.machine config).callsOnOf f beyond n choices start,
      ∀ {name s}, d.result? = some (name, s) →
        ∃ Given, Machine.Accountable prepared.subject.contract f s d name Given := by
  have located := Prepare.subjectOf_located (Prepare.prepare_ends prepares).1
  have same : (prepared.machine config).program = program := located.same
  have named := plain.named
  simp only [forall_mem_append] at named
  obtain ⟨⟨calls, results⟩, _⟩ := named
  have ledger := Prepare.prepare_balanced prepares plain.tidy results start first
  have told := Prepare.told_of_past (c := prepared.subject.contract) (Prepare.prepare_past prepares start first)
  intro d among name s gives
  obtain ⟨performed, called⟩ := mem_filter.mp among
  obtain ⟨loc, result, runs⟩ := Machine.performedOn_runs performed
  obtain ⟨sound, lists⟩ := Machine.performedOn_keeps (M := prepared.machine config)
    Machine.upkeep_ledger (Machine.hosts_ledger (same ▸ plain.tidy) (same ▸ calls))
    (fun _ _ ledger => { ledger with }) beyond n choices ledger d performed
  have asked := (Machine.performedOn_keeps Machine.upkeep_told Machine.hosts_told
    (fun _ _ told => { told with }) beyond n choices told d performed).1.asked
  refine Machine.call_accountable (beq_iff_eq.mp called) gives runs sound (fun v mentions => ?_)
    (ledger.sound.results f tracked) ?_
  · have listed : v ∈ program.variables := same ▸ lists.variables mentions
    exact ⟨plain.tidy v listed, unversioned v listed⟩
  · show f ∈ d.before.brief.results.toList
    rw [asked]
    exact tracked

/-- The calls of a function whose results are tracked are assumed to give the same result: values of the results
extend to an environment that satisfies what the calls have added to the log exactly when they are all equal. -/
theorem call_results_agree (prepares : prepare (some program) config contract target check = .ok prepared)
    (plain : check.PlainOn program) (unversioned : ∀ v ∈ program.variables, v.isState = true → '!' ∉ v.name.toList)
    {start : Path} (first : start ∈ prepared.paths) {f : String} (tracked : f ∈ start.returnsTracked.toList)
    (beyond : Bool) (n : Nat) (choices : List Nat) {s : SmtSort} {results : List String}
    (single : (prepared.machine config).resultsOn f beyond n choices start = results.map fun r => some (r, s)) :
    (∀ E : Env,
      (∀ t ∈ (prepared.machine config).addedOn f beyond n choices start, E.Holds t) →
      ∀ r ∈ results, E.symbol (callReturn f s).symbol s = E.symbol r s) ∧
    ∀ values : List s.Carrier, values.length = results.length →
      ((∃ E : Env, results.map (E.symbol · s) = values ∧
          ∀ t ∈ (prepared.machine config).addedOn f beyond n choices start, E.Holds t) ↔
        ∀ v ∈ values, ∀ w ∈ values, v = w) := by
  have known := callsOnOf_accountable prepares plain unversioned first tracked beyond n choices
  have numbered := Machine.callsOnOf_numbered (M := prepared.machine config) f beyond n
    choices start
  unfold Machine.resultsOn at single
  unfold Machine.addedOn
  generalize (prepared.machine config).callsOnOf f beyond n choices start = calls
    at known numbered single ⊢
  -- each call has one result, and the results are those of the calls in turn
  let name (d : Performed) : String := (d.result?.map Prod.fst).getD ""
  have gives : ∀ d ∈ calls, d.result? = some (name d, s) := by
    intro d among
    obtain ⟨r, _, given⟩ := mem_map.mp (single ▸ mem_map_of_mem among)
    simp [name, ← given]
  obtain rfl : results = calls.map name := by
    have names := congrArg (List.map fun r? : Option (String × SmtSort) => (r?.map Prod.fst).getD "") single
    simpa [Function.comp_def] using names.symm
  choose! Given accountable using fun d among => known d among (gives d among)
  have agrees (E : Env) (holds : ∀ t ∈ calls.flatMap added, E.Holds t) :
      ∀ r ∈ calls.map name, E.symbol (callReturn f s).symbol s = E.symbol r s := by
    intro r member
    obtain ⟨d, among, rfl⟩ := mem_map.mp member
    exact (accountable d among).agrees fun t added => holds t (mem_flatMap.mpr ⟨d, among, added⟩)
  refine ⟨agrees, fun values length => ⟨?_, fun equal => ?_⟩⟩
  · rintro ⟨E, rfl, holds⟩ v here w there
    obtain ⟨r, among, rfl⟩ := mem_map.mp here
    obtain ⟨r', among', rfl⟩ := mem_map.mp there
    exact (agrees E holds r among).symm.trans (agrees E holds r' among')
  · obtain ⟨E, value, holds⟩ := Machine.exists_agreement (values.headD s.someValue) accountable numbered
    refine ⟨E, ?_, fun t added => ?_⟩
    · have constant : (calls.map name).map (E.symbol · s) = List.replicate calls.length (values.headD s.someValue) := by
        rw [map_map, ← map_const']
        exact map_congr_left value
      have repeated : values = List.replicate calls.length (values.headD s.someValue) := by
        refine eq_replicate_iff.mpr ⟨by simpa using length, fun v member => ?_⟩
        cases values with
        | nil => cases member
        | cons w rest => exact equal v member w (mem_cons_self ..)
      exact constant.trans repeated.symm
    · obtain ⟨d, among, added⟩ := mem_flatMap.mp added
      exact holds d among t added

end

def quoting : Trial where
  program := { contracts := [{
    name := "Token"
    stateVariables := [⟨"oracle", .named "address", .publicAccess, some (.int 7)⟩]
    functions := [{
      name := "quote"
      nodes := [{ instructions := [
        .highLevelCall (.var (.ofState "oracle" (.named "address"))) ⟨"rate", [.named "int256"], [.named "int256"]⟩
          [.const (.int 1)] (some ⟨"TMP_0", .temporary "quote", .named "int256"⟩),
        .highLevelCall (.var (.ofState "oracle" (.named "address"))) ⟨"rate", [.named "int256"], [.named "int256"]⟩
          [.var ⟨"TMP_0", .temporary "quote", .named "int256"⟩]
          (some ⟨"TMP_1", .temporary "quote", .named "int256"⟩)] }] }] }] }
  function := "quote"
  check := .calls {
    callee := "rate"
    receiver := .stateVar "oracle" []
    cond := "is_contract"
    args := [⟨0, none, some (.comparison (.callReturn "rate") (.constant (.int 0)) .eq)⟩] }

def QuotedTwice (prepared : Prepared) (start : Path) : Prop :=
  "rate" ∈ start.returnsTracked.toList ∧
    (prepared.machine Trial.config).resultsOn "rate" false 5 [] start =
      ["quote.TMP_0!1", "quote.TMP_1!1"].map (fun r => some (r, .int)) ∧
    ∀ r ∈ ["quote.TMP_0!1", "quote.TMP_1!1"], eq (.var "rate#ret" .int) (.var r .int) ∈
      (prepared.machine Trial.config).addedOn "rate" false 5 [] start

instance (prepared : Prepared) (start : Path) : Decidable (QuotedTwice prepared start) :=
  inferInstanceAs (Decidable (_ ∧ _ ∧ _))

theorem quoting_quotes : ∃ prepared start, quoting.prepared = .ok prepared ∧ prepared.paths = [start] ∧
    QuotedTwice prepared start := by
  have computed : (quoting.prepared.toOption.map fun prepared => prepared.paths.map fun start =>
      decide (QuotedTwice prepared start)) = some [true] := by decide +kernel
  obtain ⟨prepared, prepares, paths⟩ := Option.map_eq_some_iff.mp computed
  obtain ⟨start, _, alone, here, rest⟩ := map_eq_cons_iff.mp paths
  cases map_eq_nil_iff.mp rest
  exact ⟨prepared, start, ok_of_toOption prepares, alone, of_decide_eq_true here⟩

/-- Both quotes may be three, and the symbol of the rate is then three too. -/
theorem equal_quotes_possible : ∃ prepared start, quoting.prepared = .ok prepared ∧ prepared.paths = [start] ∧
    ∃ E : Env, ["quote.TMP_0!1", "quote.TMP_1!1"].map (E.symbol · .int) = [(3 : Int), (3 : Int)] ∧
      (∀ t ∈ (prepared.machine Trial.config).addedOn "rate" false 5 [] start, E.Holds t) ∧
      E.symbol "rate#ret" .int = E.symbol "quote.TMP_1!1" .int := by
  obtain ⟨prepared, start, prepares, alone, tracked, results, _⟩ := quoting_quotes
  obtain ⟨agrees, possible⟩ := call_results_agree prepares (by decide) (by decide)
    (alone ▸ mem_singleton_self start) tracked false 5 [] results
  have equal {v : Int} (member : v ∈ [(3 : Int), 3]) : v = 3 := eq_of_mem_replicate (n := 2) member
  obtain ⟨E, values, holds⟩ := (possible [(3 : Int), (3 : Int)] rfl).mpr fun v here w there =>
    (equal here).trans (equal there).symm
  exact ⟨prepared, start, prepares, alone, E, values, holds, agrees E holds _ (by simp)⟩

/-- The first quote is not free to differ from the latest one. -/
theorem quotes_cannot_differ : ∃ prepared start, quoting.prepared = .ok prepared ∧ prepared.paths = [start] ∧
    ¬ ∃ E : Env, ["quote.TMP_0!1", "quote.TMP_1!1"].map (E.symbol · .int) = [(3 : Int), (4 : Int)] ∧
      ∀ t ∈ (prepared.machine Trial.config).addedOn "rate" false 5 [] start, E.Holds t := by
  obtain ⟨prepared, start, prepares, alone, _, _, pinned⟩ := quoting_quotes
  refine ⟨prepared, start, prepares, alone, ?_⟩
  rintro ⟨E, values, holds⟩
  have first := of_decide_eq_true (holds _ (pinned "quote.TMP_0!1" (by simp)))
  have second := of_decide_eq_true (holds _ (pinned "quote.TMP_1!1" (by simp)))
  have equal := int.inj (first.symm.trans second)
  obtain ⟨three, values⟩ := List.cons.inj values
  have impossible : (3 : Int) = 4 := three.symm.trans (equal.trans (List.cons.inj values).1)
  exact absurd impossible (by decide)

end TokenAudit
