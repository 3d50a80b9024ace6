import TokenAudit.Proofs.Term.Symbols
import TokenAudit.Verify.Judge

/-!
# Resolutions and what they keep

`Resolves x r a r'` says that the resolution `x` takes `r` to `r'` and gives `a`.  What a check can track and demand
depends on its kind and its conditions (`Check.Permits`).
-/

namespace TokenAudit

open List Resolve Term Condition TokenAudit.Fact

namespace Resolve

section

variable {α β : Type} {r r' r'' : Resolution} {a : α}

def Resolves (x : ResolveM α) (r : Resolution) (a : α) (r' : Resolution) : Prop :=
  (show Except VerifyError α × Resolution from x.run r) = (.ok a, r')

theorem resolves_pure {b : α} : Resolves (pure a) r b r' ↔ a = b ∧ r = r' := by
  show ((.ok a, r) : Except VerifyError α × Resolution) = (.ok b, r') ↔ _
  simp

theorem resolves_throw {e : VerifyError} : ¬ Resolves (throw e) r a r' := by
  show ¬ ((.error e, r) : Except VerifyError α × Resolution) = (.ok a, r')
  simp

theorem resolves_get {s : Resolution} : Resolves get r s r' ↔ r = s ∧ r = r' := by
  show ((.ok r, r) : Except VerifyError Resolution × Resolution) = (.ok s, r') ↔ _
  simp

theorem resolves_modify {f : Resolution → Resolution} {u : PUnit} : Resolves (modify f) r u r' ↔ f r = r' := by
  show ((.ok ⟨⟩, f r) : Except VerifyError PUnit × Resolution) = (.ok u, r') ↔ _
  simp

theorem resolves_bind {x : ResolveM α} {f : α → ResolveM β} {b : β} :
    Resolves (x >>= f) r b r'' ↔ ∃ a r', Resolves x r a r' ∧ Resolves (f a) r' b r'' := by
  unfold Resolves
  simp only [Bind.bind, ExceptT.bind, ExceptT.mk, ExceptT.run, ExceptT.bindCont, StateT.bind]
  cases x r with
  | mk result r' =>
    cases result with
    | error e =>
      constructor
      · nofun
      · rintro ⟨_, _, ⟨⟩, _⟩
    | ok a =>
      constructor
      · intro rest
        exact ⟨a, r', rfl, rest⟩
      · rintro ⟨_, _, ⟨⟩, rest⟩
        exact rest

end

inductive Interest where
  | condition
  | writes
  | levels
  | events
  | eventArgs
  | callArgs
  | checks
  | results
  deriving DecidableEq

end Resolve

open Resolve (Interest)

mutual

def Selector.callReturns : Selector → List String
  | .callReturn function => [function]
  | .arrLength array => array.callReturns
  | .stateVar _ keys => Selector.allCallReturns keys
  | _ => []

def Selector.allCallReturns : List Selector → List String
  | [] => []
  | s :: rest => s.callReturns ++ Selector.allCallReturns rest

end

mutual

def Condition.callReturns : Condition → List String
  | .comparison left right _ => left.callReturns ++ right.callReturns
  | .logic parts _ => allCallReturns parts
  | _ => []

def Condition.allCallReturns : List Condition → List String
  | [] => []
  | c :: rest => c.callReturns ++ allCallReturns rest

end

def Selector.Permits (K : Interest → Prop) (s : Selector) : Prop := s.callReturns ≠ [] → K .results

structure Condition.Permits (K : Interest → Prop) (c : Condition) : Prop where
  writes : c.writtenSelectors ≠ [] → K .writes
  uses : c.mentionsUsedInCheck = true → K .checks
  results : c.callReturns ≠ [] → K .results

structure ArgCheck.Permits (K : Interest → Prop) (a : ArgCheck) : Prop where
  value : ∀ s ∈ a.value, s.Permits K
  cond : ∀ c ∈ a.cond, c.Permits K

variable (parts : List Condition)

theorem Condition.allWrittenSelectors_eq : allWrittenSelectors parts = parts.flatMap writtenSelectors := by
  induction parts with
  | nil => rfl
  | cons c rest ih => rw [allWrittenSelectors, ih, flatMap_cons]

theorem Condition.anyMentionsUsedInCheck_eq : anyMentionsUsedInCheck parts = parts.any mentionsUsedInCheck := by
  induction parts with
  | nil => rfl
  | cons c rest ih => rw [anyMentionsUsedInCheck, ih, any_cons]

theorem Condition.allCallReturns_eq : allCallReturns parts = parts.flatMap callReturns := by
  induction parts with
  | nil => rfl
  | cons c rest ih => rw [allCallReturns, ih, flatMap_cons]

theorem Condition.Permits.part {K : Interest → Prop} {parts : List Condition} {op : Junction} {c : Condition}
    (permits : (logic parts op).Permits K) (member : c ∈ parts) : c.Permits K := by
  constructor
  · intro asks
    refine permits.writes fun none => asks ?_
    rw [writtenSelectors, allWrittenSelectors_eq, flatMap_eq_nil_iff] at none
    exact none c member
  · intro mentions
    apply permits.uses
    rw [mentionsUsedInCheck, anyMentionsUsedInCheck_eq]
    exact any_eq_true.mpr ⟨c, member, mentions⟩
  · intro refers
    refine permits.results fun none => refers ?_
    rw [callReturns, allCallReturns_eq, flatMap_eq_nil_iff] at none
    exact none c member

theorem Condition.permits_all (c : Condition) : c.Permits fun _ => True :=
  ⟨fun _ => trivial, fun _ => trivial, fun _ => trivial⟩

theorem ArgCheck.permits_all (a : ArgCheck) : a.Permits fun _ => True :=
  ⟨fun _ _ _ => trivial, fun c _ => c.permits_all⟩

def Check.Permits (K : Interest → Prop) : Check → Prop
  | .throws v => K .condition ∧ v.cond.Permits K
  | .returns v => ∀ c ∈ v.cond, K .condition ∧ c.Permits K
  | .emits v =>
    (∀ c ∈ v.cond, K .condition ∧ c.Permits K) ∧ K .events ∧ (∀ c ∈ v.stateCond, c.Permits K) ∧
      (v.change ≠ .unspecified → K .levels) ∧ ∀ a ∈ v.args, K .eventArgs ∧ a.Permits K
  | .assigns v => K .writes ∧ ∀ event ∈ v.event, K .events ∧ K .eventArgs
  | .calls v => K .condition ∧ v.receiver.Permits K ∧ ∀ a ∈ v.args, K .callArgs ∧ a.Permits K
  | .orders v =>
    match v.target with
    | .event _ _ => K .events ∧ K .eventArgs
    | .written _ _ => K .writes ∧ K .levels

theorem Check.permits_all (check : Check) : check.Permits fun _ => True := by
  cases check with
  | throws v => exact ⟨trivial, v.cond.permits_all⟩
  | returns v => exact fun c _ => ⟨trivial, c.permits_all⟩
  | emits v =>
    exact ⟨fun c _ => ⟨trivial, c.permits_all⟩, trivial, fun c _ => c.permits_all, fun _ => trivial,
      fun a _ => ⟨trivial, a.permits_all⟩⟩
  | assigns v => exact ⟨trivial, fun _ _ => ⟨trivial, trivial⟩⟩
  | calls v => exact ⟨trivial, fun _ => trivial, fun a _ => ⟨trivial, a.permits_all⟩⟩
  | orders v =>
    cases v with
    | mk target orderedBy =>
      cases target with
      | event name arg | written state level => exact ⟨trivial, trivial⟩

def ArgCheck.callReturns (a : ArgCheck) : List String :=
  a.value.toList.flatMap Selector.callReturns ++ a.cond.toList.flatMap Condition.callReturns

def Check.callReturns : Check → List String
  | .throws v => v.cond.callReturns
  | .returns v => v.cond.toList.flatMap Condition.callReturns
  | .emits v =>
    v.cond.toList.flatMap Condition.callReturns ++
      (v.stateCond.toList.flatMap Condition.callReturns ++ v.args.flatMap ArgCheck.callReturns)
  | .assigns _ => []
  | .calls v => v.receiver.callReturns ++ v.args.flatMap ArgCheck.callReturns
  | .orders _ => []

def Check.callees : Check → List String
  | .calls v => v.callee :: v.alternatives
  | _ => []

def Reading.under (opts : Reading) (e : Option Nat → Option Nat) : Reading := { opts with element := e opts.element }

namespace Subject

inductive Anchors (S : Subject) : Nat → Variable → Prop
  | getter {anchor : String} {i : Nat} {sv : StateVariable} (found : S.program.anchored? S.id.contract anchor = some i)
      (listed : S.contract.stateVariables[i]? = some sv) : Anchors S i (.ofState sv.name sv.type)

inductive Asks (S : Subject) : Variable → Prop
  | param {i : Nat} {v : Variable} (found : S.function.param? i = some v) : Asks S v
  | state {i : Nat} {v : Variable} (anchors : S.Anchors i v) : Asks S v

inductive Knows (S : Subject) : Variable → Prop
  | asked {v : Variable} (asks : S.Asks v) : Knows S v
  | sender : Knows S .sender

inductive Assumes (S : Subject) : Term → Prop
  | inequation {a b t : Term} (built : mkNe a b = .ok t) : Assumes S t
  | order {op : OrderOp} {a b t : Term} (built : mkOrder op a b = .ok t) : Assumes S t
  | code {receiver a b : Term} (built : Prepare.codeTerms receiver = .ok (a, b)) : Assumes S (mkImplies a b)
  | hash {receiver a b : Term} (built : Prepare.codeTerms receiver = .ok (a, b)) : Assumes S (mkImplies b a)
  | undeclared {name : String} (none : S.contract.event? name = none) : Assumes S (emitted name).denial

end Subject

namespace Resolve

/-- From where the invariant holds, what a run of the computation gives and where it ends are so related, and the
invariant holds where the computation fails. -/
def Delivers {α : Type} (I : Resolution → Prop) (J : α → Resolution → Prop) (x : ResolveM α) : Prop :=
  ∀ ⦃r⦄, I r → (∀ a, (outcome x r).1 = .ok a → J a (outcome x r).2) ∧
    ∀ e, (outcome x r).1 = .error e → I (outcome x r).2

section

variable {α β : Type} {I : Resolution → Prop} {Q : α → Prop} {J : β → Resolution → Prop} {x : ResolveM α}
  {f : α → ResolveM β}

theorem delivers_bind (first : Keeps I Q x) (next : ∀ a, Q a → Delivers I J (f a)) : Delivers I J (x >>= f) := by
  intro r inv
  obtain ⟨kept, given⟩ := first inv
  rw [outcome_bind]
  cases result : outcome x r with
  | mk value r' =>
    rw [result] at kept given
    cases value with
    | error e => exact ⟨nofun, fun _ _ => kept⟩
    | ok a => exact next a (given a rfl) kept

theorem leads_of_keeps {x : ResolveM β} {Q : β → Prop} (keeps : Keeps I Q x) (given : ∀ {b r}, I r → Q b → J b r) :
    Delivers I J x :=
  fun _ inv => ⟨fun b ran => given (keeps inv).1 ((keeps inv).2 b ran), fun _ _ => (keeps inv).1⟩

theorem Delivers.ends {x : ResolveM β} {r r' : Resolution} {b : β} (leads : Delivers I J x) (inv : I r)
    (resolves : Resolves x r b r') : J b r' := by
  have resolves : outcome x r = (.ok b, r') := resolves
  have related := (leads inv).1 b
  rw [resolves] at related
  exact related rfl

theorem Delivers.keeps (leads : Delivers I (fun _ => I) x) : Keeps I (fun _ => True) x := by
  intro r inv
  refine ⟨?_, fun _ _ => trivial⟩
  cases result : (outcome x r).1 with
  | ok a => exact (leads inv).1 a result
  | error e => exact (leads inv).2 e result

theorem keeps_reading {S : Subject} {v : Variable} {Q : Term → Prop}
    (kept : ∀ {r : Resolution}, I r → I { r with path := (r.path.read S.contract v).2 })
    (given : ∀ {r : Resolution} {t : Term}, I r → (r.path.read S.contract v).1 = .term t → Q t) :
    Keeps I Q (read S v) := by
  intro r inv
  show I (outcome (single (r.path.read S.contract v).1) { r with path := (r.path.read S.contract v).2 }).2 ∧
    ∀ t, (outcome (single (r.path.read S.contract v).1) { r with path := (r.path.read S.contract v).2 }).1 = .ok t → Q t
  cases value : (r.path.read S.contract v).1 with
  | term t =>
    refine ⟨kept inv, ?_⟩
    rintro _ ⟨⟩
    exact given inv value
  | tuple items =>
    refine ⟨kept inv, ?_⟩
    rintro _ ⟨⟩

end

theorem resolves_read {S : Subject} {v : Variable} {r r' : Resolution} {t : Term} :
    Resolves (read S v) r t r' ↔
      (r.path.read S.contract v).1 = .term t ∧ { r with path := (r.path.read S.contract v).2 } = r' := by
  have reads : Resolves (read S v) r t r' ↔
      Resolves (single (r.path.read S.contract v).1) { r with path := (r.path.read S.contract v).2 } t r' :=
    Iff.rfl
  rw [reads]
  cases (r.path.read S.contract v).1 with
  | term u => simp [single, resolves_pure]
  | tuple items => simp [single, resolves_throw]

open Prepare

/-- The values `V` that selectors stand for, and the conditions `C expected` that are made of them and of the
expected calls. -/
structure Vocabulary (V : Term → Prop) (C : List CallOn → Term → Prop) : Prop where
  constant (c : Constant) : V c.term
  int (n : Int) : V (.int n)
  fact {fact : Fact} (uncalled : fact.Uncalled) : V fact.term
  size (t : Term) (suffix : String) : V (t.derived suffix .int)
  select {a k t : Term} (array : V a) (key : V k) (built : mkSelect a k = .ok t) : V t
  equation {a b t : Term} (left : V a) (right : V b) (built : mkEq a b = .ok t) : C [] t
  order {op : OrderOp} {a b t : Term} (left : V a) (right : V b) (built : mkOrder op a b = .ok t) : C [] t
  bool (b : Bool) : C [] (.bool b)
  told {fact : Fact} (uncalled : fact.Uncalled) (predicate : fact.sort = .bool) : C [] fact.term
  called {expected : List CallOn} {call : CallOn} (member : call ∈ expected) : C expected (calledFact call).term
  not {expected : List CallOn} {t : Term} (holds : C expected t) : C expected (mkNot t)
  junction {expected : List CallOn} {j : Junction} {ts : List Term} (parts : ∀ t ∈ ts, C expected t) :
    C expected (mkJunction j ts)
  expecting {t : Term} (expected : List CallOn) (plain : C [] t) : C expected t

theorem any_vocabulary : Vocabulary (fun _ => True) fun _ _ => True := by
  constructor <;> intros <;> trivial

/-- A symbol of a formula that expects calls: it has the property, or it tells of one of the calls. -/
def Spoken (P : String → SmtSort → Prop) (expected : List CallOn) (name : String) (sort : SmtSort) : Prop :=
  P name sort ∨ ∃ call ∈ expected, name = (calledFact call).symbol ∧ sort = .bool

theorem within_vocabulary {P : String → SmtSort → Prop}
    (fact : ∀ {fact : Fact}, fact.Uncalled → P fact.symbol fact.sort) (size : ∀ name, P name .int) :
    Vocabulary (Term.Within P) fun expected => Term.Within (Spoken P expected) where
  constant c := by cases c <;> constructor
  int := .int
  fact uncalled := .var (fact uncalled)
  size _ _ := .var (size _)
  select array key built := array.mkSelect key built
  equation left right built := (Term.Within.mkEq left right built).mono fun _ _ => .inl
  order left right built := (Term.Within.mkOrder left right built).mono fun _ _ => .inl
  bool := .bool
  told uncalled _ := .var (.inl (fact uncalled))
  called member := .var (.inr ⟨_, member, rfl, rfl⟩)
  not := .mkNot
  junction := Term.Within.mkJunction
  expecting _ plain := by
    refine plain.mono fun _ _ spoken => .inl (spoken.resolve_right ?_)
    rintro ⟨_, ⟨⟩, _⟩

theorem forall_mem_pair {Q : Term → Prop} {a b : Term} (first : Q a) (second : Q b) : ∀ t ∈ [a, b], Q t :=
  forall_mem_cons.mpr ⟨first, forall_mem_singleton.mpr second⟩

namespace Vocabulary

variable {V : Term → Prop} {C : List CallOn → Term → Prop} (W : Vocabulary V C) {a b t : Term} {expected : List CallOn}

include W

theorem inequation (left : V a) (right : V b) (built : mkNe a b = .ok t) : C [] t := by
  unfold mkNe at built
  cases equation : mkEq a b with
  | error e =>
    rw [equation] at built
    cases built
  | ok u =>
    rw [equation] at built
    cases built
    exact W.not (W.equation left right equation)

theorem comparison {op : CompOp} (left : V a) (right : V b) (built : comparison op a b = .ok t) : C [] t := by
  cases op with
  | eq => exact W.equation left right built
  | notEq => exact W.inequation left right built
  | gt | lt | gte | lte => exact W.order left right built

theorem mismatch {n : Int} {fact : Fact} (good : V a) (selects : mkSelect a (.int n) = .ok b)
    (differs : mkNe fact.term b = .ok t) (uncalled : fact.Uncalled) : C [] t :=
  W.inequation (W.fact uncalled) (W.select good (W.int n) selects) differs

theorem codeTerms {receiver : Term} (built : codeTerms receiver = .ok (a, b)) : C [] a ∧ C [] b := by
  have hash (n : Int) : C [] (Term.not (.eq (receiver.derived "codehash" .int) (.int n))) :=
    W.inequation (W.size receiver "codehash") (W.int n) rfl
  cases built
  exact ⟨W.order (W.size receiver "code.length") (W.int 0) rfl,
    W.junction (forall_mem_pair (hash 0) (hash Keccak.emptyCodeHash))⟩

theorem facts {β : Type} (kind : β → Fact) (bs : List β) (j : Junction) (each : ∀ b ∈ bs, C expected (kind b).term) :
    C expected (mkJunction j (bs.map fun b => (kind b).term)) ∧
      C expected (mkJunction j (bs.map fun b => (kind b).denial)) := by
  constructor
  · refine W.junction fun t member => ?_
    obtain ⟨b, among, rfl⟩ := mem_map.mp member
    exact each b among
  · refine W.junction fun t member => ?_
    obtain ⟨b, among, rfl⟩ := mem_map.mp member
    exact W.not (each b among)

end Vocabulary

abbrev Likeness := ∀ α : Type, (α → Prop) → ResolveM α → ResolveM α → Prop

/-- The property `P` of two resolutions and of what they give holds of values and failures, and of sequences. -/
structure Composes (P : Likeness) : Prop where
  ok {α : Type} {Q : α → Prop} {a : α} (good : Q a) : P α Q (pure a) (pure a)
  fail {α : Type} {Q : α → Prop} (e : VerifyError) : P α Q (throw e) (throw e)
  seq {α β : Type} {Q : α → Prop} {Q' : β → Prop} {x y : ResolveM α} {f g : α → ResolveM β} (first : P α Q x y)
    (next : ∀ a, Q a → P β Q' (f a) (g a)) : P β Q' (x >>= f) (y >>= g)

abbrev Self {α : Type} (P : Likeness) (Q : α → Prop) (x : ResolveM α) : Prop := P α Q x x

/-- The means by which selectors and conditions are resolved have the property: variables are read, unsigned terms and
results of functions among `F` are noted, and what is among `K` is tracked.  The terms are values `V` and conditions
`C`.  Of two resolutions the second one takes another element, as `e` has it, for an array. -/
structure Resolving (S : Subject) (K : Interest → Prop) (F : String → Prop) (V : Term → Prop)
    (C : List CallOn → Term → Prop) (e : Option Nat → Option Nat) (P : Likeness) : Prop extends Composes P where
  terms : Vocabulary V C
  read {v : Variable} (known : S.Knows v) : Self P V (read S v)
  note {t : Term} (good : V t) : Self P (fun _ => True) (noteUnsigned t)
  refer {f : String} (named : F f) :
    Self P (fun _ => True) (modify fun r => { r with returnsOf := r.returnsOf.insert f })
  elementOf {t : Term} (opts : Reading) (good : V t) :
    P _ V (elementOf opts t) (elementOf (opts.under e) t)
  writes {i : Nat} {v : Variable} (allowed : K .writes) (anchors : S.Anchors i v) :
    Self P (fun _ => True) (onPath fun p => { p with varsTracked := p.varsTracked.insert i })
  checks {v : Variable} (allowed : K .checks) (asked : S.Asks v) : Self P (C []) (do
    let fact := usedInCheck ((← get).path.symbolBase v.id)
    onPath fun p => { p with checkTracked := insertNew v.id p.checkTracked }
    pure fact.term)

variable (opts : Reading) (fault : SelectorFault)

section

variable {S : Subject} {K : Interest → Prop} {F : String → Prop} {V : Term → Prop} {C : List CallOn → Term → Prop}
  {e : Option Nat → Option Nat} {P : Likeness} {t : Term} (index : Nat)

namespace Composes

variable (O : Composes P) {Q : Term → Prop} (s : Selector)

include O

theorem ofSorted {e : Except SortError Term} (given : ∀ t, e = .ok t → Q t) : Self P Q (sorted e) := by
  cases e with
  | ok t => exact O.ok (given t rfl)
  | error e => exact O.fail _

theorem ofRequired {t : Option Term} (given : ∀ u ∈ t, Q u) : Self P Q (required fault t) := by
  cases t with
  | some t => exact O.ok (given t rfl)
  | none => exact O.fail _

theorem ofElement (W : Vocabulary V C) (opts : Reading) (good : V t) : Self P V (elementOf opts t) := by
  unfold elementOf
  split
  · exact O.ofSorted fun _ built => W.select good (W.int _) built
  · exact O.fail _

theorem parameter : Self P S.Asks (parameter S index) := by
  unfold Resolve.parameter
  split
  · rename_i found
    exact O.ok (.param found)
  · exact O.fail _

theorem stateVariable : Self P (fun found : Nat × Variable => S.Anchors found.1 found.2) (stateVariable S s) := by
  unfold Resolve.stateVariable
  split
  · rename_i anchor keys
    have anchored : Self P (fun i => S.program.anchored? S.id.contract anchor = some i) (anchored S anchor) := by
      unfold anchored
      split
      · rename_i found
        exact O.ok found
      · exact O.fail _
    refine O.seq anchored fun i found => ?_
    split
    · rename_i listed
      exact O.ok (.getter found listed)
    · exact O.fail _
  · exact O.fail _

theorem eventNamed (name : String) :
    Self P (fun found : Nat × EventDecl => S.contract.event? name = some found) (eventNamed S name) := by
  unfold Resolve.eventNamed
  split
  · rename_i found
    exact O.ok found
  · exact O.fail _

theorem checkedVariable : Self P S.Asks (checkedVariable S s) := by
  unfold Resolve.checkedVariable
  split
  · exact O.parameter _
  · exact O.seq (O.stateVariable _) fun _ anchors => O.ok (.state anchors)
  · exact O.fail _

theorem found (good : V t) : Self P (fun found : Option Term => ∀ u ∈ found, V u) (pure (some t)) :=
  O.ok fun _ same => Option.some.inj same ▸ good

theorem guarded {α : Type} {Q : α → Prop} {err : VerifyError} {failing : Prop} [Decidable failing] {x y : ResolveM α}
    (rest : P α Q x y) : P α Q (do
      if failing then throw err
      x) (do
      if failing then throw err
      y) := by
  split
  · exact O.seq (Q := fun _ => False) (O.fail err) nofun
  · exact rest

end Composes

namespace Resolving

variable (R : Resolving S K F V C e P) {v : Variable}

include R

theorem functionParam : Self P V (functionParam S index) := by
  refine R.seq (R.parameter index) fun v asked => R.seq (R.read (.asked asked)) fun t good => ?_
  split
  · exact R.seq (R.note good) fun _ _ => R.ok good
  · exact R.ok good

theorem eventParam (event : String) (index : Nat) : Self P V (eventParam S event index) := by
  refine R.seq (R.eventNamed event) fun found _ => ?_
  dsimp only
  split
  · exact R.fail _
  · split
    · exact R.seq (R.note (R.terms.fact trivial)) fun _ _ => R.ok (R.terms.fact trivial)
    · exact R.ok (R.terms.fact trivial)

theorem callReturn {function : String} (named : F function) : Self P V (callReturn S function) :=
  R.seq (R.refer named) fun _ _ => R.ok (R.terms.fact trivial)

theorem stateValue {i : Nat} (anchors : S.Anchors i v) : Self P V (stateValue S opts v) := by
  unfold Resolve.stateValue
  split
  · exact R.ok (R.terms.fact trivial)
  · exact R.read (.asked (.state anchors))

end Resolving

theorem Vocabulary.callParam (W : Vocabulary V C) (callee : String) (index : Nat) : V (callParam S callee index) :=
  W.fact trivial

mutual

theorem Resolving.selector (R : Resolving S K F V C e P) (opts : Reading) : ∀ {s : Selector},
    (∀ f ∈ s.callReturns, F f) →
      P _ (fun found => ∀ t ∈ found, V t) (selector S opts s) (selector S (opts.under e) s)
  | .noneValue, _ => R.ok nofun
  | .constant value, _ => R.found (R.terms.constant value)
  | .msgSender, _ => R.seq (R.read .sender) fun _ => R.found
  | .funcParam index, _ => R.seq (R.functionParam index) fun _ => R.found
  | .eventParam index, _ => by
    rw [Resolve.selector, Resolve.selector]
    dsimp only [Reading.under]
    split
    · exact R.fail _
    · exact R.seq (R.eventParam _ index) fun _ => R.found
  | .callParam index, _ => by
    rw [Resolve.selector, Resolve.selector]
    dsimp only [Reading.under]
    split
    · exact R.fail _
    · exact R.found (R.terms.callParam _ index)
  | .callReturn function, named =>
    R.seq (R.callReturn (named function (mem_singleton.mpr rfl))) fun _ => R.found
  | .arrLength value, named =>
    R.seq (R.selector opts (show ∀ f ∈ value.callReturns, F f from named)) fun _ given =>
      R.seq (R.ofRequired _ given) fun _ _ => R.seq (R.note (R.terms.size _ _)) fun _ _ => R.found (R.terms.size _ _)
  | .stateVar anchor keys, named => by
    have onKeys : ∀ f ∈ Selector.allCallReturns keys, F f := named
    rw [Resolve.selector, Resolve.selector]
    refine R.seq (R.stateVariable _) fun found anchors => R.seq (R.stateValue opts anchors) fun array good => ?_
    refine R.seq (R.cellUnder opts good onKeys) fun cell good => ?_
    dsimp only
    split
    · exact R.seq (R.note good) fun _ _ => R.found good
    · exact R.found good

theorem Resolving.cellUnder (R : Resolving S K F V C e P) (opts : Reading) {array : Term} (good : V array) :
    ∀ {keys : List Selector}, (∀ f ∈ Selector.allCallReturns keys, F f) →
      P _ V (cellUnder S opts array keys) (cellUnder S (opts.under e) array keys)
  | [], _ => R.ok good
  | key :: rest, named => by
    have here : ∀ f ∈ key.callReturns, F f := fun f member => named f (mem_append_left _ member)
    have later : ∀ f ∈ Selector.allCallReturns rest, F f := fun f member => named f (mem_append_right _ member)
    have under {k : Term} (fits : V k) : P _ V (do Resolve.cellUnder S opts (← sorted (mkSelect array k)) rest)
        (do Resolve.cellUnder S (opts.under e) (← sorted (mkSelect array k)) rest) :=
      R.seq (R.ofSorted fun _ built => R.terms.select good fits built) fun _ good => R.cellUnder opts good later
    rw [Resolve.cellUnder, Resolve.cellUnder]
    refine R.seq (R.selector { opts with final := false } here) fun _ given =>
      R.seq (R.ofRequired _ given) fun k fits => ?_
    dsimp only
    split
    · exact R.seq (R.elementOf opts fits) fun _ => under
    · exact R.seq (R.ok fits) fun _ => under

end

mutual

theorem Resolving.condition (R : Resolving S K F V C e P) (opts : Reading) :
    ∀ {c : Condition}, c.Permits K → (∀ f ∈ c.callReturns, F f) →
      P _ (C []) (condition S opts c) (condition S (opts.under e) c)
  | .comparison left right op, _, named => by
    have onLeft : ∀ f ∈ left.callReturns, F f := fun f member => named f (mem_append_left _ member)
    have onRight : ∀ f ∈ right.callReturns, F f := fun f member => named f (mem_append_right _ member)
    have compares {l r : Term} (left : V l) (right : V r) : Self P (C []) (sorted (comparison op l r)) :=
      R.ofSorted fun _ built => R.terms.comparison left right built
    rw [Resolve.condition, Resolve.condition]
    refine R.seq (R.selector opts onLeft) fun _ given => R.seq (R.ofRequired _ given) fun l left => ?_
    refine R.seq (R.selector opts onRight) fun _ given => R.seq (R.ofRequired _ given) fun r right => ?_
    split
    · exact R.seq (R.elementOf opts left) fun _ left => compares left right
    · split
      · exact R.seq (R.elementOf opts right) fun _ right => compares left right
      · exact compares left right
  | .logic parts op, permits, named => by
    refine R.seq (R.conditions opts (fun c member => permits.part member) ?_) fun _ parts =>
      R.ok (R.terms.junction parts)
    intro c member f mentioned
    refine named f ?_
    rw [callReturns, allCallReturns_eq]
    exact mem_flatMap.mpr ⟨c, member, mentioned⟩
  | .written value change, permits, _ =>
    R.seq (R.stateVariable value) fun _ anchors => R.seq (R.writes (permits.writes nofun) anchors) fun _ _ =>
      R.ok (R.terms.told trivial rfl)
  | .usedInCheck value, permits, _ =>
    R.seq (R.checkedVariable value) fun _ asked => R.checks (permits.uses rfl) asked

theorem Resolving.conditions (R : Resolving S K F V C e P) (opts : Reading) :
    ∀ {cs : List Condition}, (∀ c ∈ cs, c.Permits K) → (∀ c ∈ cs, ∀ f ∈ c.callReturns, F f) →
      P _ (fun ts => ∀ t ∈ ts, C [] t) (conditions S opts cs) (conditions S (opts.under e) cs)
  | [], _, _ => R.ok nofun
  | c :: _, permits, named =>
    R.seq (R.condition opts (permits c (mem_cons_self ..)) (named c (mem_cons_self ..)))
      fun _ here => R.seq (R.conditions opts (fun c member => permits c (mem_cons_of_mem _ member))
        fun c member => named c (mem_cons_of_mem _ member)) fun _ later =>
      R.ok (forall_mem_cons.mpr ⟨here, later⟩)

end

theorem Resolving.assignBug (R : Resolving S K F V C id P) (v : AssignCheck)
    (named : ∀ f ∈ v.state.callReturns ++ v.value.callReturns, F f) : Self P (C []) (Judge.assignBug S v) := by
  obtain ⟨onState, onValue⟩ := forall_mem_append.mp named
  have differs {state expected : Term} (left : V state) (right : V expected) : Self P (C []) (do
      let wrong ← sorted (mkNe state expected)
      pure (mkAnd (wrong :: (v.event.map fun e => (emitted e).term).toList))) := by
    refine R.seq (R.ofSorted fun _ built => R.terms.inequation left right built) fun _ wrong => R.ok ?_
    refine R.terms.junction (forall_mem_cons.mpr ⟨wrong, fun t member => ?_⟩)
    obtain ⟨e, _, rfl⟩ := Option.map_eq_some_iff.mp (Option.mem_toList.mp member)
    exact R.terms.told trivial rfl
  refine R.seq (R.selector _ onState) fun _ given => R.seq (R.ofRequired _ given) fun state left =>
    R.seq (R.selector _ onValue) fun found given => ?_
  split
  · exact R.seq (R.ok (given _ rfl)) fun _ => differs left
  · split
    · rename_i default
      obtain ⟨c, rfl⟩ := constant_of_defaultOf default
      exact R.seq (R.ok (R.terms.constant c)) fun _ => differs left
    · exact R.seq (Q := fun _ => False) (R.fail _) nofun

/-- The means by which a check is set up have the property as well: terms are assumed and demanded, and what is among
`K` is tracked. -/
structure Setting (S : Subject) (K : Interest → Prop) (F : String → Prop) (V : Term → Prop)
    (C : List CallOn → Term → Prop) (e : Option Nat → Option Nat) (P : Likeness) :
    Prop extends Resolving S K F V C e P where
  assume {t : Term} (assumed : S.Assumes t) (fair : C [] t) : Self P (fun _ => True) (Prepare.assume t)
  demandAll {ts : List Term} (allowed : K .condition) (posed : ∀ t ∈ ts, C [] t) :
    Self P (fun _ => True) (demandAll ts)
  levels (allowed : K .levels) (i level : Nat) : Self P (fun _ => True) (trackLevel i level)
  events {i : Nat} {name : String} {decl : EventDecl} (allowed : K .events)
    (found : S.contract.event? name = some (i, decl)) : Self P (fun _ => True) (trackEvent i)
  eventArgs (allowed : K .eventArgs) (g : Table Nat (OrdSet Nat) → Table Nat (OrdSet Nat)) :
    Self P (fun _ => True) (onPath fun p => { p with eventArgsTracked := g p.eventArgsTracked })
  callArgs (allowed : K .callArgs) (callee : String) (index : Nat) : Self P (fun _ => True) (trackCallArg callee index)

/-- Setting up a check can end in each of its ways: where the property `P` is followed by `E`, so is `E`. -/
structure Preparing (S : Subject) (K : Interest → Prop) (F : String → Prop) (V : Term → Prop)
    (C : List CallOn → Term → Prop) (e : Option Nat → Option Nat) (P : Likeness)
    (E : ResolveM Outlook → ResolveM Outlook → Prop) : Prop extends Setting S K F V C e P where
  through {α : Type} {Q : α → Prop} {x y : ResolveM α} {f g : α → ResolveM Outlook} (first : P α Q x y)
    (next : ∀ a, Q a → E (f a) (g a)) : E (x >>= f) (y >>= g)
  abort (e : VerifyError) : E (throw e) (throw e)
  vacuous : E (pure .vacuous) (pure .vacuous)
  silent : E (pure (.ready [])) (pure (.ready []))
  results (allowed : K .condition) : E
    (do Prepare.demandAll ((← get).returnsOf.toList.map fun f => (fnCalled f).term); pure (.ready []))
    (do Prepare.demandAll ((← get).returnsOf.toList.map fun f => (fnCalled f).term); pure (.ready []))

def Accuses (C : List CallOn → Term → Prop) (functions : List String)
    (E : ResolveM Outlook → ResolveM Outlook → Prop) : Prop :=
  ∀ {parts : List Term} {expected : List CallOn}, (∀ call ∈ expected, call.function ∈ functions) →
    C expected (mkOr parts) →
      E (do setBuggy parts; pure (.ready expected)) (do setBuggy parts; pure (.ready expected))

namespace Setting

variable (R : Setting S K F V C e P) {i : Nat} {v : Variable} {within : Term → Term} {Q : Term → Prop}
  {args : List ArgCheck} {cond : Option Condition}

include R

theorem demand (allowed : K .condition) (fair : C [] t) : Self P (fun _ => True) (Prepare.demand t) :=
  R.demandAll allowed (forall_mem_singleton.mpr fair)

theorem demandCondition
    (permits : ∀ c ∈ cond, K .condition ∧ c.Permits K) (named : ∀ c ∈ cond, ∀ f ∈ c.callReturns, F f) :
    P _ (fun _ => True) (Prepare.demandCondition S opts cond) (Prepare.demandCondition S (opts.under e) cond) := by
  cases cond with
  | none => exact R.ok trivial
  | some c =>
    obtain ⟨allowed, permits⟩ := permits c rfl
    exact R.seq (R.condition opts permits (named c rfl)) fun _ => R.demand allowed

theorem eventArg (allowed : K .eventArgs) (i index : Nat) : Self P (fun _ => True) (trackEventArg i index) :=
  R.eventArgs allowed fun args => args.update i .empty (·.insert index)

theorem argumentBugs {arg : Term} (about : ∀ t, C [] t → Q (within t)) (plain : V arg)
    {a : ArgCheck} (permits : a.Permits K) (named : ∀ f ∈ a.callReturns, F f) :
    P _ (fun bugs => ∀ bug ∈ bugs, Q bug) (argumentBugs S opts within arg a)
      (argumentBugs S (opts.under e) within arg a) := by
  have no_bugs : ∀ bug ∈ ([] : List Term), Q bug := forall_mem_nil _
  unfold Prepare.argumentBugs
  extract_lets ends ends'
  have wrongCond {bugs : List Term} (wrong : ∀ bug ∈ bugs, Q bug) :
      P _ (fun bugs => ∀ bug ∈ bugs, Q bug) (ends bugs) (ends' bugs) := by
    unfold ends ends'
    split
    · exact R.seq (R.ok no_bugs) fun _ others => R.ok (forall_mem_append.mpr ⟨wrong, others⟩)
    · rename_i c cond
      have named : ∀ f ∈ c.callReturns, F f :=
        fun f member => named f (mem_append_right _ (by simp [cond, member]))
      exact R.seq (R.condition opts (permits.cond c cond) named) fun _ holds =>
        R.seq (R.ok (forall_mem_singleton.mpr (about _ (R.terms.not holds)))) fun _ others =>
        R.ok (forall_mem_append.mpr ⟨wrong, others⟩)
  split
  · exact R.seq (R.ok no_bugs) fun _ => wrongCond
  · rename_i s value
    have named : ∀ f ∈ s.callReturns, F f :=
      fun f member => named f (mem_append_left _ (by simp [value, member]))
    refine R.seq (R.selector opts named) fun found given => ?_
    split
    · exact R.seq (R.ofSorted fun _ built => R.terms.inequation plain (given _ rfl) built) fun _ differs =>
        R.seq (R.ok (forall_mem_singleton.mpr (about _ differs))) fun _ => wrongCond
    · exact R.seq (R.ok no_bugs) fun _ => wrongCond

theorem callArgumentBugs (callee : String) (about : ∀ t, C [] t → Q (within t))
    (permits : ∀ a ∈ args, K .callArgs ∧ a.Permits K) (named : ∀ a ∈ args, ∀ f ∈ a.callReturns, F f) :
    P _ (fun bugs => ∀ bug ∈ bugs, Q bug) (Prepare.callArgumentBugs S opts callee within args)
      (Prepare.callArgumentBugs S (opts.under e) callee within args) := by
  induction args with
  | nil => exact R.ok nofun
  | cons a rest ih =>
    obtain ⟨⟨allowed, here⟩, later⟩ := forall_mem_cons.mp permits
    obtain ⟨namedHere, named⟩ := forall_mem_cons.mp named
    exact R.seq (R.callArgs allowed callee a.index) fun _ _ =>
      R.seq (R.argumentBugs opts about (R.terms.callParam callee a.index) here namedHere) fun _ wrong =>
      R.seq (ih later named) fun _ others => R.ok (forall_mem_append.mpr ⟨wrong, others⟩)

theorem trackNamedEvents (allowed : K .events) (names : List String) :
    Self P (fun _ => True) (Prepare.trackNamedEvents S names) := by
  induction names with
  | nil => exact R.ok trivial
  | cons name rest ih =>
    unfold Prepare.trackNamedEvents
    split
    · rename_i found
      exact R.seq (R.events allowed found) fun _ _ => ih
    · rename_i none
      have denied : C [] (emitted name).denial := R.terms.not (R.terms.told trivial rfl)
      exact R.seq (R.assume (.undeclared none) denied) fun _ _ => ih

theorem cellAtFirstWrite (allowed : K .levels) (i : Nat) (name : String) (levels : List Nat)
    {cells : Term × Term} (good : V cells.1 ∧ V cells.2) :
    Self P (fun cells => V cells.1 ∧ V cells.2) (Prepare.cellAtFirstWrite i name levels cells) := by
  induction levels generalizing cells with
  | nil => exact R.ok good
  | cons level rest ih =>
    have key : V (writtenKey name 1 level).term := R.terms.fact trivial
    exact R.seq (R.levels allowed i level) fun _ _ =>
      R.seq (R.ofSorted fun _ built => R.terms.select good.2 key built) fun _ post =>
      R.seq (R.ofSorted fun _ built => R.terms.select good.1 key built) fun _ pre => ih ⟨pre, post⟩

theorem balanceChange (allowed : K .levels) (anchors : S.Anchors i v) (change : ChangeType) :
    Self P (fun ts => ∀ t ∈ ts, C [] t) (Prepare.balanceChange S i v change) := by
  have moves {cells : Term × Term} (good : V cells.1 ∧ V cells.2) {t : Term}
      (built : (if change = .tokenCreation then mkGt cells.2 cells.1 else mkLt cells.2 cells.1) = .ok t) :
      C [] t := by
    split at built
    · exact R.terms.order good.2 good.1 built
    · exact R.terms.order good.2 good.1 built
  have after : V (postExec v.name (.ofType v.type)).term := R.terms.fact trivial
  have count : V (writtenCount v.name).term := R.terms.fact trivial
  exact R.guarded (R.seq (R.read (.asked (.state anchors))) fun _ before =>
    R.seq (R.cellAtFirstWrite allowed i v.name _ ⟨before, after⟩) fun _ good =>
    R.seq (R.ofSorted fun _ built => moves good built) fun _ moved =>
    R.seq (R.ofSorted fun _ built => R.terms.equation count (R.terms.int 1) built) fun _ once =>
    R.ok (forall_mem_pair moved once))

theorem stateCondition (permits : ∀ c ∈ cond, c.Permits K) (named : ∀ c ∈ cond, ∀ f ∈ c.callReturns, F f)
    (levels : ∀ {value change}, cond = some (.written value change) → change ≠ .unspecified → K .levels) :
    P _ (fun found => ∀ state ∈ found, C [] state.1 ∧ ∀ t ∈ state.2, C [] t) (stateCondition S opts cond)
      (stateCondition S (opts.under e) cond) := by
  have stated {t : Term} {ts : List Term} (holds : C [] t) (change : ∀ t ∈ ts, C [] t) :
      ∀ state ∈ some (t, ts), C [] state.1 ∧ ∀ t ∈ state.2, C [] t := by
    rintro _ ⟨⟩
    exact ⟨holds, change⟩
  have unchanged : ∀ t ∈ ([] : List Term), C [] t := forall_mem_nil _
  unfold Prepare.stateCondition
  split
  · exact R.ok (stated (R.terms.bool true) unchanged)
  · have permits := permits _ rfl
    refine R.seq (R.stateVariable _) fun found anchors => ?_
    dsimp only
    split
    · refine R.seq (R.writes (permits.writes nofun) anchors) fun _ _ =>
        R.seq (R.condition opts permits (named _ rfl)) fun _ holds => ?_
      split
      · exact R.ok (stated holds unchanged)
      · rename_i specified
        exact R.seq (R.balanceChange (levels rfl specified) anchors _) fun _ change => R.ok (stated holds change)
    · exact R.ok nofun
  · exact R.fail _

theorem eventArgumentBugs (event : String) (i : Nat) (about : ∀ t, C [] t → Q (within t))
    (permits : ∀ a ∈ args, K .eventArgs ∧ a.Permits K) (named : ∀ a ∈ args, ∀ f ∈ a.callReturns, F f) :
    P _ (fun bugs => ∀ bug ∈ bugs, Q bug) (Prepare.eventArgumentBugs S opts event i within args)
      (Prepare.eventArgumentBugs S (opts.under e) event i within args) := by
  induction args with
  | nil => exact R.ok nofun
  | cons a rest ih =>
    obtain ⟨⟨allowed, here⟩, later⟩ := forall_mem_cons.mp permits
    obtain ⟨namedHere, named⟩ := forall_mem_cons.mp named
    exact R.seq (R.eventArg allowed i _) fun _ _ => R.seq (R.eventParam event a.index) fun _ plain =>
      R.seq (R.argumentBugs opts about plain here namedHere) fun _ wrong => R.seq (ih later named) fun _ others =>
      R.ok (forall_mem_append.mpr ⟨wrong, others⟩)

end Setting

namespace Preparing

variable {E : ResolveM Outlook → ResolveM Outlook → Prop} (R : Preparing S K F V C e P E)

include R

theorem throws {v : ThrowCheck} (permits : (Check.throws v).Permits K)
    (named : ∀ f ∈ (Check.throws v).callReturns, F f) : E (throws S opts v) (throws S (opts.under e) v) := by
  obtain ⟨allowed, permits⟩ := permits
  unfold Prepare.throws
  split
  · exact R.through (R.condition opts permits named) fun _ holds => R.through (R.demand allowed holds) fun _ _ =>
      R.results allowed
  · exact R.abort _

theorem returns {v : ReturnCheck} (permits : (Check.returns v).Permits K)
    (named : ∀ f ∈ (Check.returns v).callReturns, F f) :
    E (Prepare.returns S opts v) (Prepare.returns S (opts.under e) v) := by
  refine R.through (R.demandCondition opts permits fun c cond f member => named f ?_) fun _ _ => R.silent
  exact mem_flatMap.mpr ⟨c, Option.mem_toList.mpr cond, member⟩

theorem calls {v : CallCheck} (permits : (Check.calls v).Permits K) (named : ∀ f ∈ (Check.calls v).callReturns, F f)
    (accuses : Accuses C (v.callee :: v.alternatives) E) : E (calls S opts v) (calls S (opts.under e) v) := by
  obtain ⟨allowed, _, args⟩ := permits
  obtain ⟨namedReceiver, namedArgs⟩ := forall_mem_append.mp named
  unfold Prepare.calls
  split
  · exact R.through (Q := fun _ => False) (R.fail _) nofun
  refine R.through (R.selector opts namedReceiver) fun _ given =>
    R.through (R.ofRequired _ given) fun receiver good => ?_
  let expected := (v.callee :: v.alternatives).map fun f => CallOn.mk receiver.nameHint f
  have functions : ∀ call ∈ expected, call.function ∈ v.callee :: v.alternatives := by
    intro call member
    obtain ⟨f, among, rfl⟩ := mem_map.mp member
    exact among
  have made := (R.terms.facts calledFact expected .any fun _ => R.terms.called).1
  have notMade := (R.terms.facts calledFact expected .all fun _ => R.terms.called).2
  split
  · rename_i terms built
    refine R.through (R.ok (Q := fun terms => codeTerms receiver = .ok terms) built) fun terms built => ?_
    obtain ⟨hasCode, hasHash⟩ := R.terms.codeTerms built
    have isContract : C expected (mkOr [terms.1, terms.2]) :=
      R.terms.expecting expected (R.terms.junction (forall_mem_pair hasCode hasHash))
    refine R.through (R.assume (.code built)
        (R.terms.junction (forall_mem_pair (R.terms.not hasCode) hasHash))) fun _ _ =>
      R.through (R.assume (.hash built) (R.terms.junction (forall_mem_pair (R.terms.not hasHash) hasCode))) fun _ _ =>
      R.through (R.ofSorted fun _ built => R.terms.inequation good (R.terms.int 0) built) fun _ differs =>
      R.through (R.demand allowed differs) fun _ _ =>
      R.through (R.callArgumentBugs { opts with callee := some v.callee } _ (fun t plain => ?_) args
        fun a member f mentioned => namedArgs f (mem_flatMap.mpr ⟨a, member, mentioned⟩)) fun wrong about =>
      accuses functions (R.terms.junction (forall_mem_append.mpr ⟨?_, about⟩))
    · exact R.terms.junction (forall_mem_cons.mpr
        ⟨made, forall_mem_pair isContract (R.terms.expecting expected plain)⟩)
    · exact forall_mem_pair (R.terms.junction (forall_mem_pair notMade isContract))
        (R.terms.junction (forall_mem_pair made (R.terms.not isContract)))
  · exact R.through (Q := fun _ => False) (R.fail _) nofun

theorem emits {v : EmitCheck} (permits : (Check.emits v).Permits K) (named : ∀ f ∈ (Check.emits v).callReturns, F f)
    (accuses : Accuses C [] E) : E (Prepare.emits S opts v) (Prepare.emits S (opts.under e) v) := by
  obtain ⟨conditions, events, states, levels, args⟩ := permits
  have namedCond : ∀ c ∈ v.cond, ∀ f ∈ c.callReturns, F f := fun c cond f member =>
    named f (mem_append_left _ (mem_flatMap.mpr ⟨c, Option.mem_toList.mpr cond, member⟩))
  have namedState : ∀ c ∈ v.stateCond, ∀ f ∈ c.callReturns, F f := fun c cond f member =>
    named f (mem_append_right _ (mem_append_left _
      (mem_flatMap.mpr ⟨c, Option.mem_toList.mpr cond, member⟩)))
  have namedArgs : ∀ a ∈ v.args, ∀ f ∈ a.callReturns, F f := fun a member f mentioned =>
    named f (mem_append_right _ (mem_append_right _ (mem_flatMap.mpr ⟨a, member, mentioned⟩)))
  have specified {value : Selector} {change : ChangeType} (cond : v.stateCond = some (.written value change)) :
      v.change = change := by rw [EmitCheck.change, cond]
  have emission (j : Junction) := R.terms.facts emitted (v.event :: v.alternatives) j
    fun _ _ => R.terms.told trivial rfl
  refine R.through (R.demandCondition opts conditions namedCond) fun _ _ =>
    R.through (R.trackNamedEvents events _) fun _ _ =>
    R.through (R.stateCondition opts states namedState fun cond => specified cond ▸ levels) fun state given => ?_
  split
  · exact R.vacuous
  · rename_i cond moves
    obtain ⟨holds, change⟩ := given _ rfl
    have inChange {parts : List Term} (plain : ∀ t ∈ parts, C [] t) : C [] (mkAnd (parts ++ moves)) :=
      R.terms.junction (forall_mem_append.mpr ⟨plain, change⟩)
    have formula {wrong : List Term} (about : ∀ t ∈ wrong, C [] t) : C [] (mkOr
        ([mkAnd ([cond, mkAnd ((v.event :: v.alternatives).map fun e => (emitted e).denial)] ++ moves)] ++
          (if v.needsStateCond && v.stateCond.isSome then
            [mkAnd ([mkNot cond,
              mkOr ((v.event :: v.alternatives).map fun e => (emitted e).term)] ++ moves), mkNot cond]
          else []) ++ wrong)) := by
      refine R.terms.junction (forall_mem_append.mpr ⟨forall_mem_append.mpr ⟨?_, ?_⟩, about⟩)
      · exact forall_mem_singleton.mpr (inChange (forall_mem_pair holds (emission .all).2))
      · have denied := R.terms.not holds
        split
        · exact forall_mem_pair (inChange (forall_mem_pair denied (emission .any).1)) denied
        · exact forall_mem_nil _
    dsimp only
    split
    · exact R.through (R.ok (forall_mem_nil _)) fun _ about => accuses (forall_mem_nil _) (formula about)
    · refine R.through (R.eventNamed _) fun _ _ =>
        R.through (R.eventArgumentBugs { opts with event := some v.event } _ _ (fun t plain => ?_) args namedArgs)
          fun _ about => accuses (forall_mem_nil _) (formula about)
      exact inChange (forall_mem_cons.mpr ⟨holds, forall_mem_pair (emission .any).1 plain⟩)

theorem assigns {v : AssignCheck} (permits : (Check.assigns v).Permits K) : E (assigns S v) (assigns S v) := by
  obtain ⟨vars, events⟩ := permits
  unfold Prepare.assigns
  dsimp only
  split
  · exact R.through (Q := fun _ => False) (R.fail _) nofun
  refine R.through (R.stateVariable _) fun _ anchors => R.through (R.writes vars anchors) fun _ _ => ?_
  split
  · exact R.silent
  · rename_i event named
    obtain ⟨events, eventArgs⟩ := events event named
    split
    · rename_i i decl found
      exact R.through (R.events events found) fun _ _ => R.through (R.eventArgs eventArgs fun args =>
        args.insert i (.ofList (List.range decl.params.length))) fun _ _ => R.silent
    · rename_i none
      have denied : C [] (emitted event).denial := R.terms.not (R.terms.told trivial rfl)
      exact R.through (R.assume (.undeclared none) denied) fun _ _ => R.silent

theorem orders {v : OrderCheck} (permits : (Check.orders v).Permits K) :
    E (Prepare.orders S v) (Prepare.orders S v) := by
  cases v with
  | mk target orderedBy =>
    cases target with
    | event name arg =>
      exact R.through (R.eventNamed _) fun _ found => R.through (R.events permits.1 found) fun _ _ =>
        R.through (R.eventArg permits.2 _ _) fun _ _ => R.silent
    | written state level =>
      exact R.through (R.stateVariable _) fun _ anchors => R.through (R.writes permits.1 anchors) fun _ _ =>
        R.through (R.levels permits.2 _ _) fun _ _ => R.silent

/-- Setting up a check ends without a look, without a formula and without expected calls, or with a formula about
the expected calls, which are calls of functions that the check names. -/
theorem setup {check : Check} (permits : check.Permits K) (named : ∀ f ∈ check.callReturns, F f)
    (accuses : Accuses C check.callees E) : E (Prepare.setup S opts check) (Prepare.setup S (opts.under e) check) := by
  cases check with
  | throws v => exact R.throws opts permits named
  | returns v => exact R.returns opts permits named
  | assigns v => exact R.assigns permits
  | orders v => exact R.orders permits
  | calls v => exact R.calls opts permits named accuses
  | emits v => exact R.emits opts permits named accuses

end Preparing

end

/-- The invariant withstands what resolving selectors and setting up a check does: it registers what is among `K`
and refers to results of functions among `F`.  The terms are values `V` and conditions `C`. -/
structure Upholding (S : Subject) (K : Interest → Prop) (F : String → Prop) (V : Term → Prop)
    (C : List CallOn → Term → Prop) (I : Resolution → Prop) : Prop where
  terms : Vocabulary V C
  value {r : Resolution} {v : Variable} {t : Term} (inv : I r) (known : S.Knows v)
    (given : (r.path.read S.contract v).1 = .term t) : V t
  read {r : Resolution} {v : Variable} (inv : I r) (known : S.Knows v) :
    I { r with path := (r.path.read S.contract v).2 }
  assume {r : Resolution} {t : Term} (inv : I r) (assumed : S.Assumes t) (fair : C [] t) :
    I { r with path := r.path.assume t }
  unsigned {r : Resolution} {t : Term} (inv : I r) (good : V t) : I { r with unsignedTerms := r.unsignedTerms ++ [t] }
  refers {r : Resolution} {f : String} (inv : I r) (named : F f) : I { r with returnsOf := r.returnsOf.insert f }
  demand {r : Resolution} {ts : List Term} (inv : I r) (allowed : K .condition)
    (posed : ∀ t ∈ ts, C [] t ∨ ∃ f, t = (fnCalled f).term) :
    I { r with path := { r.path with required := r.path.required ++ ts } }
  writes {r : Resolution} {i : Nat} {v : Variable} (inv : I r) (allowed : K .writes) (anchors : S.Anchors i v) :
    I { r with path := { r.path with varsTracked := r.path.varsTracked.insert i } }
  levels {r : Resolution} (levels : Table Nat (OrdSet Nat)) (inv : I r) (allowed : K .levels) :
    I { r with path := { r.path with keyLevels := levels } }
  events {r : Resolution} {i : Nat} {name : String} {decl : EventDecl} (inv : I r) (allowed : K .events)
    (found : S.contract.event? name = some (i, decl)) :
    I { r with path := { r.path with eventsTracked := r.path.eventsTracked.insert i } }
  eventArgs {r : Resolution} (args : Table Nat (OrdSet Nat)) (inv : I r) (allowed : K .eventArgs) :
    I { r with path := { r.path with eventArgsTracked := args } }
  callArgs {r : Resolution} (args : Table String (OrdSet Nat)) (inv : I r) (allowed : K .callArgs) :
    I { r with path := { r.path with callArgsTracked := args } }
  checks {r : Resolution} {v : Variable} (inv : I r) (allowed : K .checks) (asked : S.Asks v) :
    I { r with path := { r.path with checkTracked := insertNew v.id r.path.checkTracked } }

section

variable {S : Subject} {K : Interest → Prop} {F : String → Prop} {V : Term → Prop} {C : List CallOn → Term → Prop}
  {I : Resolution → Prop} {t : Term}

theorem keeping : Composes fun _ Q x _ => Keeps I Q x := ⟨keeps_pure, keeps_throw, .bind⟩

theorem keeps_sorted {e : Except SortError Term} {Q : Term → Prop} (given : ∀ t, e = .ok t → Q t) :
    Keeps I Q (sorted e) :=
  keeping.ofSorted given

theorem keeps_required {t : Option Term} {Q : Term → Prop} (given : ∀ u ∈ t, Q u) : Keeps I Q (required fault t) :=
  keeping.ofRequired fault given

theorem Upholding.setting (U : Upholding S K F V C I) : Setting S K F V C id fun _ Q x _ => Keeps I Q x where
  toComposes := keeping
  terms := U.terms
  read known := keeps_reading (fun inv => U.read inv known) fun inv => U.value inv known
  note good := keeps_modify fun _ inv => U.unsigned inv good
  refer named := keeps_modify fun _ inv => U.refers inv named
  elementOf := keeping.ofElement U.terms
  writes allowed anchors := keeps_modify fun _ inv => U.writes inv allowed anchors
  checks allowed asked := .bind keeps_get fun _ _ => .bind (keeps_modify fun _ inv => U.checks inv allowed asked)
    fun _ _ => keeps_pure (U.terms.told trivial rfl)
  assume assumed fair := keeps_modify fun _ inv => U.assume inv assumed fair
  demandAll allowed posed := keeps_modify fun _ inv => U.demand inv allowed fun t member => .inl (posed t member)
  levels allowed _ _ := keeps_modify fun _ inv => U.levels _ inv allowed
  events allowed found := keeps_modify fun _ inv => U.events inv allowed found
  eventArgs allowed _ := keeps_modify fun _ inv => U.eventArgs _ inv allowed
  callArgs allowed _ _ := keeps_modify fun _ inv => U.callArgs _ inv allowed

namespace Upholding

variable (U : Upholding S K F V C I) {J : Outlook → Resolution → Prop}

include U

theorem preparing (vacuous : ∀ {r : Resolution}, I r → J .vacuous r)
    (silent : ∀ {r : Resolution}, I r → J (.ready []) r) :
    Preparing S K F V C id (fun _ Q x _ => Keeps I Q x) fun x _ => Delivers I J x where
  toSetting := U.setting
  through := delivers_bind
  abort e := leads_of_keeps (Q := fun _ => False) (keeps_throw e) nofun
  vacuous := leads_of_keeps (keeps_pure (Q := (· = .vacuous)) rfl) fun inv same => same ▸ vacuous inv
  silent := leads_of_keeps (keeps_pure (Q := (· = .ready [])) rfl) fun inv same => same ▸ silent inv
  results allowed := by
    refine delivers_bind keeps_get fun _ _ =>
      delivers_bind (keeps_modify fun _ inv => U.demand inv allowed fun t member => ?_)
      fun _ _ => leads_of_keeps (keeps_pure rfl) fun inv same => same ▸ silent inv
    obtain ⟨f, _, rfl⟩ := mem_map.mp member
    exact .inr ⟨f, rfl⟩

theorem delivers_setup {check : Check} (permits : check.Permits K) (named : ∀ f ∈ check.callReturns, F f)
    (vacuous : ∀ {r : Resolution}, I r → J .vacuous r) (silent : ∀ {r : Resolution}, I r → J (.ready []) r)
    (accuses : ∀ {r : Resolution} {expected : List CallOn} {bug : Term}, I r →
      (∀ call ∈ expected, call.function ∈ check.callees) → C expected bug →
        J (.ready expected) { r with path := { r.path with buggy := some bug } }) :
    Delivers I J (setup S opts check) := by
  refine (U.preparing vacuous silent).setup opts permits named fun functions about r inv => ⟨?_, ?_⟩
  · rintro _ ⟨⟩
    exact accuses inv functions about
  · rintro _ ⟨⟩

theorem and {I' : Resolution → Prop} (U' : Upholding S K F (fun _ => True) (fun _ _ => True) I') :
    Upholding S K F V C fun r => I r ∧ I' r where
  terms := U.terms
  value inv := U.value inv.1
  read inv known := ⟨U.read inv.1 known, U'.read inv.2 known⟩
  assume inv assumed fair := ⟨U.assume inv.1 assumed fair, U'.assume inv.2 assumed trivial⟩
  unsigned inv good := ⟨U.unsigned inv.1 good, U'.unsigned inv.2 trivial⟩
  refers inv named := ⟨U.refers inv.1 named, U'.refers inv.2 named⟩
  demand inv allowed posed := ⟨U.demand inv.1 allowed posed, U'.demand inv.2 allowed fun _ _ => .inl trivial⟩
  writes inv allowed anchors := ⟨U.writes inv.1 allowed anchors, U'.writes inv.2 allowed anchors⟩
  levels levels inv allowed := ⟨U.levels levels inv.1 allowed, U'.levels levels inv.2 allowed⟩
  events inv allowed found := ⟨U.events inv.1 allowed found, U'.events inv.2 allowed found⟩
  eventArgs args inv allowed := ⟨U.eventArgs args inv.1 allowed, U'.eventArgs args inv.2 allowed⟩
  callArgs args inv allowed := ⟨U.callArgs args inv.1 allowed, U'.callArgs args inv.2 allowed⟩
  checks inv allowed asked := ⟨U.checks inv.1 allowed asked, U'.checks inv.2 allowed asked⟩

end Upholding

theorem keeps_assumeUnsignedTerms (ts : List Term) (assume : ∀ {r : Resolution} {t u : Term}, I r → t ∈ ts →
    mkGe t .zero = .ok u → I { r with path := r.path.assume u }) :
    Keeps I (fun _ => True) (assumeUnsignedTerms ts) := by
  induction ts with
  | nil => exact keeps_pure trivial
  | cons t rest ih =>
    exact .bind (keeps_sorted fun _ built => built) fun _ built =>
      .bind (keeps_modify fun _ inv => assume inv (mem_cons_self ..) built) fun _ _ =>
      ih fun inv member => assume inv (mem_cons_of_mem _ member)

theorem names_upholding :
    Upholding S K F (fun _ => True) (fun _ _ => True) fun r => ∀ f ∈ r.returnsOf.toList, F f where
  terms := any_vocabulary
  value _ _ _ := trivial
  read inv _ := inv
  assume inv _ _ := inv
  unsigned inv _ := inv
  refers {r f} inv named := by
    intro g member
    rcases (OrdSet.mem_insertInto f g r.returnsOf.toList).mp member with rfl | old
    · exact named
    · exact inv g old
  demand inv _ _ := inv
  writes inv _ _ := inv
  levels _ inv _ := inv
  events inv _ _ := inv
  eventArgs _ inv _ := inv
  callArgs _ inv _ := inv
  checks inv _ _ := inv

end

end Resolve

end TokenAudit
