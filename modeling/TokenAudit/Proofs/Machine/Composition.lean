import TokenAudit.Proofs.Machine.Upkeep
import TokenAudit.Proofs.Term.Symbols

/-!
# How operations are put together

Every operation of the machine is put together from few means.
-/

namespace TokenAudit

open List Machine Instruction

/-- The failure lies in an instruction, not in the place the path stands at or in the solver. -/
def PathError.isLocal : PathError → Bool
  | .completedPath => false
  | .missingNode _ _ => false
  | .missingFunction => false
  | .solver _ => false
  | _ => true

namespace Machine

open Upkeep

variable {name : String} {p : Path}

theorem stateVariable_of_stateRoot {M : Machine} {v : Variable} {i : Nat}
    (rooted : M.stateRoot? p v = some (i, name)) : ∃ sv, M.contract.stateVariable? name = some (i, sv) := by
  unfold stateRoot? at rooted
  dsimp only at rooted
  split at rooted
  · obtain ⟨⟨_, sv⟩, found, same⟩ := Option.map_eq_some_iff.mp rooted
    cases same
    exact ⟨sv, found⟩
  · cases rooted

/-- The property `P` of computations and of what they return is closed under the means of the machine, on paths of `I`
whose changes lie in `S`. -/
structure Composes (I : Path → Prop) (S : Path → Path → Prop)
    (P : ∀ α : Type, (α → Prop) → StepM α → Prop) : Prop where
  stay {p : Path} (inv : I p) : S p p
  ok {α : Type} {Q : α → Prop} {a : α} (good : Q a) : P α Q (pure a)
  fail {α : Type} {Q : α → Prop} {e : PathError} (inside : e.isLocal = true) : P α Q (throw e)
  look {α : Type} {Q : α → Prop} {f : Path → StepM α} (blind : ∀ p id, f (p.fork id) = f p)
    (next : ∀ p, I p → P α Q (f p)) : P α Q (get >>= f)
  change {α : Type} {Q : α → Prop} {g : Path → α × Path} (holds : ∀ p, I p → S p (g p).2 ∧ Q (g p).1)
    (blind : ∀ p id, g (p.fork id) = ((g p).1, (g p).2.fork id)) : P α Q (modifyGet g)
  seq {α β : Type} {Q : α → Prop} {Q' : β → Prop} {x : StepM α} {f : α → StepM β} (first : P α Q x)
    (next : ∀ a, Q a → P β Q' (f a)) : P β Q' (x >>= f)

structure Operates (M : Machine) (A : Part → Prop) (I : Path → Prop) (S : Path → Path → Prop)
    (P : ∀ α : Type, (α → Prop) → StepM α → Prop) (Good Fair : Term → Prop) (Bound : VarId → Prop)
    (Seen : Variable → Prop) : Prop extends Composes I S P, Withstands M A I S Good Fair Bound Seen

variable {loc : Location} {i : Instruction}

section

variable {M : Machine} {A : Part → Prop} {I : Path → Prop} {S : Path → Path → Prop}
  {P : ∀ α : Type, (α → Prop) → StepM α → Prop} {Good Fair : Term → Prop} {Bound : VarId → Prop}
  {Seen : Variable → Prop} (O : Operates M A I S P Good Fair Bound Seen) {α : Type} {Q : α → Prop} {t : Term}
  {v target : Variable} {x : Value} {operand source destination : Operand} {operands arguments values : List Operand}
  {keys : List Term} {f : Function} {ways : List Successor} {n : Node}

theorem fairEnd_none : FairEnd Fair none := nofun

theorem fairEnd_some (fair : FairWays Fair ways) : FairEnd Fair (some ways) := by
  intro all same
  cases same
  exact fair

theorem fairWays_free (free : ∀ way ∈ ways, way.constraint? = none) : FairWays Fair ways := by
  intro way member t constraint
  rw [free way member] at constraint
  cases constraint

theorem good_of_linkKeys {links : Table VarId IndexLink}
    (keys : ∀ {v link}, links.get? v = some link → Good link.key) {fuel : Nat} {v : VarId} {above : List Term}
    (walked : linkKeys links fuel v = some above) : ∀ key ∈ above, Good key := by
  induction fuel generalizing v above with
  | zero =>
    rw [linkKeys, Option.ite_none_right_eq_some] at walked
    cases walked.2
    exact forall_mem_nil _
  | succ fuel ih =>
    unfold linkKeys at walked
    split at walked
    · rename_i link found
      obtain ⟨rest, onward, rfl⟩ := Option.map_eq_some_iff.mp walked
      exact forall_mem_cons.mpr ⟨keys found, ih onward⟩
    · cases walked
      exact forall_mem_nil _

def wayBack (frames : List Frame) : Successor :=
  (frames.head?.map fun frame => .goto frame.returnTo none).getD .finish

def returned (p : Path) : Path := { p with stack := p.stack.tail }

theorem returned_of_nil (stack : p.stack = []) : returned p = p := by
  unfold returned
  rw [stack, tail_nil, ← stack]

theorem returned_of_cons {frame : Frame} {rest : List Frame} (stack : p.stack = frame :: rest) :
    returned p = { p with stack := rest } := by
  rw [returned, stack, tail_cons]

theorem leaveStraight_back {fn : FnId} (ends : n.sons = []) :
    leaveStraight fn n = modifyGet fun p => ([wayBack p.stack], returned p) := by
  rw [leaveStraight, ends]
  funext p
  show outcome _ p = (Except.ok [wayBack p.stack], returned p)
  rw [outcome_get_bind]
  cases stack : p.stack with
  | nil =>
    rw [returned_of_nil stack]
    rfl
  | cons frame rest =>
    rw [returned_of_cons stack]
    rfl

namespace Operates

include O

theorem good_zero : Good Term.zero := O.terms.constant (.int 0)

theorem noted {g : Path → Path} (holds : ∀ p, I p → S p (g p)) (blind : ∀ p id, g (p.fork id) = (g p).fork id) :
    P _ Any (modify g) :=
  O.change (fun p inv => ⟨holds p inv, trivial⟩) fun p id => Prod.ext rfl (blind p id)

theorem ofSorted {e : Except SortError α} (good : ∀ a, e = .ok a → Q a) : P _ Q (sorted e) := by
  cases e with
  | error e => exact O.fail rfl
  | ok a => exact O.ok (good a rfl)

theorem ofSingle (good : x.All Good) : P _ Good (single x) := by
  cases good with
  | term good => exact O.ok good
  | tuple _ => exact O.fail rfl

theorem assumes (fair : Fair t) : P _ Any (assume t) :=
  O.noted (fun _ inv => O.assume inv fair) fun _ _ => rfl

theorem assumed {e : Except SortError Term} (fair : ∀ t, e = .ok t → Fair t) : P _ Any (do assume (← sorted e)) :=
  O.seq (O.ofSorted fair) fun _ good => O.assumes good

theorem bindId {v : VarId} (free : Bound v) (good : x.All Good) : P _ Any (modify (Path.bind · v x)) :=
  O.noted (fun _ inv => O.bind inv free good) fun _ _ => rfl

theorem binds (free : Bound v.id) (good : x.All Good) : P _ Any (bind v x) := O.bindId free good

theorem redefines (free : Bound v.id) : P _ (Value.All Good) (redefine v) :=
  O.change (fun _ inv => O.redefine inv free) fun _ _ => rfl

theorem fresh (free : Bound v.id) : P _ Any (do let _ ← redefine v) :=
  O.seq (O.redefines free) fun _ _ => O.ok trivial

theorem reads (seen : Seen v) : P _ (Value.All Good) (M.read v) :=
  O.change (fun _ inv => O.read inv seen) fun p id => read_fork p id M.contract v

theorem valueOf (seen : Operand.ForEach Seen [operand]) : P _ (Value.All Good) (M.valueOf operand) := by
  cases operand with
  | const c => exact O.change (fun _ inv => ⟨O.stay inv, .term (O.terms.constant c)⟩) fun _ _ => rfl
  | var v => exact O.reads (seen v (mem_singleton.mpr rfl))

theorem termOf (seen : Operand.ForEach Seen [operand]) : P _ Good (M.termOf operand) :=
  O.seq (O.valueOf seen) fun _ good => O.ofSingle good

theorem valuesOf (seen : Operand.ForEach Seen operands) :
    P _ (fun values => ∀ x ∈ values, x.All Good) (M.valuesOf operands) := by
  induction operands with
  | nil => exact O.ok (by simp)
  | cons o rest ih =>
    refine O.seq (O.valueOf (seen.subset (by simp))) fun x good =>
      O.seq (ih (seen.subset (by simp))) fun values all => O.ok ?_
    exact forall_mem_cons.mpr ⟨good, all⟩

theorem fits (free : Bound v.id) (good : x.All Good) : P _ (Value.All Good) (fitted v x) := by
  cases good with
  | tuple good => exact O.ok (.tuple good)
  | term good =>
    unfold fitted
    dsimp only
    split
    · rename_i fits
      exact O.ok (.term (O.terms.fit good fits))
    · exact O.redefines free

theorem unsigned (type : ContractType) (good : x.All Good) : P _ Any (modify (Path.assumeUnsigned · x type)) := by
  refine O.noted (fun p inv => ?_) fun p id => assumeUnsigned_fork p id x type
  unfold Path.assumeUnsigned
  split
  · cases good with
    | tuple _ => exact O.stay inv
    | term good =>
      dsimp only
      split
      · rename_i built
        exact O.assume inv (O.terms.order good O.good_zero built)
      · exact O.stay inv
  · exact O.stay inv

theorem recordDependencies (target : Variable) (vars : List Variable) : P _ Any (M.recordDependencies target vars) := by
  unfold Machine.recordDependencies
  split
  · exact O.noted (fun p inv => O.depend _ p.aliases inv) fun _ _ => rfl
  · exact O.ok trivial

theorem recordOperands (target : Variable) (operands : List Operand) : P _ Any (M.recordOperands target operands) :=
  O.recordDependencies target _

theorem aliased (v w : VarId) : P _ Any (modify (Path.addAlias · v w)) :=
  O.noted (fun p inv => O.depend p.definedBy _ inv) fun _ _ => rfl

theorem marks (touched : A .checks) (operand : Operand) : P _ Any (modify (Path.markUsedInCheck operand)) :=
  O.noted (fun _ inv => O.mark operand inv touched) fun p id => markUsedInCheck_fork p id operand

theorem recordWrite (touched : A .writes) (target : Variable) : P _ Any (M.recordWrite target) := by
  unfold Machine.recordWrite
  split
  · refine O.noted (fun p inv => ?_) fun p id => ?_
    · split
      · rename_i i name root
        obtain ⟨sv, found⟩ := stateVariable_of_stateRoot root
        exact O.noteWrite inv found _ touched
      · exact O.stay inv
    · have unread : M.stateRoot? (p.fork id) target = M.stateRoot? p target := rfl
      rw [unread]
      cases M.stateRoot? p target with
      | some root => exact noteWrite_fork p id _ _ _
      | none => rfl
  · exact O.ok trivial

theorem pinsKeys {place : Nat × StateVariable} (known : M.contract.stateVariable? name = some place)
    (write : Nat) (levels : List Nat) (good : ∀ key ∈ keys, Good key) : P _ Any (pinKeys name write keys levels) := by
  induction levels with
  | nil => exact O.ok trivial
  | cons level rest ih =>
    unfold pinKeys
    split
    · rename_i key found
      exact O.seq (O.ofSorted fun _ built => O.pinned (.key _ _ known) (good key (mem_of_getElem? found)) built)
        fun _ fair => O.seq (O.assumes fair) fun _ _ => ih
    · exact ih

theorem recordKeys (target : Variable) (good : ∀ key ∈ keys, Good key) : P _ Any (M.recordKeys target keys) := by
  refine O.look (fun _ _ => rfl) fun p inv => ?_
  split
  · split
    · rename_i i name root
      obtain ⟨sv, known⟩ := stateVariable_of_stateRoot root
      split
      · exact O.pinsKeys known _ _ good
      · exact O.ok trivial
    · exact O.ok trivial
  · exact O.ok trivial

theorem writesBack (linked : Linked I Good Bound) (fuel : Nat) {v : VarId} (free : Bound v) (good : Good t)
    (passed : ∀ key ∈ keys, Good key) : P _ (fun all => ∀ key ∈ all, Good key) (writeBack fuel v t keys) := by
  induction fuel generalizing v t keys with
  | zero => exact O.seq (O.bindId free (.term good)) fun _ _ => O.ok passed
  | succ fuel ih =>
    refine O.seq (O.bindId free (.term good)) fun _ _ => O.look (fun _ _ => rfl) fun p inv => ?_
    split
    · exact O.ok passed
    · rename_i link found
      obtain ⟨free, array, key⟩ := linked inv free found
      have passed := forall_mem_cons.mpr ⟨key, passed⟩
      exact O.seq (O.ofSorted fun _ built => O.terms.store array key good built) fun _ good => ih free good passed

theorem assign (linked : Linked I Good Bound) (free : Bound target.id) (good : x.All Good) :
    P _ Any (M.assign target x) := by
  refine O.look (fun _ _ => rfl) fun p inv => ?_
  split
  · exact O.seq (O.fits free good) fun _ good => O.binds free good
  · rename_i link found
    obtain ⟨behind, array, key⟩ := linked inv free found
    exact O.seq (O.ofSingle good) fun t good =>
      O.seq (O.ofSorted fun _ built => O.terms.store array key good built) fun _ updated =>
      O.seq (O.binds free (.term good)) fun _ _ =>
      O.seq (O.writesBack linked _ behind updated (forall_mem_singleton.mpr key)) fun _ keys =>
      O.recordKeys _ keys

theorem havoc {target : Option Variable} (operands : List Operand) (free : ∀ t, target = some t → Bound t.id) :
    P _ Any (M.havoc target operands) := by
  cases target with
  | none => exact O.ok trivial
  | some t => exact O.seq (O.recordOperands t operands) fun _ _ => O.fresh (free t rfl)

theorem checkedCondition (touched : A .checks) (name : String) (seen : Operand.ForEach Seen arguments) :
    P _ (fun t => Good t ∧ t.sort = .bool) (M.checkedCondition name arguments) := by
  cases arguments with
  | nil => exact O.fail rfl
  | cons operand rest =>
    have condition : P _ (fun t => Good t ∧ t.sort = .bool) (do sorted (Term.truthy (← M.termOf operand))) :=
      O.seq (O.termOf (seen.subset (by simp))) fun t good =>
        O.ofSorted fun _ built => ⟨O.terms.truthy good built, Term.truthy_sort built⟩
    rw [checkedCondition]
    split
    · exact O.seq (O.marks touched operand) fun _ _ => condition
    · exact condition

theorem builtinValue (name : String) {target : Option Variable} (seen : Operand.ForEach Seen arguments)
    (free : ∀ t, target = some t → Bound t.id) : P _ Any (M.builtinValue name arguments target) := by
  unfold Machine.builtinValue
  split
  · rename_i t suffix account rest coded
    have unhashed : '#' ∉ suffix.toList := by
      unfold codeSuffix? at coded
      split at coded
      · cases coded
        decide
      · split at coded
        · cases coded
          decide
        · cases coded
    exact O.seq (O.termOf (seen.subset (by simp))) fun a _ => O.binds (free t rfl) (.term (O.terms.derived a unhashed))
  · rename_i t text _ _
    exact O.binds (free t rfl) (.term (O.terms.constant (.int _)))
  · exact O.havoc _ free

theorem builtinCall (touched : A .checks) (loc : Location) (function : String) {target : Option Variable}
    (seen : Operand.ForEach Seen arguments) (free : ∀ t, target = some t → Bound t.id) :
    P _ (FairEnd Fair) (M.builtinCall loc function arguments target) := by
  unfold Machine.builtinCall
  dsimp only
  split
  · refine O.seq (O.checkedCondition touched _ seen) fun cond ⟨good, predicate⟩ => O.ok (fairEnd_some ?_)
    intro way member t constraint
    rcases mem_cons.mp member with rfl | member
    · cases constraint
      exact O.terms.condition good predicate
    · cases mem_singleton.mp member
      cases constraint
      exact O.terms.negation good predicate
  · split
    · exact O.seq (O.checkedCondition touched _ seen) fun cond good =>
        O.seq (O.assumes (O.terms.condition good.1 good.2)) fun _ _ => O.ok fairEnd_none
    · split
      · refine O.ok (fairEnd_some fun way member t constraint => ?_)
        cases mem_singleton.mp member
        cases constraint
      · exact O.seq (O.builtinValue _ seen free) fun _ _ => O.ok fairEnd_none

theorem passArgument {param : Variable} {argument : Operand} (free : Bound param.id)
    (seen : Operand.ForEach Seen [argument]) : P _ Any (M.passArgument param argument) := by
  have binds : P _ Any (do bind param (← M.valueOf argument)) :=
    O.seq (O.valueOf seen) fun _ good => O.binds free good
  cases argument with
  | const c => exact binds
  | var v => exact O.seq (O.aliased _ _) fun _ _ => O.seq (O.recordDependencies _ _) fun _ _ => binds

theorem passArguments (i : Nat) (free : ∀ k v, f.param? k = some v → Bound v.id)
    (seen : Operand.ForEach Seen arguments) : P _ Any (M.passArguments f i arguments) := by
  induction arguments generalizing i with
  | nil => exact O.ok trivial
  | cons argument rest ih =>
    unfold Machine.passArguments
    split
    · exact O.ok trivial
    · rename_i param found
      exact O.seq (O.passArgument (free i param found) (seen.subset (by simp))) fun _ _ =>
        ih (i + 1) (seen.subset (by simp))

theorem entered (loc : Location) (callee : FnId) {target : Option Variable}
    (wait : ∀ p, I p → S p { p with stack := ⟨loc.next, target⟩ :: p.stack })
    (params : ∀ k v, f.param? k = some v → Bound v.id) (seen : Operand.ForEach Seen arguments)
    (free : ∀ t, target = some t → Bound t.id) : P _ (FairEnd Fair) (do
      M.passArguments f 0 arguments
      match target with
      | some t => let _ ← redefine t
      | none => pure ()
      if f.nodes.isEmpty then pure none
      else
        modify fun p => { p with stack := ⟨loc.next, target⟩ :: p.stack }
        pure (some [.goto (.start callee f.entry) none])) := by
  have goes : P _ (FairEnd Fair) (if f.nodes.isEmpty then pure none else do
      modify fun p => { p with stack := ⟨loc.next, target⟩ :: p.stack }
      pure (some [.goto (.start callee f.entry) none])) := by
    split
    · exact O.ok fairEnd_none
    · refine O.seq (O.noted wait fun _ _ => rfl) fun _ _ => O.ok (fairEnd_some ?_)
      exact fairWays_free fun way member => mem_singleton.mp member ▸ rfl
  refine O.seq (O.passArguments 0 params seen) fun _ _ => ?_
  cases target with
  | none => exact goes
  | some t => exact O.seq (O.redefines (free t rfl)) fun _ _ => goes

theorem enter (loc : Location) {callee : FnId} {target : Option Variable} (calls : M.callee? i = some callee)
    (enters : ∀ f, M.program.function? callee = some f → Enters I S f ⟨loc.next, target⟩ ∧
      ∀ k v, f.param? k = some v → Bound v.id)
    (seen : Operand.ForEach Seen arguments) (free : ∀ t, target = some t → Bound t.id) :
    P _ (FairEnd Fair) (M.enter loc callee arguments target) := by
  obtain ⟨f, known⟩ := Option.isSome_iff_exists.mp (function?_isSome_of_callee calls)
  obtain ⟨enters, params⟩ := enters f known
  unfold Machine.enter
  rw [known]
  exact O.seq (O.noted (fun _ inv => enters.visit inv) fun _ _ => rfl) fun _ _ =>
    O.entered loc callee (fun _ inv => enters.wait inv) params seen free

theorem pinCallArgs (touched : A .calls) (callee : CallSignature) (occurrence : Nat) (indices : List Nat)
    (seen : Operand.ForEach Seen arguments) : P _ Any (M.pinCallArgs callee occurrence arguments indices) := by
  induction indices with
  | nil => exact O.ok trivial
  | cons index rest ih =>
    unfold Machine.pinCallArgs
    split
    · rename_i argument found
      have among : [argument] ⊆ arguments := by simpa using mem_of_getElem? found
      exact O.seq (O.termOf (seen.subset among)) fun _ value =>
        O.seq (O.ofSorted fun _ built => O.pinned (.argument _ _ _ _ touched) value built) fun _ fair =>
        O.seq (O.assumes fair) fun _ _ => ih
    · exact ih

theorem deferReceiver (touched : A .calls) (good : Good t) : P _ Any (M.deferReceiver t) := by
  have defers {t : Term} (fair : Fair t) : P _ Any (modify fun p => { p with deferred := p.deferred ++ [t] }) :=
    O.noted (fun _ inv => O.defer inv fair touched) fun _ _ => rfl
  have size : Good (t.derived "code.length" .int) := O.terms.derived t (by decide)
  refine O.seq (O.reads O.sender) fun _ caller => O.seq (O.ofSingle caller) fun sender caller => ?_
  exact O.seq (O.ofSorted fun _ built => O.terms.order size O.good_zero built) fun _ fair =>
    O.seq (defers fair) fun _ _ =>
    O.seq (O.ofSorted fun _ built => O.terms.inequation good O.good_zero built) fun _ fair =>
    O.seq (defers fair) fun _ _ =>
    O.seq (O.ofSorted fun _ built => O.terms.inequation good caller built) fun _ fair => defers fair

theorem ofFirst (good : x.All Good) : P _ (fun first => ∀ t, first = some t → Good t) (firstItem x) := by
  unfold firstItem
  cases good with
  | term good => exact O.ok fun _ same => Option.some.inj same ▸ good
  | tuple good =>
    split
    · rename_i same
      cases same
    · exact O.ok nofun
    · rename_i item rest same
      cases same
      exact O.seq (O.ofSingle (good item (mem_cons_self ..))) fun _ good =>
        O.ok fun _ same => Option.some.inj same ▸ good

theorem pinsReturn (callee : CallSignature) (good : x.All Good) : P _ Any (pinReturn callee x) := by
  refine O.look (fun _ _ => rfl) fun p inv => ?_
  split
  · refine O.seq (O.ofFirst good) fun first good => ?_
    split
    · exact O.assumed fun _ built => O.pinned (.result _ _) (good _ rfl) built
    · exact O.ok trivial
  · exact O.ok trivial

variable {callee : CallSignature}

theorem called {receiver : Term} (occurrence : Nat) {target : Option Variable}
    (touched : A .calls) (good : Good receiver) (seen : Operand.ForEach Seen arguments)
    (free : ∀ t, target = some t → Bound t.id) : P _ Any (do
      M.deferReceiver receiver
      if M.tracking.callArgs then
        match (← get).callArgsTracked.get? callee.name with
        | some indices => M.pinCallArgs callee occurrence arguments indices.toList
        | none => pure ()
      match target with
      | none => pure ()
      | some t =>
        M.recordOperands t (destination :: arguments)
        pinReturn callee (← redefine t)) := by
  refine O.seq (O.deferReceiver touched good) fun _ _ => ?_
  extract_lets result
  have ends (u : Unit) : P _ Any (result u) := by
    cases target with
    | none => exact O.ok trivial
    | some t =>
      exact O.seq (O.recordOperands _ _) fun _ _ => O.seq (O.redefines (free t rfl)) fun _ good =>
        O.pinsReturn callee good
  split
  · refine O.look (fun _ _ => rfl) fun p inv => ?_
    split
    · exact O.seq (O.pinCallArgs touched _ _ _ seen) fun u _ => ends u
    · exact ends ()
  · exact ends ()

theorem highLevelCall {target : Option Variable} (touched : A .calls)
    (notes : ∀ p receiver, I p → S p (noteCall p receiver callee.name).2)
    (seen : Operand.ForEach Seen (destination :: arguments)) (free : ∀ t, target = some t → Bound t.id) :
    P _ Any (M.highLevelCall destination callee arguments target) := by
  refine O.seq (O.termOf (seen.subset (by simp))) fun receiver good => ?_
  refine O.seq (Q := Any) (O.change (fun p inv => ⟨notes p receiver.nameHint inv, trivial⟩) fun p id =>
    noteCall_fork p id _ _) fun occurrence _ => ?_
  exact O.called occurrence touched good (seen.subset (by simp)) free

theorem pinEventArgs {place : Nat} {event : EventDecl} (touched : A .events)
    (known : M.contract.event? name = some (place, event)) (occurrence : Nat) (indices : List Nat)
    (seen : Operand.ForEach Seen arguments) : P _ Any (M.pinEventArgs event occurrence arguments indices) := by
  induction indices with
  | nil => exact O.ok trivial
  | cons index rest ih =>
    unfold Machine.pinEventArgs
    split
    · rename_i argument found
      have among : [argument] ⊆ arguments := by simpa using mem_of_getElem? found
      exact O.seq (O.termOf (seen.subset among)) fun _ value =>
        O.seq (O.ofSorted fun _ built => O.pinned (.emitted _ _ _ touched known) value built) fun _ fair =>
        O.seq (O.assumes fair) fun _ _ => ih
    · exact ih

theorem emit (touched : A .events) (name : String) (seen : Operand.ForEach Seen arguments) :
    P _ Any (M.emit name arguments) := by
  unfold Machine.emit
  split
  · split
    · exact O.ok trivial
    · rename_i i event found
      refine O.seq (Q := Any) (O.change (fun p inv => ⟨O.noteEmission inv found touched, trivial⟩) fun p id =>
        noteEmission_fork p id _ _) fun occurrence _ => ?_
      split
      · refine O.look (fun _ _ => rfl) fun p inv => ?_
        split
        · exact O.pinEventArgs touched found _ _ seen
        · exact O.ok trivial
      · exact O.ok trivial
  · exact O.ok trivial

theorem assignment (touched : A .writes) (linked : Linked I Good Bound) (free : Bound target.id)
    (seen : Operand.ForEach Seen [source]) : P _ Any (M.assignment target source) := by
  have writes : P _ Any (do
      M.recordWrite target
      M.assign target (← M.valueOf source)) :=
    O.seq (O.recordWrite touched target) fun _ _ => O.seq (O.valueOf seen) fun _ good => O.assign linked free good
  refine O.seq (O.recordOperands _ _) fun _ _ => ?_
  cases source with
  | const k => exact writes
  | var v => exact O.seq (O.aliased _ _) fun _ _ => writes

theorem conversion (free : Bound target.id) (seen : Operand.ForEach Seen [source]) :
    P _ Any (M.conversion target source) :=
  O.seq (O.recordOperands _ _) fun _ _ => O.seq (O.valueOf seen) fun _ good =>
    O.seq (O.fits free good) fun _ good => O.binds free good

theorem binary (touched : A .writes) (linked : Linked I Good Bound) (op : BinaryOp) {left right : Operand}
    (checked : Bool) (free : Bound target.id) (seen : Operand.ForEach Seen [left, right]) :
    P _ Any (M.binary op left right target checked) := by
  have writes {t : Term} (good : Good t) : P _ Any (do
      if checked then modify (·.assumeUnsigned (.term t) target.type)
      M.recordWrite target
      M.assign target (.term t)) := by
    have assigns := O.seq (O.recordWrite touched target) fun _ _ => O.assign linked free (.term good)
    cases checked with
    | false => exact assigns
    | true => exact O.seq (O.unsigned _ (.term good)) fun _ _ => assigns
  have opaques : P _ Any (do
      let t ← single (← redefine target)
      if checked then modify (·.assumeUnsigned (.term t) target.type)
      M.recordWrite target
      M.assign target (.term t)) :=
    O.seq (O.redefines free) fun _ good => O.seq (O.ofSingle good) fun _ good => writes good
  refine O.seq (O.recordOperands _ _) fun _ _ => O.seq (O.termOf (seen.subset (by simp))) fun l good => ?_
  refine O.seq (O.termOf (seen.subset (by simp))) fun r good' => ?_
  cases built : binaryTerm op l r with
  | error e => exact opaques
  | ok term =>
    cases term with
    | none => exact opaques
    | some t => exact writes (O.terms.operator good good' built)

theorem unary (linked : Linked I Good Bound) (op : UnaryOp) (free : Bound target.id)
    (seen : Operand.ForEach Seen [source]) : P _ Any (M.unary op source target) := by
  refine O.seq (O.recordOperands _ _) fun _ _ => ?_
  cases op with
  | not =>
    exact O.seq (O.termOf seen) fun _ good =>
      O.seq (Q := fun t => Good t ∧ t.sort = .bool)
        (O.ofSorted fun _ built => ⟨O.terms.truthy good built, Term.truthy_sort built⟩) fun _ ⟨good, predicate⟩ =>
      O.assign linked free (.term (O.terms.not good predicate))
  | complement =>
    exact O.seq (O.redefines free) fun _ good => O.seq (O.ofSingle good) fun _ good =>
      O.assign linked free (.term good)

theorem delete (touched : A .writes) (linked : Linked I Good Bound) (free : Bound v.id) : P _ Any (M.delete v) := by
  refine O.seq (O.recordWrite touched _) fun _ _ => ?_
  split
  · rename_i default found
    exact O.assign linked free (.term (O.terms.default found))
  · exact O.fresh free

theorem assumeCell (root : Variable) {outermost value : Term} (key : Good outermost) (cell : Good value) :
    P _ Any (M.assumeCell root outermost value) := by
  have approves : P _ Any (do
      if root.name ∈ M.config.approvalVars then
        let sender ← single (← M.read .sender)
        assume (← sorted (Term.mkNe value sender))) := by
    split
    · exact O.seq (O.reads O.sender) fun _ good => O.seq (O.ofSingle good) fun _ caller =>
        O.assumed fun _ built => O.terms.inequation cell caller built
    · exact O.ok trivial
  unfold Machine.assumeCell
  dsimp only
  split
  · split
    · rename_i found
      refine O.seq (O.ofSorted fun _ => id) fun _ built => ?_
      refine O.seq (O.ofSorted fun _ => id) fun _ built' => ?_
      have fair := O.terms.implication key O.good_zero cell (O.terms.default found) built built'
      exact O.seq (O.assumes fair) fun _ _ => approves
    · exact approves
  · exact approves

theorem assumeIndexed {base : Variable} {key value : Term} (relinks : Relinks I S Good target.id base.id)
    (root : Variable) (good : Good key) (cell : Good value) : P _ Any (M.assumeIndexed root base key value) := by
  unfold Machine.assumeIndexed
  dsimp only
  split
  · refine O.look (fun _ _ => rfl) fun p inv => ?_
    split
    · rename_i walked
      have keys := forall_mem_cons.mpr ⟨good, good_of_linkKeys (relinks.keys inv) walked⟩
      split
      · exact O.assumeCell _ (forall_mem_cons.mpr ⟨O.good_zero, keys⟩ _ (getLastD_mem_cons ..)) cell
      · exact O.ok trivial
    · exact O.fail rfl
  · exact O.ok trivial

theorem index {base : Variable} {key : Operand} (touched : A .references)
    (relinks : Relinks I S Good target.id base.id) (free : Bound target.id) (seen : Seen base)
    (seenKey : Operand.ForEach Seen [key]) : P _ Any (M.index target base key) := by
  refine O.seq (O.recordDependencies _ _) fun _ _ => O.look (fun _ _ => rfl) fun p inv => ?_
  refine O.seq (O.noted (fun _ inv => O.root _ _ inv touched) fun _ _ => rfl) fun _ _ => ?_
  refine O.seq (O.reads seen) fun _ good => O.seq (O.ofSingle good) fun array good => ?_
  refine O.seq (O.termOf seenKey) fun key good' => ?_
  split
  · exact O.seq (O.noted (fun _ inv => relinks.unlink inv) fun _ _ => rfl) fun _ _ => O.fresh free
  · rename_i t built
    refine O.seq (O.noted (fun _ inv => relinks.link inv good good') fun _ _ => rfl) fun _ _ => ?_
    have good := O.terms.select good good' built
    exact O.seq (O.assumeIndexed relinks _ good' good) fun _ _ => O.seq (O.unsigned _ (.term good)) fun _ _ =>
      O.binds free (.term good)

theorem member (touched : A .references) (base : Operand) (free : Bound target.id) :
    P _ Any (M.member target base) := by
  have defines := O.seq (O.recordOperands target [base]) fun _ _ => O.fresh free
  cases base with
  | const k => exact defines
  | var v => exact O.seq (O.noted (fun _ inv => O.root _ _ inv touched) fun _ _ => rfl) fun _ _ => defines

theorem bindsSize (t : Term) {suffix : String} (unhashed : '#' ∉ suffix.toList) (free : Bound target.id) :
    P _ Any (bindSize target t suffix) :=
  have size := O.terms.derived t unhashed
  O.seq (O.ofSorted fun _ built => O.terms.order size O.good_zero built) fun _ fair =>
    O.seq (O.assumes fair) fun _ _ => O.binds free (.term size)

theorem length {array : Variable} (free : Bound target.id) (seen : Seen array) : P _ Any (M.length array target) :=
  O.seq (O.recordDependencies _ _) fun _ _ => O.seq (O.reads seen) fun _ good =>
    O.seq (O.ofSingle good) fun t _ => O.bindsSize t (by decide) free

theorem codeSize {account : Operand} (free : Bound target.id) (seen : Operand.ForEach Seen [account]) :
    P _ Any (M.codeSize target account) :=
  O.seq (O.termOf seen) fun t _ => O.bindsSize t (by decide) free

theorem unpack {tuple : Variable} (place : Nat) (free : Bound target.id) (seen : Seen tuple) :
    P _ Any (M.unpack target tuple place) := by
  refine O.seq (O.recordDependencies _ _) fun _ _ => O.seq (O.reads seen) fun x good => ?_
  cases good with
  | tuple good =>
    dsimp only
    split
    · rename_i item found
      exact O.binds free (good item (mem_of_getElem? found))
    · exact O.fail rfl
  | term good =>
    dsimp only
    split
    · exact O.binds free (.term good)
    · exact O.fail rfl

theorem newArray (free : Bound target.id) (seen : Operand.ForEach Seen arguments) :
    P _ Any (M.newArray target arguments) := by
  refine O.seq (O.redefines free) fun _ good => O.seq (O.ofSingle good) fun array _ => ?_
  cases arguments with
  | nil => exact O.ok trivial
  | cons size rest =>
    exact O.seq (O.termOf (seen.subset (by simp))) fun _ size =>
      O.assumed fun _ built => O.terms.equation (O.terms.derived array (by decide)) size built

theorem storeItems (i : Nat) {array : Term} (good : Good array) (seen : Operand.ForEach Seen operands) :
    P _ Good (M.storeItems i operands array) := by
  induction operands generalizing i array with
  | nil => exact O.ok good
  | cons o rest ih =>
    exact O.seq (O.termOf (seen.subset (by simp))) fun _ value =>
      O.seq (O.ofSorted fun _ built => O.terms.store good (O.terms.constant (.int i)) value built) fun _ good =>
      ih (i + 1) good (seen.subset (by simp))

theorem initArray (free : Bound target.id) (seen : Operand.ForEach Seen values) :
    P _ Any (M.initArray target values) := by
  refine O.seq (O.redefines free) fun _ good => O.seq (O.ofSingle good) fun _ good =>
    O.seq (O.storeItems 0 good seen) fun filled good => ?_
  have length : Good (filled.derived "length" .int) := O.terms.derived filled (by decide)
  exact O.seq (O.ofSorted fun _ built => O.terms.equation length (O.terms.constant (.int _)) built) fun _ fair =>
    O.seq (O.assumes fair) fun _ _ => O.binds free (.term good)

theorem giveBack (touched : A .result) (awaits : Awaits I Bound) (values : List Operand) (good : x.All Good) :
    P _ Any (M.giveBack values x) := by
  refine O.look (fun _ _ => rfl) fun p inv => ?_
  split
  · refine O.noted (fun p inv => O.result _ inv ?_ touched) fun _ _ => rfl
    split
    · trivial
    · exact good
  · rename_i frame rest stack
    split
    · rename_i target waits
      exact O.seq (O.recordOperands _ _) fun _ _ => O.binds (awaits inv stack waits) good
    · exact O.ok trivial

theorem ret (touched : A .result) (awaits : Awaits I Bound) (seen : Operand.ForEach Seen values) :
    P _ Any (M.ret values) := by
  refine O.seq (O.valuesOf seen) fun items good => ?_
  split
  · exact O.ok trivial
  · exact O.giveBack touched awaits _ (good _ (mem_singleton.mpr rfl))
  · exact O.giveBack touched awaits _ (.tuple good)

theorem exec_passes (touches : ∀ part ∈ i.touches, A part)
    (admits : Allows I S Good Bound M Seen loc i) (passes : i.passes = true) :
    ∃ (β : Type) (Q : β → Prop) (y : StepM β), M.exec loc i = (do let _ ← y; pure none) ∧ P _ Q y := by
  have touched {part : Part} (only : i.touches = [part]) : A part := touches _ (only ▸ mem_singleton_self part)
  have reads : Operand.ForEach Seen i.reads := fun v member => admits.seen v (mem_sees member)
  have seen {v : Variable} (sees : v ∈ i.sees) : Seen v := admits.seen v sees
  cases i with
  | assignment target source =>
    exact ⟨_, _, _, rfl, O.assignment (touched rfl) (admits.linked rfl) (admits.free _ rfl) reads⟩
  | conversion target source => exact ⟨_, _, _, rfl, O.conversion (admits.free _ rfl) reads⟩
  | highLevelCall destination callee arguments target =>
    exact ⟨_, _, _, rfl, O.highLevelCall (touched rfl) (admits.notes _ _ _ _ rfl) reads admits.free⟩
  | lowLevelCall destination function arguments target => exact ⟨_, _, _, rfl, O.havoc _ admits.free⟩
  | unary op source target => exact ⟨_, _, _, rfl, O.unary (admits.linked rfl) op (admits.free _ rfl) reads⟩
  | binary op left right target checked =>
    exact ⟨_, _, _, rfl, O.binary (touched rfl) (admits.linked rfl) op checked (admits.free _ rfl) reads⟩
  | length array target =>
    exact ⟨_, _, _, rfl, O.length (admits.free _ rfl) (seen (by simp [sees, Function.readVariables]))⟩
  | eventCall name arguments => exact ⟨_, _, _, rfl, O.emit (touched rfl) name reads⟩
  | index target base key =>
    exact ⟨_, _, _, rfl, O.index (touched rfl) (admits.relinks _ _ _ rfl) (admits.free _ rfl)
      (seen (by simp [sees, Function.readVariables])) reads⟩
  | delete target erased => exact ⟨_, _, _, rfl, O.delete (touched rfl) (admits.linked rfl) (admits.free _ rfl)⟩
  | newElementary target => exact ⟨_, _, _, rfl, O.redefines (admits.free _ rfl)⟩
  | ret values => exact ⟨_, _, _, rfl, O.ret (touched rfl) (admits.awaits _ rfl) reads⟩
  | unpack target tuple place =>
    exact ⟨_, _, _, rfl, O.unpack place (admits.free _ rfl) (seen (by simp [sees]))⟩
  | member target base name => exact ⟨_, _, _, rfl, O.member (touched rfl) base (admits.free _ rfl)⟩
  | send destination amount target => exact ⟨_, _, _, rfl, O.havoc _ admits.free⟩
  | newArray target arguments => exact ⟨_, _, _, rfl, O.newArray (admits.free _ rfl) reads⟩
  | initArray target values => exact ⟨_, _, _, rfl, O.initArray (admits.free _ rfl) reads⟩
  | codeSize target account => exact ⟨_, _, _, rfl, O.codeSize (admits.free _ rfl) reads⟩
  | condition value | transfer destination amount => exact ⟨_, Any, pure (), rfl, O.ok trivial⟩
  | unsupported name target =>
    cases target with
    | none => exact ⟨_, Any, pure (), rfl, O.ok trivial⟩
    | some target => exact ⟨_, _, _, rfl, O.redefines (admits.free _ rfl)⟩
  | _ => cases passes

theorem exec (touches : ∀ part ∈ i.touches, A part)
    (admits : Allows I S Good Bound M Seen loc i) : P _ (FairEnd Fair) (M.exec loc i) := by
  have reads : Operand.ForEach Seen i.reads := fun v member => admits.seen v (mem_sees member)
  have passing (passes : i.passes = true) : P _ (FairEnd Fair) (M.exec loc i) := by
    obtain ⟨β, Q, y, same, holds⟩ := O.exec_passes touches admits passes
    rw [same]
    exact O.seq holds fun _ _ => O.ok fairEnd_none
  cases i with
  | builtinCall function arguments target =>
    exact O.builtinCall (touches _ (mem_singleton_self _)) loc function reads admits.free
  | internalCall function arguments target =>
    rw [exec]
    split
    · rename_i callee resolved
      exact O.enter (i := .internalCall function arguments target) loc resolved (admits.enters callee · resolved) reads
        admits.free
    · exact O.fail rfl
  | libraryCall library function arguments target =>
    rw [exec]
    split
    · rename_i callee resolved
      exact O.enter (i := .libraryCall library function arguments target) loc resolved (admits.enters callee · resolved)
        reads admits.free
    · exact O.fail rfl
  | _ => exact passing rfl

theorem conditionValue (operand : Operand) : P _ Good (conditionTerm operand) := by
  cases operand with
  | const c => exact O.ok (O.terms.constant c)
  | var v =>
    refine O.look (fun _ _ => rfl) fun p inv => ?_
    split
    · rename_i x bound
      exact O.ofSingle (O.value inv bound)
    · exact O.fail rfl

theorem branch (touched : A .checks) (leaves : Leaves I S) (fn : FnId) (f : Function) (n : Node)
    (condition : Operand) : P _ (FairWays Fair) (M.branch fn f n condition) := by
  have goes {cond : Term} (good : Good cond) (predicate : cond.sort = .bool) : P _ (FairWays Fair) (do
      let takeTrue ← if n.kind == .ifLoop then M.countLoop ⟨fn, n.id⟩ else pure true
      let goTrue := if takeTrue then (branches n).1.toList else []
      pure (goTrue.map (fun s => .goto (.start fn s) (some cond)) ++
        (branches n).2.toList.map fun s => .goto (.start fn s) (some (Term.mkNot cond)))) := by
    have fair (sons others : List Nat) : FairWays Fair (sons.map (fun s => .goto (.start fn s) (some cond)) ++
        others.map fun s => .goto (.start fn s) (some (Term.mkNot cond))) := by
      intro way member t constraint
      rcases mem_append.mp member with member | member
      · obtain ⟨s, _, rfl⟩ := mem_map.mp member
        cases constraint
        exact O.terms.condition good predicate
      · obtain ⟨s, _, rfl⟩ := mem_map.mp member
        cases constraint
        exact O.terms.negation good predicate
    split
    · refine O.seq (Q := Any) (O.look (fun _ _ => rfl) fun _ _ => ?_) fun _ _ => O.ok (fair _ _)
      exact O.seq (O.noted (fun _ inv => leaves.count _ inv) fun _ _ => rfl) fun _ _ => O.ok trivial
    · exact O.ok (fair _ _)
  refine O.seq (O.conditionValue condition) fun t good => O.seq (Q := fun t => Good t ∧ t.sort = .bool)
    (O.ofSorted fun _ built => ⟨O.terms.truthy good built, Term.truthy_sort built⟩) fun cond ⟨good, predicate⟩ => ?_
  dsimp only
  split
  · exact O.seq (O.marks touched condition) fun _ _ => goes good predicate
  · exact goes good predicate

theorem leave (touched : A .checks) (leaves : Leaves I S) (fn : FnId) (f : Function) (n : Node) :
    P _ (FairWays Fair) (M.leave fn f n) := by
  unfold Machine.leave
  split
  · split
    · exact O.branch touched leaves fn f n _
    · refine O.ok (fairWays_free fun way member => ?_)
      obtain ⟨s, _, rfl⟩ := mem_map.mp member
      rfl
  · cases sons : n.sons with
    | cons son rest =>
      rw [leaveStraight, sons]
      exact O.ok (fairWays_free fun way member => mem_singleton.mp member ▸ rfl)
    | nil =>
      rw [leaveStraight_back sons]
      refine O.change (fun p inv => ?_) fun _ _ => rfl
      cases stack : p.stack with
      | nil =>
        rw [returned_of_nil stack]
        exact ⟨O.stay inv, fairWays_free fun way member => mem_singleton.mp member ▸ rfl⟩
      | cons frame rest =>
        rw [returned_of_cons stack]
        exact ⟨leaves.back inv stack, fairWays_free fun way member => mem_singleton.mp member ▸ rfl⟩

theorem declared {offset : Nat} (free : ∀ v, n.declared = some v → n.kind = .declaration → offset = 0 → Bound v.id) :
    P _ Any (declareAt n offset) := by
  unfold declareAt
  split
  · rename_i v declared
    split
    · rename_i opening
      rw [Bool.and_eq_true, beq_iff_eq, beq_iff_eq] at opening
      have free : Bound v.id := free v declared opening.1 opening.2
      unfold declare
      split
      · rename_i default found
        exact O.binds free (.term (O.terms.default found))
      · exact O.fresh free
    · exact O.ok trivial
  · exact O.ok trivial

variable (all : ∀ part, A part)

include all

theorem execAll {instructions : List Instruction} {k : Nat}
    (admits : ∀ j i, instructions[j]? = some i → k ≤ j → Allows I S Good Bound M Seen { loc with offset := j } i) :
    P _ (FairEnd Fair) (M.execAll { loc with offset := k } (instructions.drop k)) := by
  generalize rest : instructions.drop k = later
  induction later generalizing k with
  | nil => exact O.ok fairEnd_none
  | cons i later ih =>
    have here : instructions[k]? = some i := by rw [← List.head?_drop, rest, List.head?_cons]
    have next : instructions.drop (k + 1) = later := by rw [← tail_drop, rest, tail_cons]
    refine O.seq (O.exec (fun part _ => all part) (admits k i here (Nat.le_refl k))) fun result fair => ?_
    cases result with
    | some ways => exact O.ok fair
    | none => exact ih (fun j i at_j after => admits j i at_j (Nat.le_of_succ_le after)) next

theorem runNode (leaves : Leaves I S)
    (counts : ∀ p, I p → S p { p with steps := p.steps + 1 }) (declares : ∀ v, n.declared = some v → Bound v.id)
    (admits : ∀ j i, n.instructions[j]? = some i → Allows I S Good Bound M Seen { loc with offset := j } i) :
    P _ (FairWays Fair) (M.runNode loc f n) := by
  refine O.seq (O.noted counts fun _ _ => rfl) fun _ _ => ?_
  split
  · exact O.ok (fairWays_free fun way member => mem_singleton.mp member ▸ rfl)
  · refine O.seq (O.declared fun v declared _ _ => declares v declared) fun _ _ => ?_
    refine O.seq (O.execAll all fun j i at_j _ => admits j i at_j) fun result fair => ?_
    cases result with
    | some ways => exact O.ok (fair ways rfl)
    | none => exact O.leave (all _) leaves _ _ _

end Operates

end

theorem keeping (I : Path → Prop) : Composes I (fun _ => I) fun _ => Keeps I where
  stay := id
  ok := keeps_pure
  fail _ := keeps_throw _
  look _ next := .bind keeps_get next
  change holds _ := keeps_modifyGet holds
  seq := .bind

namespace Upkeep

structure Hosts (M : Machine) (I : Path → Prop) (Good : Term → Prop) (Bound : VarId → Prop)
    (Seen : Variable → Prop) : Prop where
  leaves : Leaves I fun _ => I
  count {p : Path} (inv : I p) : I { p with steps := p.steps + 1 }
  declares {f : Function} {n : Node} {v : Variable} (known : ∃ id, M.program.function? id = some f)
    (listed : n ∈ f.nodes) (declared : n.declared = some v) : Bound v.id
  admits {f : Function} {n : Node} {i : Instruction} (known : ∃ id, M.program.function? id = some f)
    (listed : n ∈ f.nodes) (among : i ∈ n.instructions) (loc : Location) : Admits M I Good Bound Seen loc i

variable {M : Machine} {I : Path → Prop} {Good Fair : Term → Prop} {Bound : VarId → Prop} {Seen : Variable → Prop}
  (K : Upkeep M I Good Fair Bound Seen)

include K

/-- Every operation keeps an invariant that withstands what it does, whether it succeeds or fails. -/
theorem operates : Operates M Any I (fun _ => I) (fun _ => Keeps I) Good Fair Bound Seen := ⟨keeping I, K⟩

theorem keeps_exec (admits : Admits M I Good Bound Seen loc i) : Keeps I (FairEnd Fair) (M.exec loc i) :=
  K.operates.exec (fun _ _ => trivial) admits

theorem keeps_step (hosts : Hosts M I Good Bound Seen) : Keeps I (FairWays Fair) M.step := by
  refine .bind keeps_get fun p inv => ?_
  split
  · exact keeps_throw _
  · split
    · exact keeps_throw _
    · rename_i f known
      split
      · exact keeps_throw _
      · rename_i n found
        have listed : n ∈ f.nodes := mem_of_getElem? found
        exact K.operates.runNode (fun _ => trivial) hosts.leaves (fun _ inv => hosts.count inv)
          (fun _ declared => hosts.declares ⟨_, known⟩ listed declared)
          fun j i among => hosts.admits ⟨_, known⟩ listed (mem_of_getElem? among) _

end Upkeep

/-- The property `P` of computations is closed under the means of the machine, where the changes of a path lie in `R`
and touch no part but those of `K`. -/
structure Compositional (K : Part → Prop) (R : Path → Path → Prop) (P : ∀ α : Type, StepM α → Prop) : Prop where
  changes {p q : Path} : Changes K p q → R p q
  ok {α : Type} (a : α) : P α (pure a)
  fail {α : Type} {e : PathError} : e.isLocal = true → P α (throw e)
  look {α : Type} {f : Path → StepM α} : (∀ p id, f (p.fork id) = f p) → (∀ p, P α (f p)) → P α (get >>= f)
  change {α : Type} {g : Path → α × Path} : (∀ p, R p (g p).2) →
    (∀ p id, g (p.fork id) = ((g p).1, (g p).2.fork id)) → P α (modifyGet g)
  seq {α β : Type} {x : StepM α} {f : α → StepM β} : P α x → (∀ ⦃p a q⦄, Runs x p a q → P β (f a)) → P β (x >>= f)

structure Moving (R : Path → Path → Prop) : Prop where
  stack (p : Path) (frames : List Frame) : R p { p with stack := frames }
  loops (p : Path) (counts : Table LoopHead Nat) : R p { p with loopCounts := counts }
  steps (p : Path) (n : Nat) : R p { p with steps := n }

theorem anywhere : Moving fun _ _ => True := ⟨fun _ _ => trivial, fun _ _ => trivial, fun _ _ => trivial⟩

namespace Compositional

variable {M : Machine} {K : Part → Prop} {R : Path → Path → Prop} {P : ∀ α : Type, StepM α → Prop}

section

variable (C : Compositional K R P)

include C

theorem operates : Operates M K Any R (fun α Q x => P α x ∧ ∀ ⦃p a q⦄, Runs x p a q → Q a) Any Any Any Any where
  toWithstands := withstands_of_changes fun _ _ changes _ => C.changes changes
  stay _ := C.changes .refl
  ok good := ⟨C.ok _, fun _ _ _ runs => (runs_pure.mp runs).1 ▸ good⟩
  fail inside := ⟨C.fail inside, fun _ _ _ runs => (runs_throw runs).elim⟩
  look blind next := ⟨C.look blind fun p => (next p trivial).1, fun p _ _ runs => (next p trivial).2 runs⟩
  change holds blind := by
    refine ⟨C.change (fun p => (holds p trivial).1) blind, fun p a q runs => ?_⟩
    have good := (holds p trivial).2
    rw [runs_modifyGet.mp runs] at good
    exact good
  seq first next := by
    refine ⟨C.seq first.1 fun _ a _ runs => (next a (first.2 runs)).1, fun p b r runs => ?_⟩
    obtain ⟨a, q, before, after⟩ := runs.of_bind
    exact (next a (first.2 before)).2 after

theorem admits (touches : ∀ part ∈ i.touches, K part)
    (waits : M.callee? i ≠ none → ∀ (p : Path) frames, R p { p with stack := frames }) :
    Allows Any R Any Any M Any loc i where
  seen _ _ := trivial
  free _ _ := trivial
  linked _ _ _ _ _ _ _ := ⟨trivial, trivial, trivial⟩
  awaits _ _ _ _ _ _ _ _ _ := trivial
  relinks target base key same := by
    have touched : K .references := touches _ (same ▸ mem_singleton_self _)
    exact ⟨fun _ _ _ => C.changes (.single (.link _ _ _ touched)), fun _ => C.changes (.single (.unlink _ _ touched)),
      fun _ _ => trivial⟩
  notes destination callee arguments target same p receiver _ := by
    have touched : K .calls := touches _ (same ▸ mem_singleton_self _)
    exact C.changes (noteCall_changes _ touched ..)
  enters callee f calls _ := by
    have touched : K .calls := by cases i <;> first | exact touches _ (mem_singleton_self _) | cases calls
    exact ⟨⟨fun _ => C.changes (.single (.call _ _ _ _ touched)), fun {p} _ => waits (by simp [calls]) p _⟩,
      fun _ _ _ => trivial⟩

end

theorem runNode (C : Compositional (fun _ => True) R P) (moving : Moving R) (loc : Location) (f : Function) (n : Node) :
    P _ (M.runNode loc f n) :=
  (C.operates.runNode (fun _ => trivial) ⟨fun _ _ => moving.loops _ _, fun _ _ => moving.stack _ _⟩
    (fun p _ => moving.steps p _) (fun _ _ => trivial)
    fun _ _ _ => C.admits (fun _ _ => trivial) fun _ => moving.stack).1

end Compositional

end Machine

end TokenAudit
