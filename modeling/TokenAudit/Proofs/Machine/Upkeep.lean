import TokenAudit.Proofs.Machine.Parts
import TokenAudit.Proofs.Program.Reachability
import TokenAudit.Proofs.World

/-!
# Invariants of the machine

`Withstands` lists what a property of a path has to withstand, and which terms and variables it admits.
-/

namespace TokenAudit

open Term

variable {G : Term → Prop} {i : Instruction}

inductive Value.All (G : Term → Prop) : Value → Prop
  | term {t : Term} (good : G t) : All G (.term t)
  | tuple {items : List Value} (good : ∀ item ∈ items, All G item) : All G (.tuple items)

theorem Value.all_term {t : Term} : (Value.term t).All G ↔ G t := by
  constructor
  · intro all
    cases all with
    | term good => exact good
  · exact .term

theorem Value.all_true : ∀ x : Value, x.All fun _ => True
  | .term _ => .term trivial
  | .tuple _ => .tuple fun item _ => all_true item

def Returned.All (G : Term → Prop) : Returned → Prop
  | .constant _ => True
  | .symbolic x => x.All G

def Operand.ForEach (P : Variable → Prop) (operands : List Operand) : Prop := ∀ v, Operand.var v ∈ operands → P v

theorem Operand.ForEach.subset {P : Variable → Prop} {operands fewer : List Operand} (each : ForEach P operands)
    (among : fewer ⊆ operands) : ForEach P fewer :=
  fun v member => each v (among member)

namespace Instruction

def sees (i : Instruction) : List Variable :=
  Function.readVariables i ++
    match i with
    | .unpack _ tuple _ => [tuple]
    | _ => []

def bound? : Instruction → Option Variable
  | .delete _ erased => some erased
  | i => i.target?

def assigns : Instruction → Bool
  | .assignment _ _ => true
  | .unary _ _ _ => true
  | .binary _ _ _ _ _ => true
  | .delete _ _ => true
  | _ => false

/-- The instruction neither checks nor calls, so that it always goes on to the next one. -/
def passes : Instruction → Bool
  | .builtinCall _ _ _ => false
  | .internalCall _ _ _ => false
  | .libraryCall _ _ _ _ => false
  | _ => true

theorem mem_sees {v : Variable} (read : Operand.var v ∈ i.reads) : v ∈ i.sees := by
  exact List.mem_append_left _ (List.mem_append_left _ (List.mem_filterMap.mpr ⟨.var v, read, rfl⟩))

end Instruction

namespace Machine

variable {M : Machine} {callee : FnId}

abbrev Any {α : Type} : α → Prop := fun _ => True

/-- Terms that values are made of, and terms that a path may assume: what the term builders make of them is of
the same kind. -/
structure TermsClosed (Good Fair : Term → Prop) : Prop where
  constant (c : Constant) : Good c.term
  derived (t : Term) {suffix : String} (unhashed : '#' ∉ suffix.toList) : Good (t.derived suffix .int)
  fit {s : SmtSort} {t t' : Term} (good : Good t) (fits : fit s t = some t') : Good t'
  not {t : Term} (good : Good t) (predicate : t.sort = .bool) : Good (mkNot t)
  truthy {t t' : Term} (good : Good t) (built : truthy t = .ok t') : Good t'
  operator {op : BinaryOp} {l r t : Term} (left : Good l) (right : Good r)
    (built : binaryTerm op l r = .ok (some t)) : Good t
  select {a k t : Term} (array : Good a) (key : Good k) (built : mkSelect a k = .ok t) : Good t
  store {a k v t : Term} (array : Good a) (key : Good k) (value : Good v) (built : mkStore a k v = .ok t) :
    Good t
  condition {t : Term} (good : Good t) (predicate : t.sort = .bool) : Fair t
  negation {t : Term} (good : Good t) (predicate : t.sort = .bool) : Fair (mkNot t)
  equation {a b t : Term} (left : Good a) (right : Good b) (built : mkEq a b = .ok t) : Fair t
  inequation {a b t : Term} (left : Good a) (right : Good b) (built : mkNe a b = .ok t) : Fair t
  order {op : OrderOp} {a b t : Term} (left : Good a) (right : Good b) (built : mkOrder op a b = .ok t) : Fair t
  implication {a b a' b' t t' : Term} (left : Good a) (right : Good b) (left' : Good a') (right' : Good b')
    (built : mkEq a b = .ok t) (built' : mkEq a' b' = .ok t') : Fair (mkImplies t t')

theorem TermsClosed.default {Good Fair : Term → Prop} (closed : TermsClosed Good Fair) {s : SmtSort} {t : Term}
    (found : defaultOf s = some t) : Good t := by
  obtain ⟨c, rfl⟩ := constant_of_defaultOf found
  exact closed.constant c

theorem TermsClosed.mono {Good Fair Fair' : Term → Prop} (closed : TermsClosed Good Fair)
    (weaker : ∀ t, Fair t → Fair' t) : TermsClosed Good Fair' :=
  { closed with
    condition := fun good predicate => weaker _ (closed.condition good predicate)
    negation := fun good predicate => weaker _ (closed.negation good predicate)
    equation := fun left right built => weaker _ (closed.equation left right built)
    inequation := fun left right built => weaker _ (closed.inequation left right built)
    order := fun left right built => weaker _ (closed.order left right built)
    implication := fun left right left' right' built built' =>
      weaker _ (closed.implication left right left' right' built built') }

inductive Pins (M : Machine) (A : Part → Prop) : Fact → Prop
  | key {name : String} {place : Nat × StateVariable} (write level : Nat)
      (found : M.contract.stateVariable? name = some place) : Pins M A (.writtenKey name write level)
  | argument (name : String) (number index : Nat) (sort : SmtSort) (touched : A .calls) :
      Pins M A (.callArg name number index sort)
  | result (name : String) (sort : SmtSort) : Pins M A (.callReturn name sort)
  | emitted {name : String} {place : Nat} {event : EventDecl} (number index : Nat) (sort : SmtSort)
    (touched : A .events)
      (found : M.contract.event? name = some (place, event)) : Pins M A (.emittedArg event.name number index sort)

/-- What the machine does to a path of `I` stays in `S`, as far as it touches the parts of `A`: values are made of
`Good` terms, `Fair` terms are assumed, `Bound` variables are bound and `Seen` variables are read. -/
structure Withstands (M : Machine) (A : Part → Prop) (I : Path → Prop) (S : Path → Path → Prop)
    (Good Fair : Term → Prop) (Bound : VarId → Prop) (Seen : Variable → Prop) : Prop where
  terms : TermsClosed Good Fair
  pinned {fact : Fact} {b t : Term} (pins : M.Pins A fact) (value : Good b) (built : mkEq fact.term b = .ok t) :
    Fair t
  value {p : Path} {v : VarId} {x : Value} (inv : I p) (bound : p.bindings.get? v = some x) : x.All Good
  assume {p : Path} {t : Term} (inv : I p) (fair : Fair t) : S p (p.assume t)
  bind {p : Path} {v : VarId} {x : Value} (inv : I p) (free : Bound v) (good : x.All Good) : S p (p.bind v x)
  redefine {p : Path} {v : Variable} (inv : I p) (free : Bound v.id) :
    S p (p.redefine v).2 ∧ (p.redefine v).1.All Good
  read {p : Path} {v : Variable} (inv : I p) (seen : Seen v) :
    S p (p.read M.contract v).2 ∧ (p.read M.contract v).1.All Good
  sender : Seen .sender
  depend {p : Path} (definedBy aliases : Table VarId (List VarId)) (inv : I p) :
    S p { p with definedBy := definedBy, aliases := aliases }
  mark {p : Path} (operand : Operand) (inv : I p) (touched : A .checks) : S p (p.markUsedInCheck operand)
  noteWrite {p : Path} {i : Nat} {name : String} {sv : StateVariable} (inv : I p)
    (found : M.contract.stateVariable? name = some (i, sv)) (count : Bool) (touched : A .writes) :
    S p (p.noteWrite i name count)
  noteEmission {p : Path} {i : Nat} {name : String} {event : EventDecl} (inv : I p)
    (found : M.contract.event? name = some (i, event)) (touched : A .events) : S p (noteEmission p i name).2
  defer {p : Path} {t : Term} (inv : I p) (fair : Fair t) (touched : A .calls) :
    S p { p with deferred := p.deferred ++ [t] }
  root {p : Path} (v : VarId) (root : Variable) (inv : I p) (touched : A .references) :
    S p { p with roots := p.roots.insert v root }
  result {p : Path} (slot : Returned) (inv : I p) (good : slot.All Good) (touched : A .result) :
    S p { p with returned := some slot }

theorem withstands_of_changes {A : Part → Prop} {I : Path → Prop} {S : Path → Path → Prop}
    (holds : ∀ ⦃p q⦄, Changes A p q → I p → S p q) : Withstands M A I S Any Any Any Any where
  terms := by constructor <;> intros <;> trivial
  pinned _ _ _ := trivial
  value _ _ := Value.all_true _
  assume inv _ := holds (.single (.assume ..)) inv
  bind inv _ _ := holds (.single (.bind ..)) inv
  redefine inv _ := ⟨holds (.single (.redefine ..)) inv, Value.all_true _⟩
  read inv _ := ⟨holds (path_read_changes ..) inv, Value.all_true _⟩
  sender := trivial
  depend _ _ inv := holds (.single (.depend ..)) inv
  mark _ inv touched := holds (markUsedInCheck_changes _ touched ..) inv
  noteWrite inv _ _ touched := holds (noteWrite_changes _ touched ..) inv
  noteEmission inv _ touched := holds (noteEmission_changes _ touched ..) inv
  defer inv _ touched := holds (.single (.defer _ _ touched)) inv
  root _ _ inv touched := holds (.single (.root _ _ _ touched)) inv
  result _ inv _ touched := holds (.single (.result _ _ touched)) inv

/-- The invariant `I` withstands what the machine does to a path. -/
abbrev Upkeep (M : Machine) (I : Path → Prop) (Good Fair : Term → Prop) (Bound : VarId → Prop)
    (Seen : Variable → Prop) : Prop :=
  Withstands M Any I (fun _ => I) Good Fair Bound Seen

theorem marked_of {I : Path → Prop} (marks : ∀ p v, I p → I (p.markUsed v)) (operand : Operand) {p : Path} (inv : I p) :
    I (p.markUsedInCheck operand) := by
  have all (vars : List VarId) : ∀ {p : Path}, I p → I (vars.foldl Path.markUsed p) := by
    induction vars with
    | nil => exact id
    | cons v rest ih => exact fun inv => ih (marks _ v inv)
  cases operand with
  | const c => exact inv
  | var v => exact all _ inv

/-- The function that a call instruction enters, wherever the instruction stands. -/
def callee? (M : Machine) (i : Instruction) : Option FnId := M.program.callee? M.contractId i

theorem function?_isSome_of_callee (calls : M.callee? i = some callee) : (M.program.function? callee).isSome :=
  Program.function?_isSome_of_mem_places (Program.mem_places_of_callee calls)

theorem exec_call (calls : M.callee? i = some callee) (loc : Location) :
    M.exec loc i = M.enter loc callee i.reads i.target? := by
  cases i with
  | internalCall function arguments target =>
    have resolved : M.program.resolveInternal? M.contractId function arguments.length = some callee := calls
    simp only [exec, resolved]
    rfl
  | libraryCall library function arguments target =>
    have resolved : M.program.resolveLibrary? library function arguments.length = some callee := calls
    simp only [exec, resolved]
    rfl
  | _ => cases calls

namespace Upkeep

variable (I : Path → Prop) (S : Path → Path → Prop) (Good : Term → Prop) (Bound : VarId → Prop)

/-- The links of bound variables lead to bound variables and hold good terms. -/
def Linked : Prop :=
  ∀ ⦃p v link⦄, I p → Bound v → p.links.get? v = some link → Bound link.base ∧ Good link.baseValue ∧ Good link.key

def Awaits : Prop :=
  ∀ ⦃p frame rest target⦄, I p → p.stack = frame :: rest → frame.target = some target → Bound target.id

/-- The entry of a function is withstood: its name is noted and the caller waits. -/
structure Enters (f : Function) (frame : Frame) : Prop where
  visit {p : Path} (inv : I p) : S p { p with calledFunctions := p.calledFunctions.insert f.name }
  wait {p : Path} (inv : I p) : S p { p with stack := frame :: p.stack }

/-- A new link of `target` into `base` is withstood, and the loss of its link. -/
structure Relinks (target base : VarId) : Prop where
  link {p : Path} {array key : Term} (inv : I p) (array_good : Good array) (key_good : Good key) :
    S p { p with links := p.links.insert target ⟨base, array, key⟩ }
  unlink {p : Path} (inv : I p) : S p { p with links := p.links.erase target }
  keys {p : Path} {v : VarId} {link : IndexLink} (inv : I p) (found : p.links.get? v = some link) : Good link.key

structure Leaves : Prop where
  count {p : Path} (counts : Table LoopHead Nat) (inv : I p) : S p { p with loopCounts := counts }
  back {p : Path} {frame : Frame} {rest : List Frame} (inv : I p) (stack : p.stack = frame :: rest) :
    S p { p with stack := rest }

structure Allows (M : Machine) (Seen : Variable → Prop) (loc : Location) (i : Instruction) : Prop where
  seen : ∀ v ∈ i.sees, Seen v
  free : ∀ t, i.bound? = some t → Bound t.id
  linked : i.assigns = true → Linked I Good Bound
  awaits : ∀ values, i = .ret values → Awaits I Bound
  relinks : ∀ target base key, i = .index target base key → Relinks I S Good target.id base.id
  notes : ∀ destination callee arguments target, i = .highLevelCall destination callee arguments target →
    ∀ p receiver, I p → S p (noteCall p receiver callee.name).2
  enters : ∀ callee f, M.callee? i = some callee → M.program.function? callee = some f →
    Enters I S f ⟨loc.next, i.target?⟩ ∧ ∀ k v, f.param? k = some v → Bound v.id

variable {I S} in
theorem allows_any {loc : Location} (links : ∀ p links, I p → S p { p with links := links })
    (notes : ∀ destination callee arguments target, i = .highLevelCall destination callee arguments target →
      ∀ p receiver, I p → S p (noteCall p receiver callee.name).2)
    (enters : ∀ callee f, M.callee? i = some callee → M.program.function? callee = some f →
      Enters I S f ⟨loc.next, i.target?⟩) : Allows I S Any Any M Any loc i where
  seen _ _ := trivial
  free _ _ := trivial
  linked _ _ _ _ _ _ _ := ⟨trivial, trivial, trivial⟩
  awaits _ _ _ _ _ _ _ _ _ := trivial
  relinks _ _ _ _ := ⟨fun inv _ _ => links _ _ inv, fun inv => links _ _ inv, fun _ _ => trivial⟩
  notes := notes
  enters callee f calls known := ⟨enters callee f calls known, fun _ _ _ => trivial⟩

/-- What an instruction asks of an invariant beyond its upkeep. -/
abbrev Admits (M : Machine) (I : Path → Prop) (Good : Term → Prop) (Bound : VarId → Prop) (Seen : Variable → Prop)
    (loc : Location) (i : Instruction) : Prop :=
  Allows I (fun _ => I) Good Bound M Seen loc i

def FairWays (Fair : Term → Prop) (ways : List Successor) : Prop :=
  ∀ way ∈ ways, ∀ t, way.constraint? = some t → Fair t

def FairEnd (Fair : Term → Prop) (ways : Option (List Successor)) : Prop := ∀ all, ways = some all → FairWays Fair all

end Upkeep

end Machine

end TokenAudit
