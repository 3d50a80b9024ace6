import TokenAudit.Proofs.ContractType.Reading
import TokenAudit.Proofs.Json.Members
import TokenAudit.Proofs.Json.Text

/-!
# The types and counts of a program

Only two kinds of leaves of a program could be lost when it is written and read again: types, whose names reading may
shorten, and counts, which a document gives in 64 bits.
-/

namespace TokenAudit

open Json

inductive Leaf where
  | type (t : ContractType)
  | count (n : Nat)

def Scope.leaves : Scope → List Leaf
  | .param _ index => [.count index]
  | _ => []

def Variable.leaves (v : Variable) : List Leaf := .type v.type :: v.scope.leaves

def Operand.leaves : Operand → List Leaf
  | .var v => v.leaves
  | .const _ => []

def CallSignature.leaves (s : CallSignature) : List Leaf := s.params.map .type ++ s.returns.map .type

namespace Instruction

def operandLeaves (arguments : List Operand) (target : Option Variable) : List Leaf :=
  arguments.flatMap Operand.leaves ++ target.toList.flatMap Variable.leaves

def leaves : Instruction → List Leaf
  | .builtinCall _ arguments target => operandLeaves arguments target
  | .assignment target source => target.leaves ++ source.leaves
  | .conversion target source => target.leaves ++ source.leaves
  | .internalCall _ arguments target => operandLeaves arguments target
  | .libraryCall _ _ arguments target => operandLeaves arguments target
  | .highLevelCall destination callee arguments target =>
    destination.leaves ++ callee.leaves ++ operandLeaves arguments target
  | .lowLevelCall destination _ arguments target => destination.leaves ++ operandLeaves arguments target
  | .unary _ source target => source.leaves ++ target.leaves
  | .binary _ left right target _ => left.leaves ++ right.leaves ++ target.leaves
  | .length array target => array.leaves ++ target.leaves
  | .eventCall _ arguments => operandLeaves arguments none
  | .index target base key => target.leaves ++ base.leaves ++ key.leaves
  | .delete target erased => target.leaves ++ erased.leaves
  | .newElementary target => target.leaves
  | .ret values => operandLeaves values none
  | .unpack target tuple place => target.leaves ++ tuple.leaves ++ [.count place]
  | .member target base _ => target.leaves ++ base.leaves
  | .condition value => value.leaves
  | .transfer destination amount => destination.leaves ++ amount.leaves
  | .send destination amount target => destination.leaves ++ amount.leaves ++ operandLeaves [] target
  | .newArray target arguments => target.leaves ++ operandLeaves arguments none
  | .initArray target values => target.leaves ++ operandLeaves values none
  | .codeSize target account => target.leaves ++ account.leaves
  | .unsupported _ target => operandLeaves [] target

end Instruction

def Node.leaves (n : Node) : List Leaf :=
  .count n.id :: (n.instructions.flatMap Instruction.leaves ++ n.sons.map .count ++ n.sonTrue.toList.map .count ++
    n.sonFalse.toList.map .count ++ n.declared.toList.flatMap Variable.leaves)

def Function.leaves (f : Function) : List Leaf :=
  .count f.entry :: (f.params.map (fun p => .type p.type) ++ f.returns.map .type ++ f.nodes.flatMap Node.leaves)

def Contract.leaves (c : Contract) : List Leaf :=
  c.stateVariables.map (fun v => .type v.type) ++ c.functions.flatMap Function.leaves ++
    c.events.flatMap fun e => e.params.map fun p => .type p.type

def Program.leaves (p : Program) : List Leaf := p.contracts.flatMap Contract.leaves

def Program.types (p : Program) : List ContractType :=
  p.leaves.filterMap fun
    | .type t => some t
    | .count _ => none

namespace Leaf

def Sound : Leaf → Prop
  | .type t => t.Readable
  | .count n => n < Number.wordLimit

def Fine : Leaf → Prop
  | .type t => t.Readable ∧ ∀ n ∈ t.names, ContractType.settle n = n
  | .count n => n < Number.wordLimit

end Leaf

def Each (P : Leaf → Prop) (leaves : List Leaf) : Prop := ∀ q ∈ leaves, P q

section

variable {P : Leaf → Prop} {α : Type} {as : List α}

@[simp] theorem each_nil : Each P [] := nofun

@[simp] theorem each_cons {q : Leaf} {leaves : List Leaf} : Each P (q :: leaves) ↔ P q ∧ Each P leaves := by
  simp [Each]

@[simp] theorem each_append {first second : List Leaf} : Each P (first ++ second) ↔ Each P first ∧ Each P second := by
  simp [Each, or_imp, forall_and]

@[simp] theorem each_map {f : α → Leaf} : Each P (as.map f) ↔ ∀ a ∈ as, P (f a) := by
  simp [Each]

@[simp] theorem each_flatMap {f : α → List Leaf} : Each P (as.flatMap f) ↔ ∀ a ∈ as, Each P (f a) := by
  simp only [Each, List.mem_flatMap]
  grind

end

theorem hereditary_bounded : Hereditary Bounded where
  item bounded among := by
    cases bounded with
    | arr each => exact each _ among
  member bounded among := by
    cases bounded with
    | obj each => exact each _ among

theorem yields_nat? : Yields Bounded nat? (· < Number.wordLimit) := by
  intro j bounded n decoded
  cases bounded with
  | @int i fits =>
    cases i with
    | ofNat m =>
      cases decoded
      simpa using fits.2
    | negSucc m => cases decoded
  | _ => cases decoded

theorem Json.Yields.entire {α : Type} {I : Json → Prop} {decode : Json → Option α} {P : α → Prop}
    (yields : Yields I decode P) : Yields I (Json.entire decode) P := by
  intro j held a decoded
  unfold Json.entire at decoded
  split at decoded
  · exact yields held decoded
  · cases decoded

theorem ContractType.yields_ofJson? : Yields Bounded ContractType.ofJson? ContractType.Readable := by
  intro j _ t decoded
  obtain ⟨text, _, reads⟩ := Option.bind_eq_some_iff.mp decoded
  exact readable_read (ok_of_toOption reads)

section

variable {ms : Members} (held : ∀ m ∈ ms, Bounded m.2)

include held

theorem Scope.sound_ofMembers? {scope : Scope} (decoded : ofMembers? ms = some scope) :
    Each Leaf.Sound scope.leaves := by
  obtain ⟨tag, _, decoded⟩ := bind_eq_some.mp decoded
  cases tag with
  | param =>
    obtain ⟨function, _, decoded⟩ := bind_eq_some.mp decoded
    obtain ⟨index, counted, ⟨⟩⟩ := bind_eq_some.mp decoded
    have fits : index < Number.wordLimit := yields_nat?.required held counted
    exact each_cons.mpr ⟨fits, each_nil⟩
  | localIn | temporary | reference =>
    obtain ⟨function, _, ⟨⟩⟩ := bind_eq_some.mp decoded
    exact each_nil
  | state | builtin =>
    cases decoded
    exact each_nil

end

theorem Variable.yields_ofJson? : Yields Bounded Variable.ofJson? fun v => Each Leaf.Sound v.leaves := by
  intro j bounded v decoded
  simp only [ofJson?, bind_eq_some] at decoded
  obtain ⟨ms, listed, name, _, type, typed, scope, placed, ⟨⟩⟩ := decoded
  have held : ∀ m ∈ ms, Bounded m.2 := by
    cases bounded with
    | obj each =>
      cases listed
      exact each
    | _ => cases listed
  have readable : type.Readable := ContractType.yields_ofJson?.required held typed
  exact each_cons.mpr ⟨readable, Scope.sound_ofMembers? held placed⟩

theorem Operand.yields_ofJson? : Yields Bounded Operand.ofJson? fun o => Each Leaf.Sound o.leaves := by
  intro j bounded o decoded
  rcases Option.or_eq_some_iff.mp decoded with decoded | ⟨_, decoded⟩
  · obtain ⟨v, made, rfl⟩ := Option.map_eq_some_iff.mp decoded
    exact Variable.yields_ofJson? bounded made
  · obtain ⟨c, _, rfl⟩ := Option.map_eq_some_iff.mp decoded
    exact each_nil

theorem CallSignature.yields_ofJson? : Yields Bounded CallSignature.ofJson? fun s => Each Leaf.Sound s.leaves := by
  intro j bounded s decoded
  simp only [ofJson?, bind_eq_some] at decoded
  obtain ⟨ms, listed, name, _, params, taken, returns, given, ⟨⟩⟩ := decoded
  have held := members_of_record hereditary_bounded bounded listed
  have params := ContractType.yields_ofJson?.listed hereditary_bounded held taken
  have returns := ContractType.yields_ofJson?.listed hereditary_bounded held given
  exact each_append.mpr ⟨each_map.mpr params, each_map.mpr returns⟩

namespace Instruction

section

variable {ms : Members} (held : ∀ m ∈ ms, Bounded m.2) {n : String} {target : Option Variable}

include held

theorem sound_varAt? {v : Variable} (decoded : varAt? ms n = some v) : Each Leaf.Sound v.leaves :=
  Variable.yields_ofJson?.required held decoded

theorem sound_operand? {o : Operand} (decoded : operand? ms n = some o) : Each Leaf.Sound o.leaves :=
  Operand.yields_ofJson?.required held decoded

theorem sound_operands? {os : List Operand} (decoded : operands? ms n = some os)
    (bound : ∀ v ∈ target, Each Leaf.Sound v.leaves) : Each Leaf.Sound (operandLeaves os target) := by
  have operands := Operand.yields_ofJson?.listed hereditary_bounded held decoded
  exact each_append.mpr
    ⟨each_flatMap.mpr operands, each_flatMap.mpr fun v among => bound v (Option.mem_toList.mp among)⟩

theorem sound_maybeTarget? (decoded : maybeTarget? ms = some target) : ∀ v ∈ target, Each Leaf.Sound v.leaves :=
  Variable.yields_ofJson?.optional held decoded

end

theorem sound_target {target : Option Variable} (bound : ∀ v ∈ target, Each Leaf.Sound v.leaves) :
    Each Leaf.Sound (operandLeaves [] target) :=
  each_append.mpr ⟨each_nil, each_flatMap.mpr fun v among => bound v (Option.mem_toList.mp among)⟩

theorem sound_ofMembers? {ms : Members} (held : ∀ m ∈ ms, Bounded m.2) {tag : Tag} {i : Instruction}
    (decoded : ofMembers? ms tag = some i) : Each Leaf.Sound i.leaves := by
  have absent : ∀ v ∈ (none : Option Variable), Each Leaf.Sound v.leaves := nofun
  cases tag <;> simp only [ofMembers?, bind_eq_some] at decoded
  case builtinCall | internalCall =>
    obtain ⟨function, _, arguments, listed, target, bound, ⟨⟩⟩ := decoded
    exact sound_operands? held listed (sound_maybeTarget? held bound)
  case libraryCall =>
    obtain ⟨library, _, function, _, arguments, listed, target, bound, ⟨⟩⟩ := decoded
    exact sound_operands? held listed (sound_maybeTarget? held bound)
  case highLevelCall =>
    obtain ⟨destination, sent, callee, named, arguments, listed, target, bound, ⟨⟩⟩ := decoded
    exact each_append.mpr ⟨each_append.mpr ⟨sound_operand? held sent, CallSignature.yields_ofJson?.required held named⟩,
      sound_operands? held listed (sound_maybeTarget? held bound)⟩
  case lowLevelCall =>
    obtain ⟨destination, sent, function, _, arguments, listed, target, bound, ⟨⟩⟩ := decoded
    exact each_append.mpr ⟨sound_operand? held sent, sound_operands? held listed (sound_maybeTarget? held bound)⟩
  case assignment | conversion | codeSize =>
    obtain ⟨target, bound, source, given, ⟨⟩⟩ := decoded
    exact each_append.mpr ⟨sound_varAt? held bound, sound_operand? held given⟩
  case member =>
    obtain ⟨target, bound, base, given, field, _, ⟨⟩⟩ := decoded
    exact each_append.mpr ⟨sound_varAt? held bound, sound_operand? held given⟩
  case unary =>
    obtain ⟨op, _, source, given, target, bound, ⟨⟩⟩ := decoded
    exact each_append.mpr ⟨sound_operand? held given, sound_varAt? held bound⟩
  case binary =>
    obtain ⟨op, _, left, first, right, second, target, bound, checked, _, ⟨⟩⟩ := decoded
    exact each_append.mpr
      ⟨each_append.mpr ⟨sound_operand? held first, sound_operand? held second⟩, sound_varAt? held bound⟩
  case length | delete =>
    obtain ⟨first, given, second, bound, ⟨⟩⟩ := decoded
    exact each_append.mpr ⟨sound_varAt? held given, sound_varAt? held bound⟩
  case eventCall =>
    obtain ⟨name, _, arguments, listed, ⟨⟩⟩ := decoded
    exact sound_operands? held listed absent
  case ret =>
    obtain ⟨values, listed, ⟨⟩⟩ := decoded
    exact sound_operands? held listed absent
  case newArray | initArray =>
    obtain ⟨target, bound, values, listed, ⟨⟩⟩ := decoded
    exact each_append.mpr ⟨sound_varAt? held bound, sound_operands? held listed absent⟩
  case index =>
    obtain ⟨target, bound, base, given, key, keyed, ⟨⟩⟩ := decoded
    exact each_append.mpr
      ⟨each_append.mpr ⟨sound_varAt? held bound, sound_varAt? held given⟩, sound_operand? held keyed⟩
  case unpack =>
    obtain ⟨target, bound, tuple, given, place, counted, ⟨⟩⟩ := decoded
    exact each_append.mpr ⟨each_append.mpr ⟨sound_varAt? held bound, sound_varAt? held given⟩,
      each_cons.mpr ⟨yields_nat?.required held counted, each_nil⟩⟩
  case newElementary =>
    obtain ⟨target, bound, ⟨⟩⟩ := decoded
    exact sound_varAt? held bound
  case condition =>
    obtain ⟨value, given, ⟨⟩⟩ := decoded
    exact sound_operand? held given
  case transfer =>
    obtain ⟨destination, sent, amount, given, ⟨⟩⟩ := decoded
    exact each_append.mpr ⟨sound_operand? held sent, sound_operand? held given⟩
  case send =>
    obtain ⟨destination, sent, amount, given, target, bound, ⟨⟩⟩ := decoded
    exact each_append.mpr ⟨each_append.mpr ⟨sound_operand? held sent, sound_operand? held given⟩,
      sound_target (sound_maybeTarget? held bound)⟩
  case unsupported =>
    obtain ⟨description, _, target, bound, ⟨⟩⟩ := decoded
    exact sound_target (sound_maybeTarget? held bound)

theorem yields_ofJson? : Yields Bounded Instruction.ofJson? fun i => Each Leaf.Sound i.leaves := by
  intro j bounded i decoded
  obtain ⟨⟨tag, ms⟩, chosen, decoded⟩ := Option.bind_eq_some_iff.mp decoded
  exact sound_ofMembers? (members_of_choice hereditary_bounded bounded chosen) decoded

end Instruction

theorem Node.yields_ofJson? : Yields Bounded Node.ofJson? fun n => Each Leaf.Sound n.leaves := by
  intro j bounded n decoded
  simp only [ofJson?, bind_eq_some] at decoded
  obtain ⟨ms, listed, id, numbered, kind, _, instructions, ordered, sons, followed, sonTrue, first, sonFalse,
    second, declared, given, ⟨⟩⟩ := decoded
  have held := members_of_record hereditary_bounded bounded listed
  have id : id < Number.wordLimit := yields_nat?.required held numbered
  have instructions := Instruction.yields_ofJson?.entire.listed hereditary_bounded held ordered
  have sons := yields_nat?.listed hereditary_bounded held followed
  have sonTrue := yields_nat?.optional held first
  have sonFalse := yields_nat?.optional held second
  have declared := Variable.yields_ofJson?.entire.optional held given
  simp only [leaves, each_cons, each_append, each_flatMap, each_map, Option.mem_toList]
  exact ⟨id, ⟨⟨⟨instructions, sons⟩, sonTrue⟩, sonFalse⟩, declared⟩

theorem StateVariable.yields_ofJson? : Yields Bounded StateVariable.ofJson? fun v => v.type.Readable := by
  intro j bounded v decoded
  simp only [ofJson?, bind_eq_some] at decoded
  obtain ⟨ms, listed, name, _, type, typed, visibility, _, initializer, _, ⟨⟩⟩ := decoded
  exact ContractType.yields_ofJson?.required (members_of_record hereditary_bounded bounded listed) typed

theorem EventDecl.yields_param? : Yields Bounded EventDecl.param? fun p => p.type.Readable := by
  intro j bounded p decoded
  simp only [param?, bind_eq_some] at decoded
  obtain ⟨ms, listed, name, _, type, typed, indexed, _, ⟨⟩⟩ := decoded
  exact ContractType.yields_ofJson?.required (members_of_record hereditary_bounded bounded listed) typed

theorem EventDecl.yields_ofJson? : Yields Bounded EventDecl.ofJson? fun e => ∀ p ∈ e.params, p.type.Readable := by
  intro j bounded e decoded
  simp only [ofJson?, bind_eq_some] at decoded
  obtain ⟨ms, listed, name, _, params, taken, ⟨⟩⟩ := decoded
  exact yields_param?.listed hereditary_bounded (members_of_record hereditary_bounded bounded listed) taken

theorem Function.yields_paramOfJson? : Yields Bounded Function.paramOfJson? fun p => p.type.Readable := by
  intro j bounded p decoded
  simp only [paramOfJson?, bind_eq_some] at decoded
  obtain ⟨ms, listed, name, _, type, typed, ⟨⟩⟩ := decoded
  exact ContractType.yields_ofJson?.required (members_of_record hereditary_bounded bounded listed) typed

theorem Function.yields_ofJson? : Yields Bounded Function.ofJson? fun f => Each Leaf.Sound f.leaves := by
  intro j bounded f decoded
  simp only [ofJson?, bind_eq_some] at decoded
  obtain ⟨ms, listed, name, _, params, taken, returns, given, visibility, _, mutability, _, isConstructor, _,
    entry, entered, nodes, numbered, source, _, ⟨⟩⟩ := decoded
  have held := members_of_record hereditary_bounded bounded listed
  have entry : entry < Number.wordLimit := yields_nat?.defaulted held (by decide) entered
  have params := yields_paramOfJson?.listed hereditary_bounded held taken
  have returns := ContractType.yields_ofJson?.listed hereditary_bounded held given
  have nodes := Node.yields_ofJson?.listed hereditary_bounded held numbered
  simp only [leaves, each_cons, each_append, each_flatMap, each_map]
  exact ⟨entry, ⟨params, returns⟩, nodes⟩

theorem Contract.yields_ofJson? : Yields Bounded Contract.ofJson? fun c => Each Leaf.Sound c.leaves := by
  intro j bounded c decoded
  simp only [ofJson?, bind_eq_some] at decoded
  obtain ⟨ms, listed, name, _, kind, _, stateVariables, stored, functions, called, events, emitted, ⟨⟩⟩ := decoded
  have held := members_of_record hereditary_bounded bounded listed
  have stateVariables := StateVariable.yields_ofJson?.listed hereditary_bounded held stored
  have functions := Function.yields_ofJson?.listed hereditary_bounded held called
  have events := EventDecl.yields_ofJson?.listed hereditary_bounded held emitted
  simp only [leaves, each_append, each_flatMap, each_map]
  exact ⟨⟨stateVariables, functions⟩, events⟩

theorem Program.yields_ofJson? : Yields Bounded Program.ofJson? fun p => Each Leaf.Sound p.leaves := by
  intro j bounded p decoded
  simp only [ofJson?, bind_eq_some] at decoded
  obtain ⟨ms, listed, contracts, given, ⟨⟩⟩ := decoded
  have held := members_of_record hereditary_bounded bounded listed
  exact each_flatMap.mpr (Contract.yields_ofJson?.listed hereditary_bounded held given)

end TokenAudit
