import Mathlib.Logic.Function.Basic
import TokenAudit.Proofs.Machine.Concrete

/-!
# Values after construction

A constructor that only copies constants and variables leaves in every variable either a constant or what some
variable held before.
-/

namespace TokenAudit

open List Constant Instruction

variable {α : Type} {name : String} {c value : Constant} {v : VarId} {known : Table VarId Constant} {f : Function}
  {is : List Instruction} {target : Variable} {source : Operand} {i : Instruction} (literal : Constant → α)

def Instruction.copy? : Instruction → Option (Variable × Operand)
  | .assignment target source => some (target, source)
  | .conversion target source => some (target, source)
  | _ => none

def copyTargets (is : List Instruction) : List VarId := is.filterMap fun i => i.copy?.map fun copy => copy.1.id

def Operand.held (literal : Constant → α) (store : VarId → α) : Operand → α
  | .const c => literal c
  | .var v => store v.id

def Instruction.perform (literal : Constant → α) (store : VarId → α) (i : Instruction) : VarId → α :=
  match i.copy? with
  | some (target, source) => Function.update store target.id (source.held literal store)
  | none => store

def copied (literal : Constant → α) (store : VarId → α) (is : List Instruction) : VarId → α :=
  is.foldl (perform literal) store

theorem perform_copy (store : VarId → α) (copies : i.copy? = some (target, source)) :
    i.perform literal store = Function.update store target.id (source.held literal store) := by
  rw [perform, copies]

theorem copyTargets_copy (copies : i.copy? = some (target, source)) (rest : List Instruction) :
    copyTargets (i :: rest) = target.id :: copyTargets rest := by
  simp [copyTargets, copies]

theorem copied_of_notMem (store : VarId → α) (untouched : v ∉ copyTargets is) :
    copied literal store is v = store v := by
  induction is generalizing store with
  | nil => rfl
  | cons i rest ih =>
    have step : copied literal store (i :: rest) v = copied literal (i.perform literal store) rest v := rfl
    cases copies : i.copy? with
    | none =>
      rw [copyTargets, filterMap_cons, copies] at untouched
      rw [step, ih _ untouched, perform, copies]
    | some copy =>
      rw [copyTargets_copy copies, mem_cons, not_or] at untouched
      rw [step, ih _ untouched.2, perform_copy literal store copies, Function.update_of_ne untouched.1]

inductive Provenance where
  | constant (c : Constant)
  | before (v : VarId)
  deriving DecidableEq

def Function.provenance (f : Function) : VarId → Provenance := copied .constant .before f.instructions

/-- Where the value of an operand comes from behind the instructions. -/
def Operand.origin (is : List Instruction) (o : Operand) : Provenance := o.held .constant (copied .constant .before is)

def Provenance.datum (store : VarId → Datum) : Provenance → Datum
  | .constant c => c.datum
  | .before v => store v

theorem datum_copied (store : VarId → Datum) (is : List Instruction) (traces : VarId → Provenance) (v : VarId) :
    (copied .constant traces is v).datum store = copied datum (fun w => (traces w).datum store) is v := by
  induction is generalizing traces with
  | nil => rfl
  | cons i rest ih =>
    have step : (fun w => (i.perform .constant traces w).datum store) =
        i.perform datum fun w => (traces w).datum store := by
      funext w
      cases copies : i.copy? with
      | none => rw [perform, perform, copies]
      | some copy =>
        obtain ⟨target, source⟩ := copy
        rw [perform_copy _ _ copies, perform_copy _ _ copies]
        by_cases here : w = target.id
        · subst here
          cases source <;> simp [Operand.held, Provenance.datum]
        · simp [here]
    have later := ih (i.perform .constant traces)
    rw [step] at later
    exact later

theorem datum_injective {d : Constant} (same : c.datum = d.datum) : c = d := by
  cases c <;> cases d <;> cases same <;> rfl

theorem exists_other_datum (c : Constant) : ∃ d : Datum, d ≠ c.datum := by
  cases c with
  | int i => exact ⟨.bool true, nofun⟩
  | bool b | str s => exact ⟨.int 0, nofun⟩

theorem held_iff_provenance (f : Function) (v : VarId) (value : Constant) :
    (∀ store, copied datum store f.instructions v = value.datum) ↔ f.provenance v = .constant value := by
  have held (store : VarId → Datum) :
      copied datum store f.instructions v = (f.provenance v).datum store :=
    (datum_copied store f.instructions .before v).symm
  simp only [held]
  constructor
  · intro always
    cases origin : f.provenance v with
    | constant c =>
      rw [origin] at always
      rw [datum_injective (always fun _ => .int 0)]
    | before w =>
      obtain ⟨d, other⟩ := exists_other_datum value
      rw [origin] at always
      exact absurd (always fun _ => d) other
  · intro origin store
    rw [origin]
    rfl

namespace Contract

structure Settled (store : VarId → Datum) (known : Table VarId Constant) (is : List Instruction) : Prop where
  agrees : ∀ v c, known.get? v = some c → store v = c.datum
  final : ∀ v c, known.get? v = some c → v ∉ copyTargets is

variable {store : VarId → Datum}

theorem Settled.insert (settled : Settled store known is) (last : target.id ∉ copyTargets is) :
    Settled (Function.update store target.id c.datum) (known.insert target.id c) is := by
  constructor
  · intro v d found
    rw [Table.get?_insert] at found
    split at found
    · rename_i same
      cases found
      rw [← same, Function.update_self]
    · rename_i apart
      rw [Function.update_of_ne (Ne.symm apart)]
      exact settled.agrees v d found
  · intro v d found
    rw [Table.get?_insert] at found
    split at found
    · rename_i same
      exact same ▸ last
    · exact settled.final v d found

theorem Settled.cons (settled : Settled store known (i :: is)) (copies : i.copy? = some (target, source)) :
    (∀ c, known.get? target.id ≠ some c) ∧ Settled store known is := by
  have final := settled.final
  simp only [copyTargets_copy copies, mem_cons, not_or] at final
  exact ⟨fun c found => (final _ c found).1 rfl, settled.agrees, fun v c found => (final v c found).2⟩

theorem Settled.skip {d : Datum} (settled : Settled store known is)
    (unknown : ∀ c, known.get? target.id ≠ some c) : Settled (Function.update store target.id d) known is := by
  refine ⟨fun v c found => ?_, settled.final⟩
  have apart : v ≠ target.id := fun same => unknown c (same ▸ found)
  rw [Function.update_of_ne apart]
  exact settled.agrees v c found

def believed (known : Table VarId Constant) : Operand → Option Constant
  | .const c => some c
  | .var v => known.get? v.id

theorem Settled.believed (settled : Settled store known is)
    (found : believed known source = some c) : source.held datum store = c.datum := by
  cases source with
  | const d =>
    cases found
    rfl
  | var v => exact settled.agrees v.id c found

theorem firstConstant_assignment (target : Variable) (source : Operand) (rest : List Instruction) :
    firstConstant name known (.assignment target source :: rest) =
      match believed known source with
      | some c =>
        if target.isState && target.name == name then some c
        else firstConstant name (known.insert target.id c) rest
      | none => firstConstant name known rest := by
  cases source <;> rfl

theorem state_id (hit : (target.isState && target.name == name) = true) : target.id = ⟨name, .state⟩ := by
  rw [Bool.and_eq_true, beq_iff_eq] at hit
  rw [Variable.id, hit.2, beq_iff_eq.mp hit.1]

theorem firstConstant_held (store : VarId → Datum) (straight : ∀ i ∈ is, i.copy?.isSome)
    (once : (copyTargets is).Nodup) (settled : Settled store known is)
    (found : firstConstant name known is = some value) : copied datum store is ⟨name, .state⟩ = value.datum := by
  induction is generalizing store known with
  | nil => cases found
  | cons i rest ih =>
    obtain ⟨copies, later⟩ := forall_mem_cons.mp straight
    obtain ⟨⟨target, source⟩, copy⟩ := Option.isSome_iff_exists.mp copies
    rw [copyTargets_copy copy] at once
    obtain ⟨last, once⟩ := nodup_cons.mp once
    obtain ⟨unknown, rests⟩ := settled.cons copy
    show copied datum (i.perform datum store) rest ⟨name, .state⟩ = value.datum
    rw [perform_copy _ _ copy]
    cases i with
    | assignment target source =>
      cases copy
      rw [firstConstant_assignment] at found
      cases taken : believed known source with
      | none =>
        rw [taken] at found
        exact ih _ later once (rests.skip unknown) found
      | some c =>
        rw [taken] at found
        dsimp only at found
        rw [rests.believed taken]
        by_cases hit : (target.isState && target.name == name) = true
        · rw [if_pos hit, Option.some.injEq] at found
          rw [state_id hit] at last ⊢
          rw [copied_of_notMem _ _ last, Function.update_self, found]
        · rw [if_neg hit] at found
          exact ih _ later once (rests.insert last) found
    | conversion target source =>
      cases copy
      cases source with
      | const c => exact ih _ later once (rests.insert last) found
      | var v => exact ih _ later once (rests.skip unknown) found
    | _ => cases copy

/-- The analysis takes its constant from an assignment to the state variable, and from nothing before it. -/
structure Stops (name : String) (known : Table VarId Constant) (is : List Instruction) (value : Constant)
    (before : List Instruction) (source : Operand) (after : List Instruction) : Prop where
  assigns : ∃ target : Variable, target.id = ⟨name, .state⟩ ∧ is = before ++ .assignment target source :: after ∧
    firstConstant name known (before ++ [.assignment target source]) = some value
  first : firstConstant name known before = none

theorem Stops.cons {known' : Table VarId Constant} {before after : List Instruction}
    (stops : Stops name known' is value before source after)
    (passes : ∀ later, firstConstant name known (i :: later) = firstConstant name known' later) :
    Stops name known (i :: is) value (i :: before) source after := by
  obtain ⟨⟨target, state, rfl, found⟩, first⟩ := stops
  exact ⟨⟨target, state, rfl, (passes _).trans found⟩, (passes _).trans first⟩

theorem exists_stops (straight : ∀ i ∈ is, i.copy?.isSome) (found : firstConstant name known is = some value) :
    ∃ before source after, Stops name known is value before source after := by
  induction is generalizing known with
  | nil => cases found
  | cons i rest ih =>
    obtain ⟨copies, later⟩ := forall_mem_cons.mp straight
    have pass {known' : Table VarId Constant}
        (passes : ∀ later, firstConstant name known (i :: later) = firstConstant name known' later) :
        ∃ before source after, Stops name known (i :: rest) value before source after := by
      obtain ⟨before, source, after, stops⟩ := ih later ((passes rest).symm.trans found)
      exact ⟨_, _, _, stops.cons passes⟩
    cases i with
    | assignment target source =>
      simp only [firstConstant_assignment] at found pass
      cases taken : believed known source with
      | none =>
        simp only [taken] at pass
        exact pass fun _ => rfl
      | some c =>
        simp only [taken] at found pass
        by_cases hit : (target.isState && target.name == name) = true
        · refine ⟨[], source, rest, ⟨target, state_id hit, rfl, ?_⟩, rfl⟩
          simpa [firstConstant_assignment, taken, hit] using found
        · simp only [if_neg hit] at pass
          exact pass fun _ => rfl
    | conversion target source => cases source with
      | const c | var v => exact pass fun _ => rfl
    | _ => cases copies

/-- A constant is found for a state variable at some assignment to it.  Where the variable is not written behind that
assignment, it holds the constant after every construction just when what is assigned there comes from the constant,
and else just when what is written last does.  It holds it where no variable is written twice. -/
theorem initial_constant_held_iff {k : Nat} {sv : StateVariable} {contract : Contract}
    (declared : contract.stateVariable? name = some (k, sv)) (plain : sv.initializer = none)
    (constructed : contract.constructor? = some f) (straight : ∀ i ∈ f.instructions, i.copy?.isSome)
    (found : contract.initialConstant? name = some value) :
    (∃ before source after, Stops name .empty f.instructions value before source after ∧
      ((∀ store, copied datum store f.instructions ⟨name, .state⟩ = value.datum) ↔
        if ⟨name, .state⟩ ∈ copyTargets after then f.provenance ⟨name, .state⟩ = .constant value
        else source.origin before = .constant value)) ∧
      ((copyTargets f.instructions).Nodup →
        ∀ store, copied datum store f.instructions ⟨name, .state⟩ = value.datum) := by
  rw [initialConstant?, declared] at found
  simp only [plain, constructed] at found
  refine ⟨?_, fun once store => firstConstant_held store straight once ⟨by simp, by simp⟩ found⟩
  obtain ⟨before, source, after, stops⟩ := exists_stops straight found
  refine ⟨before, source, after, stops, ?_⟩
  obtain ⟨target, state, split, _⟩ := stops.assigns
  rw [held_iff_provenance]
  split
  · rfl
  · rename_i kept
    have left : f.provenance ⟨name, .state⟩ = source.origin before := by
      have last : f.provenance = copied .constant ((assignment target source).perform .constant
          (copied .constant .before before)) after := by
        rw [Function.provenance, split, copied, foldl_append]
        rfl
      rw [last, copied_of_notMem _ _ kept, perform_copy _ _ rfl, state, Function.update_self]
      rfl
    rw [left]

/-! Constructors that give a state variable a supply. -/

def supply : Variable := .ofState "supply" .uint256

def amount : Variable := ⟨"TMP_0", .temporary "constructor", .uint256⟩

def granted : Variable := ⟨"granted", .param "constructor" 0, .uint256⟩

def supplied (is : List Instruction) : Contract := {
  stateVariables := [⟨"supply", .uint256, .internalAccess, none⟩]
  functions := [{
    isConstructor := true
    nodes := [{ instructions := is }] }] }

/-- A converted constant is held in the end. -/
theorem converted_supply_held :
    let is : List Instruction := [.conversion amount (.const (.int 7)), .assignment supply (.var amount)]
    (supplied is).initialConstant? "supply" = some (.int 7) ∧
      ∀ store, copied datum store is ⟨"supply", .state⟩ = (int 7).datum := by
  intro is
  have declared : (supplied is).stateVariable? "supply" = some (0, ⟨"supply", .uint256, .internalAccess, none⟩) := rfl
  have straight : ∀ i ∈ is, i.copy?.isSome := by simp [is, copy?]
  have held := initial_constant_held_iff declared rfl rfl straight rfl
  exact ⟨rfl, held.2 (by decide)⟩

/-- A temporary that was given another value is still taken for the constant it held, and so is the state variable. -/
theorem overwritten_supply_found : let stale : List Instruction :=
      [.assignment amount (.const (.int 1)), .assignment amount (.var granted), .assignment supply (.var amount)]
    stale.all (·.copy?.isSome) = true ∧ (supplied stale).initialConstant? "supply" = some (.int 1) ∧
      ∃ store, copied datum store stale ⟨"supply", .state⟩ = .int 2 := by
  refine ⟨rfl, rfl, fun _ => .int 2, ?_⟩
  simp [copied, perform, copy?, Operand.held, supply, amount, granted, Variable.id, Variable.ofState, datum]

end Contract

end TokenAudit
