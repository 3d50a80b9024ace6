import Mathlib.Logic.Relation
import TokenAudit.Proofs.Program.Reachability

/-!
# The call graph

A function calls another one when one of its instructions names it: an internal call in the contract the function
stands in, a library call in the first contract of the library's name.
-/

namespace TokenAudit

open List

variable {p : Program} {name : String} {arity contract j : Nat} {id caller callee root : FnId}

def FirstWith {α : Type} (items : List α) (P : α → Prop) (j : Nat) : Prop :=
  (∃ x, items[j]? = some x ∧ P x) ∧ ∀ k < j, ∀ x, items[k]? = some x → ¬ P x

/-- The function of a contract that a call means: the first of that name with that many parameters, or the first of that
name where none has so many. -/
inductive Contract.Means (c : Contract) (name : String) (arity j : Nat) : Prop
  | fitting (first : FirstWith c.functions (fun f => f.name = name ∧ f.params.length = arity) j)
  | other (unfit : ∀ f ∈ c.functions, f.name = name → f.params.length ≠ arity)
      (first : FirstWith c.functions (fun f => f.name = name) j)

theorem findIdx?_eq_some_iff_firstWith {α : Type} {items : List α} {P : α → Bool} :
    items.findIdx? P = some j ↔ FirstWith items (fun x => P x = true) j := by
  rw [List.findIdx?_eq_some_iff_getElem]
  constructor
  · rintro ⟨inRange, holds, before⟩
    refine ⟨⟨items[j], List.getElem?_eq_getElem inRange, holds⟩, fun k earlier f found => ?_⟩
    obtain ⟨_, rfl⟩ := List.getElem?_eq_some_iff.mp found
    exact before k earlier
  · rintro ⟨⟨f, found, holds⟩, before⟩
    obtain ⟨inRange, rfl⟩ := List.getElem?_eq_some_iff.mp found
    exact ⟨inRange, holds, fun k earlier => before k earlier _ (List.getElem?_eq_getElem (by omega))⟩

namespace Program

def Resolves (p : Program) (contract : Nat) (name : String) (arity : Nat) (callee : FnId) : Prop :=
  callee.contract = contract ∧ ∃ c, p.contracts[contract]? = some c ∧ c.Means name arity callee.function

theorem resolveInternal?_eq_some_iff :
    p.resolveInternal? contract name arity = some id ↔ p.Resolves contract name arity id := by
  unfold resolveInternal? Resolves
  cases found : p.contracts[contract]? with
  | none => simp
  | some c =>
    have named (j : Nat) : c.functions.findIdx? (fun f => f.name == name) = some j ↔
        FirstWith c.functions (fun f => f.name = name) j := by
      simp [findIdx?_eq_some_iff_firstWith]
    have fitting (j : Nat) : c.functions.findIdx? (fun f => f.name == name && f.params.length == arity) = some j ↔
        FirstWith c.functions (fun f => f.name = name ∧ f.params.length = arity) j := by
      simp [findIdx?_eq_some_iff_firstWith]
    have unfit : c.functions.findIdx? (fun f => f.name == name && f.params.length == arity) = none ↔
        ∀ f ∈ c.functions, f.name = name → f.params.length ≠ arity := by
      simp [List.findIdx?_eq_none_iff]
    have means (j : Nat) : (c.functions.findIdx? fun f => f.name == name && f.params.length == arity).or
        (c.functions.findIdx? fun f => f.name == name) = some j ↔ c.Means name arity j := by
      rw [Option.or_eq_some_iff, fitting, named, unfit]
      constructor
      · rintro (first | ⟨unfit, first⟩)
        · exact .fitting first
        · exact .other unfit first
      · rintro (first | ⟨unfit, first⟩)
        · exact .inl first
        · exact .inr ⟨unfit, first⟩
    obtain ⟨k, j⟩ := id
    simp only [Option.map_eq_some_iff, means, FnId.mk.injEq, Option.some.injEq]
    constructor
    · rintro ⟨_, meant, rfl, rfl⟩
      exact ⟨rfl, c, rfl, meant⟩
    · rintro ⟨rfl, _, rfl, meant⟩
      exact ⟨j, meant, rfl, rfl⟩

def HasInstruction (p : Program) (id : FnId) (i : Instruction) : Prop :=
  ∃ f, p.function? id = some f ∧ ∃ node ∈ f.nodes, i ∈ node.instructions

inductive Calls (p : Program) (caller callee : FnId) : Prop
  | internal {name : String} {arguments : List Operand} {target : Option Variable}
      (listed : p.HasInstruction caller (.internalCall name arguments target))
      (resolves : p.Resolves caller.contract name arguments.length callee)
  | library {library name : String} {arguments : List Operand} {target : Option Variable} {contract : Nat}
      (listed : p.HasInstruction caller (.libraryCall library name arguments target))
      (first : FirstWith p.contracts (fun c => c.name = library) contract)
      (resolves : p.Resolves contract name arguments.length callee)

def CallChain (p : Program) : FnId → FnId → Prop := Relation.ReflTransGen p.Calls

theorem resolveLibrary?_eq_some_iff {library : String} : p.resolveLibrary? library name arity = some id ↔
    ∃ contract, FirstWith p.contracts (fun c => c.name = library) contract ∧ p.Resolves contract name arity id := by
  have first (contract : Nat) : p.contractIndex? library = some contract ↔
      FirstWith p.contracts (fun c => c.name = library) contract := by
    simp [contractIndex?, findIdx?_eq_some_iff_firstWith]
  simp only [resolveLibrary?, ← first]
  cases p.contractIndex? library <;> simp [resolveInternal?_eq_some_iff]

theorem mem_instructionsOf_iff {i : Instruction} : i ∈ p.instructionsOf id ↔ p.HasInstruction id i := by
  unfold instructionsOf HasInstruction
  cases p.function? id <;> simp [Function.instructions]

theorem mem_callees_iff : callee ∈ p.callees caller ↔ p.Calls caller callee := by
  unfold callees
  rw [mem_filterMap]
  constructor
  · rintro ⟨i, listed, enters⟩
    rw [mem_instructionsOf_iff] at listed
    cases i with
    | internalCall function arguments target => exact .internal listed (resolveInternal?_eq_some_iff.mp enters)
    | libraryCall library function arguments target =>
      obtain ⟨contract, first, resolves⟩ := resolveLibrary?_eq_some_iff.mp enters
      exact .library listed first resolves
    | _ => cases enters
  · rintro (⟨listed, resolves⟩ | ⟨listed, first, resolves⟩)
    · exact ⟨_, mem_instructionsOf_iff.mpr listed, resolveInternal?_eq_some_iff.mpr resolves⟩
    · exact ⟨_, mem_instructionsOf_iff.mpr listed, resolveLibrary?_eq_some_iff.mpr ⟨_, first, resolves⟩⟩

theorem mem_reachable_iff : id ∈ p.reachable root ↔ p.CallChain root id := by
  have visited := p.reachable_visited root
  obtain ⟨first, closed⟩ := p.reachable_closed root
  constructor
  · refine visited.lift (fun caller leads id called => ?_) (List.Subset.refl _) (fun id only => ?_) id
    · exact .tail leads (mem_callees_iff.mp called)
    · rw [mem_singleton.mp only]
      exact .refl
  · intro leads
    induction leads with
    | refl => exact first
    | tail _ calls ih => exact closed _ ih _ (mem_callees_iff.mpr calls)

theorem mem_reachableFunctions_iff {f : Function} :
    f ∈ p.reachableFunctions root ↔ ∃ id, p.CallChain root id ∧ p.function? id = some f := by
  simp [reachableFunctions, mem_filterMap, mem_reachable_iff]

theorem mem_gathered_iff (gather : Function → List String) :
    name ∈ (OrdSet.ofList ((p.reachableFunctions root).flatMap gather)).toList ↔
      ∃ id f, p.CallChain root id ∧ p.function? id = some f ∧ name ∈ gather f := by
  rw [OrdSet.mem_ofList, mem_flatMap]
  constructor
  · rintro ⟨f, listed, among⟩
    obtain ⟨id, leads, known⟩ := mem_reachableFunctions_iff.mp listed
    exact ⟨id, f, leads, known, among⟩
  · rintro ⟨id, f, leads, known, among⟩
    exact ⟨f, mem_reachableFunctions_iff.mpr ⟨id, leads, known⟩, among⟩

theorem mem_emittedEvents_iff {f : Function} : name ∈ emittedEvents f ↔
    ∃ node ∈ f.nodes, ∃ arguments, Instruction.eventCall name arguments ∈ node.instructions := by
  unfold emittedEvents Function.instructions
  simp only [mem_filterMap, mem_flatMap]
  constructor
  · rintro ⟨i, ⟨node, among, listed⟩, emits⟩
    cases i with
    | eventCall event arguments =>
      cases emits
      exact ⟨node, among, arguments, listed⟩
    | _ => cases emits
  · rintro ⟨node, among, arguments, listed⟩
    exact ⟨_, ⟨node, among, listed⟩, rfl⟩

/-- The visit comes to its end and lists, the root first and no function twice, what calls lead to; the state and the
events of a function are those of the functions listed. -/
theorem reachable_is_call_closure (p : Program) (root : FnId) :
    p.Visited [root] [root] (p.reachable root) ∧ (p.reachable root).head? = some root ∧ (p.reachable root).Nodup ∧
      (∀ id, id ∈ p.reachable root ↔ p.CallChain root id) ∧
      (∀ name, name ∈ (p.stateVariablesRead root).toList ↔
        ∃ id f, p.CallChain root id ∧ p.function? id = some f ∧ name ∈ f.directReads.toList) ∧
      (∀ name, name ∈ (p.stateVariablesWritten root).toList ↔
        ∃ id f, p.CallChain root id ∧ p.function? id = some f ∧ name ∈ f.directWrites.toList) ∧
      ∀ name, name ∈ (p.eventsEmitted root).toList ↔
        ∃ id f, p.CallChain root id ∧ p.function? id = some f ∧
          ∃ node ∈ f.nodes, ∃ arguments, Instruction.eventCall name arguments ∈ node.instructions := by
  have visited := p.reachable_visited root
  obtain ⟨rest, starts⟩ := visited.extends_seen
  refine ⟨visited, by rw [← starts]; rfl, visited.nodup (nodup_singleton root), fun _ => mem_reachable_iff,
    fun _ => mem_gathered_iff _, fun _ => mem_gathered_iff _, fun name => ?_⟩
  have emits : name ∈ (p.eventsEmitted root).toList ↔ _ := mem_gathered_iff emittedEvents
  simpa only [mem_emittedEvents_iff] using emits

end Program

end TokenAudit
