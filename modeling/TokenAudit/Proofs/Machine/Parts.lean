import Mathlib.Logic.Relation
import TokenAudit.Proofs.Machine.Framing

/-!
# Changes of a path

`Change` lists the things that an instruction can do to a path.  Its log, its values and the notes on what depends on
what are open to every instruction, the other parts of a path only to some:
-/

namespace TokenAudit

open TokenAudit.Path

def Path.record (p : Path) : Path := { p with bindings := .empty, constraints := .empty }

inductive Part where
  | checks
  | writes
  | calls
  | events
  | references
  | result
  deriving DecidableEq

def Instruction.touches : Instruction → List Part
  | .builtinCall _ _ _ => [.checks]
  | .assignment _ _ => [.writes]
  | .binary _ _ _ _ _ => [.writes]
  | .delete _ _ => [.writes]
  | .internalCall _ _ _ => [.calls]
  | .libraryCall _ _ _ _ => [.calls]
  | .highLevelCall _ _ _ _ => [.calls]
  | .eventCall _ _ => [.events]
  | .index _ _ _ => [.references]
  | .member _ _ _ => [.references]
  | .ret _ => [.result]
  | _ => []

namespace Machine

variable {p q : Path} {L : Part → Prop}

inductive Change (K : Part → Prop) : Path → Path → Prop
  | assume (p : Path) (t : Term) : Change K p (p.assume t)
  | bind (p : Path) (v : VarId) (value : Value) : Change K p (p.bind v value)
  | redefine (p : Path) (v : Variable) : Change K p (p.redefine v).2
  | depend (p : Path) (definedBy aliases : Table VarId (List VarId)) :
      Change K p { p with definedBy := definedBy, aliases := aliases }
  | check (p : Path) (used : List VarId) (touched : K .checks) : Change K p { p with usedInCheck := used }
  | write (p : Path) (written : OrdSet Nat) (counts : Table Nat Nat) (touched : K .writes) :
      Change K p { p with varsWritten := written, writeCounts := counts }
  | call (p : Path) (functions : OrdSet String) (calls : OrdSet CallOn) (counts : Table String Nat)
      (touched : K .calls) :
      Change K p { p with calledFunctions := functions, calledOn := calls, callCounts := counts }
  | defer (p : Path) (t : Term) (touched : K .calls) : Change K p { p with deferred := p.deferred ++ [t] }
  | emit (p : Path) (emitted : OrdSet Nat) (counts : Table Nat Nat) (touched : K .events) :
      Change K p { p with eventsEmitted := emitted, emitCounts := counts }
  | root (p : Path) (v : VarId) (root : Variable) (touched : K .references) :
      Change K p { p with roots := p.roots.insert v root }
  | link (p : Path) (v : VarId) (link : IndexLink) (touched : K .references) :
      Change K p { p with links := p.links.insert v link }
  | unlink (p : Path) (v : VarId) (touched : K .references) : Change K p { p with links := p.links.erase v }
  | result (p : Path) (slot : Returned) (touched : K .result) : Change K p { p with returned := some slot }

def Changes (K : Part → Prop) : Path → Path → Prop := Relation.ReflTransGen (Change K)

variable {K : Part → Prop}

instance : Std.Refl (Changes K) := ⟨fun _ => .refl⟩

instance : Trans (Changes K) (Changes K) (Changes K) := ⟨Relation.ReflTransGen.trans⟩

theorem Change.changes (change : Change K p q) : Changes K p q := .single change

theorem Changes.lift {R : Path → Path → Prop} [Std.Refl R] [Trans R R R] (holds : ∀ p q, Change K p q → R p q)
    (changes : Changes K p q) : R p q :=
  Relation.reflTransGen_le_of_le holds p q changes

theorem Change.mono (weaker : ∀ part, K part → L part) (change : Change K p q) : Change L p q := by
  cases change with
  | assume t => exact .assume p t
  | bind v value => exact .bind p v value
  | redefine v => exact .redefine p v
  | depend definedBy aliases => exact .depend p definedBy aliases
  | check used touched => exact .check p used (weaker _ touched)
  | write written counts touched => exact .write p written counts (weaker _ touched)
  | call functions calls counts touched => exact .call p functions calls counts (weaker _ touched)
  | defer t touched => exact .defer p t (weaker _ touched)
  | emit emitted counts touched => exact .emit p emitted counts (weaker _ touched)
  | root v root touched => exact .root p v root (weaker _ touched)
  | link v link touched => exact .link p v link (weaker _ touched)
  | unlink v touched => exact .unlink p v (weaker _ touched)
  | result slot touched => exact .result p slot (weaker _ touched)

theorem Changes.mono (weaker : ∀ part, K part → L part) (changes : Changes K p q) : Changes L p q :=
  Relation.ReflTransGen.mono (fun _ _ => Change.mono weaker) p q changes

theorem Changes.varsWritten (untouched : ¬ K .writes) (changes : Changes K p q) : q.varsWritten = p.varsWritten := by
  induction changes with
  | refl => rfl
  | tail _ last ih =>
    rw [← ih]
    cases last with
    | write written counts touched => exact absurd touched untouched
    | _ => rfl

theorem Changes.roots (untouched : ¬ K .references) (changes : Changes K p q) : q.roots = p.roots := by
  induction changes with
  | refl => rfl
  | tail _ last ih =>
    rw [← ih]
    cases last with
    | root v root touched => exact absurd touched untouched
    | _ => rfl

variable (p) (id i : Nat) (c : Contract) (v : Variable) (value : Value) (o : Operand)

theorem pinInitial_cases : p.pinInitial c v value = p ∨
      ∃ a k t, value = .term a ∧ Term.mkEq a (Constant.term k) = .ok t ∧ p.pinInitial c v value = p.assume t := by
  unfold pinInitial
  split
  · split
    · split
      · rename_i built
        exact .inr ⟨_, _, _, rfl, built, rfl⟩
      · exact .inl rfl
    · exact .inl rfl
  · exact .inl rfl

theorem pinInitial_log : ∃ log, p.pinInitial c v value = { p with constraints := log } := by
  rcases pinInitial_cases p c v value with same | ⟨_, _, t, _, _, pinned⟩
  · exact ⟨p.constraints, same⟩
  · exact ⟨_, pinned⟩

theorem pinInitial_changes : Changes K p (p.pinInitial c v value) := by
  rcases pinInitial_cases p c v value with same | ⟨_, _, t, _, _, pinned⟩
  · rw [same]
    exact .refl
  · rw [pinned]
    exact (Change.assume p t).changes

theorem read_record : (p.read c v).2.record = p.record := by
  unfold Path.read
  split
  · rfl
  · obtain ⟨log, pinned⟩ := pinInitial_log p c v (symbolFor (p.symbolBase v.id) v.type)
    dsimp only
    rw [pinned]
    rfl

theorem path_read_changes : Changes K p (p.read c v).2 := by
  unfold Path.read
  split
  · exact .refl
  · exact (pinInitial_changes p c v _).tail (.bind _ _ _)

theorem markUsed_changes (touched : K .checks) (v : VarId) : Changes K p (p.markUsed v) := by
  unfold markUsed
  split
  · exact .tail (.single (.check p _ touched)) (.assume _ _)
  · exact .refl

theorem noteWrite_changes (touched : K .writes) (i : Nat) (name : String) (count : Bool) :
    Changes K p (p.noteWrite i name count) := by
  have written : Changes K p (if p.varsWritten.contains i then p
      else { p with varsWritten := p.varsWritten.insert i }.assume (Fact.written name).term) := by
    split
    · exact .refl
    · exact .tail (.single (.write p _ _ touched)) (.assume _ _)
  unfold noteWrite
  dsimp only
  split
  · exact written.tail (.write _ _ _ touched)
  · exact written

theorem markUsedInCheck_changes (touched : K .checks) (o : Operand) : Changes K p (p.markUsedInCheck o) := by
  have marked (vars : List VarId) : ∀ p : Path, Changes K p (vars.foldl markUsed p) := by
    induction vars with
    | nil => exact fun _ => .refl
    | cons v rest ih => exact fun p => (markUsed_changes p touched v).trans (ih _)
  cases o with
  | const k => exact .refl
  | var v => exact marked _ p

theorem markUsedInCheck_log : ∃ used log, p.markUsedInCheck o = { p with usedInCheck := used, constraints := log } := by
  have marked (vars : List VarId) :
      ∀ p : Path, ∃ used log, vars.foldl markUsed p = { p with usedInCheck := used, constraints := log } := by
    induction vars with
    | nil => exact fun p => ⟨p.usedInCheck, p.constraints, rfl⟩
    | cons v rest ih =>
      intro p
      obtain ⟨used, log, later⟩ := ih (p.markUsed v)
      rw [List.foldl_cons, later]
      unfold markUsed
      split <;> exact ⟨used, log, rfl⟩
  cases o with
  | const k => exact ⟨p.usedInCheck, p.constraints, rfl⟩
  | var v => exact marked _ p

theorem noteCall_changes (touched : K .calls) (receiver name : String) : Changes K p (noteCall p receiver name).2 := by
  have called : Change K p _ := .assume p (Fact.called receiver name).term
  unfold noteCall
  dsimp only
  split
  · exact .tail (.tail (.single called) (.call _ _ _ _ touched)) (.assume _ _)
  · exact .tail (.single called) (.call _ _ _ _ touched)

theorem noteEmission_changes (touched : K .events) (i : Nat) (name : String) :
    Changes K p (noteEmission p i name).2 := by
  unfold noteEmission
  split
  · exact .single (.emit p _ _ touched)
  · exact .tail (.tail (.single (.emit p _ _ touched)) (.assume _ _)) (.emit _ _ _ touched)

theorem pinInitial_fork : (p.fork id).pinInitial c v value = (p.pinInitial c v value).fork id := by
  unfold pinInitial
  split
  · split
    · split <;> rfl
    · rfl
  · rfl

theorem read_fork : (p.fork id).read c v = ((p.read c v).1, (p.read c v).2.fork id) := by
  have unread : (p.fork id).bindings.get? v.id = p.bindings.get? v.id := rfl
  unfold Path.read
  rw [unread]
  cases p.bindings.get? v.id with
  | some value => rfl
  | none => exact Prod.ext rfl (congrArg (Path.bind · v.id _) (pinInitial_fork p id c v _))

theorem assumeUnsigned_fork (type : ContractType) :
    (p.fork id).assumeUnsigned value type = (p.assumeUnsigned value type).fork id := by
  unfold assumeUnsigned
  split
  · split
    · split <;> rfl
    · rfl
  · rfl

theorem markUsed_fork (v : VarId) : (p.fork id).markUsed v = (p.markUsed v).fork id := by
  unfold markUsed
  show (if v ∈ p.checkTracked ∧ v ∉ p.usedInCheck then _ else _) = _
  split <;> rfl

theorem markUsedInCheck_fork : (p.fork id).markUsedInCheck o = (p.markUsedInCheck o).fork id := by
  have marked (vars : List VarId) :
      ∀ p : Path, vars.foldl markUsed (p.fork id) = (vars.foldl markUsed p).fork id := by
    induction vars with
    | nil => exact fun _ => rfl
    | cons v rest ih =>
      intro p
      rw [List.foldl_cons, List.foldl_cons, markUsed_fork, ih]
  cases o with
  | const k => rfl
  | var v => exact marked (p.dependencyClosure v.id) p

theorem noteWrite_fork (name : String) (count : Bool) :
    (p.fork id).noteWrite i name count = (p.noteWrite i name count).fork id := by
  have unread : (p.fork id).varsWritten.contains i = p.varsWritten.contains i := rfl
  unfold noteWrite
  rw [unread]
  cases p.varsWritten.contains i <;> cases count <;> rfl

theorem noteCall_fork (receiver name : String) :
    noteCall (p.fork id) receiver name = ((noteCall p receiver name).1, (noteCall p receiver name).2.fork id) := by
  refine Prod.ext rfl ?_
  show (if p.returnsTracked.contains name then _ else _) =
    fork (if p.returnsTracked.contains name then _ else _) id
  cases p.returnsTracked.contains name <;> rfl

theorem noteEmission_fork (name : String) :
    noteEmission (p.fork id) i name = ((noteEmission p i name).1, (noteEmission p i name).2.fork id) := by
  have unread : (p.fork id).eventsEmitted.contains i = p.eventsEmitted.contains i := rfl
  unfold noteEmission
  rw [unread]
  cases p.eventsEmitted.contains i <;> rfl

end Machine

end TokenAudit
