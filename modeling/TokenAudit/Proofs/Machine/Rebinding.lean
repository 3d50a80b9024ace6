import Mathlib.Logic.Relation
import TokenAudit.Proofs.Machine.Deeds
import TokenAudit.Proofs.Machine.Entries

/-!
# Which variables a step binds

An instruction binds its target, a write through a reference also the variables behind the reference.
-/

namespace TokenAudit

namespace Machine

open Upkeep

variable {M : Machine} {p q : Path} {x : VarId} {value : Value} {deeds : List Performed}

/-- Links lead from the first variable to the second, in any number of steps. -/
def Leads (links : Table VarId IndexLink) : VarId → VarId → Prop :=
  Relation.ReflTransGen fun v w => ∃ link, links.get? v = some link ∧ link.base = w

def declaredIn? (M : Machine) (p : Path) : Option Variable := do
  let loc ← p.location
  let f ← M.program.function? loc.function
  let n ← f.node? loc.node
  if n.kind = .declaration ∧ loc.offset = 0 then n.declared else none

section

variable {O : Option Value → Prop} {entry : String} {C : Table VarId IndexLink → List Frame → Prop} {i : Instruction}
  {S : List Frame → Prop} {loc : Location} {fn : FnId} {f : Function} {n : Node} {ways : List Successor}

/-- The binding of `x` is as `O` says, and links and pending calls as `C` says. -/
def Watches (x : VarId) (O : Option Value → Prop) (entry : String) (C : Table VarId IndexLink → List Frame → Prop)
    (p : Path) : Prop :=
  O (p.bindings.get? x) ∧ p.entryName = entry ∧ C p.links p.stack

def Reads (x : VarId) (O : Option Value → Prop) (entry : String) (v : Variable) : Prop :=
  v.id = x → O none → ∀ p : Path, p.entryName = entry → O (some (symbolFor (p.symbolBase x) v.type))

theorem Watches.read {c : Contract} {v : Variable} (watches : Watches x O entry C p) (reads : Reads x O entry v) :
    Watches x O entry C (p.read c v).2 := by
  obtain ⟨held, named, rest⟩ := watches
  unfold Path.read
  split
  · exact ⟨held, named, rest⟩
  · rename_i unbound
    obtain ⟨log, pinned⟩ := pinInitial_log p c v (symbolFor (p.symbolBase v.id) v.type)
    dsimp only
    rw [pinned]
    refine ⟨?_, named, rest⟩
    simp only [Path.bind, Table.get?_insert]
    split
    · rename_i same
      subst same
      rw [unbound] at held
      exact reads rfl held p named
    · exact held

theorem upkeep_watches {Bound : VarId → Prop} (apart : ∀ v, Bound v → v ≠ x) (sender : Reads x O entry .sender) :
    Upkeep M (Watches x O entry C) (fun _ => True) (fun _ => True) Bound (Reads x O entry) where
  terms := by constructor <;> intros <;> trivial
  pinned _ _ _ := trivial
  value _ _ := Value.all_true _
  assume inv _ := inv
  bind inv free _ := by
    obtain ⟨held, rest⟩ := inv
    refine ⟨?_, rest⟩
    simp only [Path.bind, Table.get?_insert, apart _ free, if_false]
    exact held
  redefine inv free := by
    obtain ⟨held, rest⟩ := inv
    refine ⟨⟨?_, rest⟩, Value.all_true _⟩
    simp only [Path.redefine, Table.get?_insert, apart _ free, if_false]
    exact held
  read inv seen := ⟨inv.read seen, Value.all_true _⟩
  sender := sender
  depend _ _ inv := inv
  mark operand inv _ := by
    obtain ⟨used, log, marked⟩ := markUsedInCheck_log _ operand
    rw [marked]
    exact inv
  noteWrite inv _ count _ := by
    unfold Path.noteWrite
    repeat' split
    all_goals exact inv
  noteEmission inv _ _ := by
    unfold noteEmission
    split <;> exact inv
  defer inv _ _ := inv
  root _ _ inv _ := inv
  result _ inv _ _ := inv

/-- Binding the variable, and what an assignment to it leads to, leaves `x` alone. -/
structure Spares (p : Path) (i : Instruction) (x v : VarId) : Prop where
  other : v ≠ x
  behind : i.assigns = true → ¬ Leads p.links v x

/-- The instruction leaves `x` alone while the pending calls are as `S` says. -/
structure Avoids (M : Machine) (S : List Frame → Prop) (p : Path) (x : VarId) (i : Instruction) : Prop where
  target : ∀ t, i.bound? = some t → Spares p i x t.id
  params : ∀ callee f k t, M.callee? i = some callee → M.program.function? callee = some f →
    f.param? k = some t → t.id ≠ x
  awaits : ∀ values frame rest t, i = .ret values → S (frame :: rest) → frame.target = some t → t.id ≠ x
  waits : ∀ callee stack returnTo, M.callee? i = some callee → S stack → S (⟨returnTo, i.target?⟩ :: stack)

theorem assigns_of_callee {callee : FnId} (calls : M.callee? i = some callee) : i.assigns = false := by
  cases i <;> first | cases calls | rfl

theorem watches_admits (avoids : Avoids M S p x i) (seen : ∀ v ∈ i.sees, Reads x O entry v) :
    Admits M (Watches x O entry fun links stack => (i.assigns = true → links = p.links) ∧ S stack) (fun _ => True)
      (Spares p i x) (Reads x O entry) loc i where
  seen := seen
  free := avoids.target
  linked assigns p' v link inv spares found := by
    have found : p.links.get? v = some link := inv.2.2.1 assigns ▸ found
    have behind : ¬ Leads p.links link.base x := fun leads => spares.behind assigns (.head ⟨link, found, rfl⟩ leads)
    exact ⟨⟨fun same => behind (same ▸ .refl), fun _ => behind⟩, trivial, trivial⟩
  awaits values returns p' frame rest t inv stack waits := by
    have pending : S (frame :: rest) := stack ▸ inv.2.2.2
    refine ⟨avoids.awaits values frame rest t returns pending waits, fun assigns => ?_⟩
    rw [returns] at assigns
    cases assigns
  relinks target base key indexes := by
    have kept {p' : Path} (links : Table VarId IndexLink)
        (inv : Watches x O entry (fun links stack => (i.assigns = true → links = p.links) ∧ S stack) p') :
        Watches x O entry (fun links stack => (i.assigns = true → links = p.links) ∧ S stack)
          { p' with links := links } := by
      refine ⟨inv.1, inv.2.1, fun assigns => ?_, inv.2.2.2⟩
      rw [indexes] at assigns
      cases assigns
    exact ⟨fun inv _ _ => kept _ inv, fun inv => kept _ inv, fun _ _ => trivial⟩
  notes destination callee arguments target calls p' receiver inv := by
    unfold noteCall
    dsimp only
    split <;> exact inv
  enters callee f calls known := by
    refine ⟨⟨id, fun inv => ⟨inv.1, inv.2.1, inv.2.2.1, avoids.waits callee _ _ calls inv.2.2.2⟩⟩, ?_⟩
    intro k param found
    refine ⟨avoids.params callee f k param calls known found, fun assigns => ?_⟩
    rw [assigns_of_callee calls] at assigns
    cases assigns

theorem exec_watches {result : Option (List Successor)} (avoids : Avoids M S p x i)
    (seen : ∀ v ∈ i.sees, Reads x O p.entryName v) (sender : Reads x O p.entryName .sender)
    (runs : Runs (M.exec loc i) p result q) (held : O (p.bindings.get? x)) (pending : S p.stack) :
    O (q.bindings.get? x) ∧ q.entryName = p.entryName ∧ S q.stack := by
  have K : Upkeep M (Watches x O p.entryName fun links stack => (i.assigns = true → links = p.links) ∧ S stack)
      (fun _ => True) (fun _ => True) (Spares p i x) _ := upkeep_watches (fun _ spares => spares.other) sender
  obtain ⟨held, named, _, pending⟩ :=
    ((K.keeps_exec (watches_admits avoids seen)).ends ⟨held, rfl, fun _ => rfl, pending⟩ runs).1
  exact ⟨held, named, pending⟩

theorem chain_watches (avoids : ∀ d ∈ deeds, Avoids M S d.before x d.instruction)
    (seen : ∀ d ∈ deeds, ∀ v ∈ d.instruction.sees, Reads x O entry v) (sender : Reads x O entry .sender)
    (chain : Chain M deeds p q) (named : p.entryName = entry) (held : O (p.bindings.get? x)) (pending : S p.stack) :
    O (q.bindings.get? x) ∧ q.entryName = entry ∧ S q.stack := by
  induction chain with
  | done p => exact ⟨held, named, pending⟩
  | deed runs rest ih =>
    obtain ⟨avoids, later⟩ := List.forall_mem_cons.mp avoids
    obtain ⟨here, seen⟩ := List.forall_mem_cons.mp seen
    subst named
    obtain ⟨held, named, pending⟩ := exec_watches avoids here sender runs held pending
    exact ih later seen named held pending

theorem leave_stack (runs : Runs (M.leave fn f n) p ways q) :
    q.stack = p.stack ∨ ∃ frame, p.stack = frame :: q.stack := by
  cases leave_left runs with
  | forked cond whenTrue whenFalse counts changes => exact .inl changes.stack
  | fannedOut branching unconditional | passedOn son => exact .inl rfl
  | returned stack => exact .inr ⟨_, stack⟩
  | finished => exact .inl rfl

theorem declareAt_watches {opened : Path} (sender : Reads x O p.entryName .sender)
    (undeclared : ∀ v, M.declaredIn? p = some v → v.id ≠ x) (located : p.location = some loc)
    (known : M.program.function? loc.function = some f) (found : f.node? loc.node = some n)
    (declares : opened = counted p ∨ ∃ u, Runs (declareAt n loc.offset) (counted p) u opened)
    (held : O (p.bindings.get? x)) (fits : C p.links p.stack) : Watches x O p.entryName C opened := by
  have start : Watches x O p.entryName C (counted p) := ⟨held, rfl, fits⟩
  rcases declares with rfl | ⟨u, declares⟩
  · exact start
  · have K : Upkeep M (Watches x O p.entryName C) (fun _ => True) (fun _ => True) (· ≠ x) _ :=
      upkeep_watches (fun _ => id) sender
    have free (v : Variable) (declared : n.declared = some v) (declaration : n.kind = .declaration)
        (first : loc.offset = 0) : v.id ≠ x := by
      refine undeclared v ?_
      simp [declaredIn?, located, known, found, declaration, first, declared]
    exact ((K.operates.declared free).ends start declares).1

theorem leave_watches (sender : Reads x O p.entryName .sender) (leaves : p = q ∨ Runs (M.leave fn f n) p ways q)
    (held : O (p.bindings.get? x)) :
    (O (q.bindings.get? x) ∧ q.entryName = p.entryName) ∧
      (q.stack = p.stack ∨ ∃ frame, p.stack = frame :: q.stack) := by
  rcases leaves with rfl | leaves
  · exact ⟨⟨held, rfl⟩, .inl rfl⟩
  · have K : Upkeep M (Watches x O p.entryName fun _ _ => True) (fun _ => True) (fun _ => True) (· ≠ x) _ :=
      upkeep_watches (fun _ => id) sender
    have keeps := K.operates.leave trivial ⟨fun _ => id, fun inv _ => inv⟩ fn f n
    obtain ⟨held, named, _⟩ := (keeps.ends ⟨held, rfl, trivial⟩ leaves).1
    exact ⟨⟨held, named⟩, leave_stack leaves⟩

/-- A step whose instructions leave a variable alone, and that does not declare it, keeps its binding up to a
first reading; on leaving its node it gives up at most one pending call. -/
theorem step_watches (undeclared : ∀ v, M.declaredIn? p = some v → v.id ≠ x)
    (avoids : ∀ d ∈ M.performedIn p, Avoids M S d.before x d.instruction)
    (seen : ∀ d ∈ M.performedIn p, ∀ v ∈ d.instruction.sees, Reads x O p.entryName v)
    (sender : Reads x O p.entryName .sender) (runs : Runs M.step p ways q) (held : O (p.bindings.get? x))
    (pending : S p.stack) :
    (O (q.bindings.get? x) ∧ q.entryName = p.entryName) ∧ ∃ stack, S stack ∧
      (q.stack = stack ∨ ∃ frame, stack = frame :: q.stack) := by
  cases step_stepped runs with
  | through located known found declares performs leaves =>
    obtain ⟨held, named, pending⟩ :=
      declareAt_watches (C := fun _ stack => S stack) sender undeclared located known found declares held pending
    obtain ⟨held, named, pending⟩ := chain_watches avoids seen sender performs named held pending
    rw [← named] at sender
    obtain ⟨⟨held, same⟩, stack⟩ := leave_watches sender leaves held
    exact ⟨⟨held, same.trans named⟩, _, pending, stack⟩

end

inductive Binds (M : Machine) (p : Path) (x : VarId) (i : Instruction) : Prop
  | target {t : Variable} (bound : i.bound? = some t) (same : t.id = x)
  | through {t : Variable} (bound : i.bound? = some t) (assigns : i.assigns = true) (leads : Leads p.links t.id x)
  | parameter {callee : FnId} {f : Function} {k : Nat} {t : Variable} (calls : M.callee? i = some callee)
      (known : M.program.function? callee = some f) (param : f.param? k = some t) (same : t.id = x)
  | result {values : List Operand} {frame : Frame} {rest : List Frame} {t : Variable} (returns : i = .ret values)
      (stack : p.stack = frame :: rest) (waits : frame.target = some t) (same : t.id = x)

def BindsIn (M : Machine) (p : Path) (x : VarId) : Prop :=
  (∃ v, M.declaredIn? p = some v ∧ v.id = x) ∨ ∃ d ∈ M.performedIn p, M.Binds d.before x d.instruction

theorem avoids_of_unbound {i : Instruction} (unbound : ¬ M.Binds p x i) :
    Avoids M (fun stack => ∀ values, i = .ret values → stack = p.stack) p x i where
  target t bound :=
    ⟨fun same => unbound (.target bound same), fun assigns leads => unbound (.through bound assigns leads)⟩
  params callee f k t calls known param same := unbound (.parameter calls known param same)
  awaits values frame rest t returns pending waits same :=
    unbound (.result returns (pending values returns).symm waits same)
  waits callee stack returnTo calls pending values returns := by
    subst returns
    cases calls

theorem reads_bound (value : Value) (entry : String) (v : Variable) : Reads x (· = some value) entry v :=
  nofun

theorem chain_keeps (unbound : ∀ d ∈ deeds, ¬ M.Binds d.before x d.instruction)
    (chain : Chain M deeds p q) (held : p.bindings.get? x = some value) : q.bindings.get? x = some value := by
  induction chain with
  | done p => exact held
  | deed runs rest ih =>
    obtain ⟨free, later⟩ := List.forall_mem_cons.mp unbound
    have kept := exec_watches (avoids_of_unbound free) (fun v _ => reads_bound value _ v) (reads_bound value _ _)
      runs held fun _ _ => rfl
    exact ih later kept.1

theorem step_keeps {ways : List Successor} (unbound : ¬ M.BindsIn p x) (runs : Runs M.step p ways q)
    (held : p.bindings.get? x = some value) : q.bindings.get? x = some value := by
  cases step_stepped runs with
  | through located known found declares performs leaves =>
    have opens := declareAt_watches (C := fun _ _ => True) (reads_bound value _ _)
      (fun v declared same => unbound (.inl ⟨v, declared, same⟩)) located known found declares held trivial
    have performed := chain_keeps (fun d member binds => unbound (.inr ⟨d, member, binds⟩)) performs opens.1
    exact (leave_watches (reads_bound value _ _) leaves performed).1.1

end Machine

end TokenAudit
