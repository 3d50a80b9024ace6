import TokenAudit.Proofs.Machine.Rebinding

/-!
# Calls and the variables of their callers

The scope of a variable carries the name of its function, not its place.
-/

namespace TokenAudit

open List

variable {f : Function} {v : Variable}

def Variable.Within (name : String) (v : Variable) : Prop := ∀ f ∈ v.scope.function?, f = name

instance (name : String) (v : Variable) : Decidable (v.Within name) :=
  inferInstanceAs (Decidable (∀ f ∈ v.scope.function?, f = name))

def Function.SelfContained (f : Function) : Prop :=
  ∀ n ∈ f.nodes, (∀ v ∈ n.declared, v.Within f.name) ∧
    ∀ i ∈ n.instructions, (∀ v ∈ i.bound?, v.Within f.name) ∧ ∀ v ∈ i.sees, v.Within f.name

instance (f : Function) : Decidable f.SelfContained :=
  inferInstanceAs (Decidable (∀ n ∈ f.nodes, (∀ v ∈ n.declared, v.Within f.name) ∧
    ∀ i ∈ n.instructions, (∀ v ∈ i.bound?, v.Within f.name) ∧ ∀ v ∈ i.sees, v.Within f.name))

def Program.SelfContained (program : Program) : Prop := ∀ c ∈ program.contracts, ∀ f ∈ c.functions, f.SelfContained

instance (program : Program) : Decidable program.SelfContained :=
  inferInstanceAs (Decidable (∀ c ∈ program.contracts, ∀ f ∈ c.functions, f.SelfContained))

theorem Program.SelfContained.function {program : Program} (contained : program.SelfContained) {id : FnId}
    (known : program.function? id = some f) : f.SelfContained := by
  unfold Program.function? at known
  split at known
  · rename_i c listed
    exact contained c (mem_of_getElem? listed) f (mem_of_getElem? known)
  · cases known

theorem Variable.Within.id_ne {name other : String} {x : VarId} (within : v.Within name)
    (own : x.scope.function? = some other) (differ : name ≠ other) : v.id ≠ x := by
  rintro rfl
  exact differ (within other own).symm

theorem Function.param_within {k : Nat} (param : f.param? k = some v) : v.Within f.name := by
  obtain ⟨_, _, rfl⟩ := Option.map_eq_some_iff.mp param
  intro g same
  exact (Option.some.inj same).symm

namespace Machine

variable {M : Machine} {p q r s : Path} {x : VarId} {i : Instruction} {callee : FnId} {loc : Location}
  {ways : List Successor} {d : Performed} {name : String} {base : List Frame} {O : Option Value → Prop}

theorem call_enters (calls : M.callee? i = some callee) (runs : Runs (M.exec loc i) p (some ways) q) :
    ∃ f, M.program.function? callee = some f ∧ ways = [.goto (.start callee f.entry) none] ∧
      q.stack = ⟨loc.next, i.target?⟩ :: p.stack := by
  rw [exec_call calls] at runs
  unfold enter at runs
  split at runs
  · exact (runs_throw runs).elim
  · rename_i f known
    have goes {r : Path} (same : r.stack = p.stack) (runs : Runs (if f.nodes.isEmpty then pure none else do
        modify fun p => { p with stack := ⟨loc.next, i.target?⟩ :: p.stack }
        pure (some [.goto (.start callee f.entry) none]) : StepM (Option (List Successor))) r (some ways) q) :
        ways = [.goto (.start callee f.entry) none] ∧
          q.stack = ⟨loc.next, i.target?⟩ :: p.stack := by
      split at runs
      · cases (runs_pure.mp runs).1
      · obtain ⟨_, s, pushes, ends⟩ := runs.of_bind
        obtain ⟨gone, rfl⟩ := runs_pure.mp ends
        rw [← runs_modify.mp pushes]
        exact ⟨(Option.some.inj gone).symm, congrArg (List.cons _) same⟩
    obtain ⟨_, r, visits, runs⟩ := runs.of_bind
    obtain ⟨_, s, passes, runs⟩ := runs.of_bind
    have same : s.stack = p.stack := by
      have passed := ((changing (K := fun _ => False)).operates.passArguments _ (fun _ _ _ => trivial)
        (fun _ _ => trivial) |>.1 passes).stack
      rw [passed, ← runs_modify.mp visits]
    cases target : i.target? with
    | none =>
      rw [target] at runs goes
      exact ⟨f, known, goes same runs⟩
    | some t =>
      rw [target] at runs goes
      obtain ⟨_, u, defines, runs⟩ := runs.of_bind
      have same : u.stack = p.stack := (redefine_changes (K := fun _ => False) t defines).stack.trans same
      exact ⟨f, known, goes same runs⟩

inductive Serves (M : Machine) (depth : Nat) : List Path → Path → Path → Prop
  | here (p : Path) : Serves M depth [] p p
  | step {p q r : Path} {ways : List Successor} {way : Successor} {visited : List Path}
      (deeper : depth < p.stack.length) (runs : Runs M.step p ways q) (among : way ∈ ways)
      (later : Serves M depth visited (q.go way) r) : Serves M depth (p :: visited) p r

/-- The step from the path is one of a function of that name, or calls one. -/
def Involves (M : Machine) (p : Path) (name : String) : Prop :=
  (∃ f, M.running? p = some f ∧ f.name = name) ∨
    ∃ d ∈ M.performedIn p, ∃ callee f, M.callee? d.instruction = some callee ∧
      M.program.function? callee = some f ∧ f.name = name

/-- The step from the path writes through references that lead to the variable. -/
def Threads (M : Machine) (p : Path) (x : VarId) : Prop :=
  ∃ d ∈ M.performedIn p, ∃ t, d.instruction.bound? = some t ∧ d.instruction.assigns = true ∧
    Leads d.before.links t.id x

/-- Above the frames `base` some callers wait, none of them for a value of `x`. -/
def Above (base : List Frame) (x : VarId) (stack : List Frame) : Prop :=
  ∃ above, above ≠ [] ∧ stack = above ++ base ∧ ∀ frame ∈ above, ∀ t, frame.target = some t → t.id ≠ x

theorem performedIn_mem (performed : d ∈ M.performedIn p) :
    ∃ f, M.running? p = some f ∧ ∃ n ∈ f.nodes, d.instruction ∈ n.instructions := by
  obtain ⟨loc, f, n, _, _, located, known, node, _, performed⟩ := performedIn_cases performed
  exact ⟨f, by simp [running?, located, known], n, mem_of_getElem? node,
    mem_of_mem_drop (performedFrom_runs performed).1⟩

theorem running_known (running : M.running? p = some f) : ∃ id, M.program.function? id = some f := by
  obtain ⟨loc, _, known⟩ := Option.bind_eq_some_iff.mp running
  exact ⟨loc.function, known⟩

section

variable (contained : M.program.SelfContained)

include contained

theorem declaredIn_within (declared : M.declaredIn? p = some v) : ∃ f, M.running? p = some f ∧ v.Within f.name := by
  simp only [declaredIn?, Option.bind_eq_bind, Option.bind_eq_some_iff] at declared
  obtain ⟨loc, located, f, known, n, node, declared⟩ := declared
  split at declared
  · refine ⟨f, by simp [running?, located, known], ?_⟩
    exact (contained.function known n (mem_of_getElem? node)).1 v declared
  · cases declared

theorem deed_avoids (own : x.scope.function? = some name)
    (apart : ¬ M.Involves p name) (direct : ¬ M.Threads p x) (performed : d ∈ M.performedIn p) :
    Avoids M (Above base x) d.before x d.instruction ∧ ∀ v ∈ d.instruction.sees, v.id ≠ x := by
  obtain ⟨f, running, n, node, listed⟩ := performedIn_mem performed
  obtain ⟨id, known⟩ := running_known running
  obtain ⟨targets, sees⟩ := (contained.function known n node).2 _ listed
  have differ : f.name ≠ name := fun same => apart (.inl ⟨f, running, same⟩)
  have target (t : Variable) (bound : d.instruction.bound? = some t) : t.id ≠ x :=
    (targets t bound).id_ne own differ
  refine ⟨⟨fun t bound => ⟨target t bound, fun assigns leads => ?_⟩, ?_, ?_, ?_⟩, fun v seen => ?_⟩
  · exact direct ⟨d, performed, t, bound, assigns, leads⟩
  · intro callee g k t calls known param
    refine (Function.param_within param).id_ne own fun same => ?_
    exact apart (.inr ⟨d, performed, callee, g, calls, known, same⟩)
  · rintro values frame rest t returns ⟨above, some_above, stack, kept⟩ waits
    obtain ⟨first, others, rfl⟩ := exists_cons_of_ne_nil some_above
    cases stack
    exact kept frame (mem_cons_self ..) t waits
  · rintro callee stack returnTo calls ⟨above, some_above, rfl, kept⟩
    refine ⟨⟨returnTo, d.instruction.target?⟩ :: above, cons_ne_nil _ _, rfl, ?_⟩
    intro frame member t waits
    rcases mem_cons.mp member with rfl | later
    · refine target t ?_
      cases i : d.instruction <;> rw [i] at calls waits <;> first | cases calls | exact waits
    · exact kept frame later t waits
  · exact (sees v seen).id_ne own differ

theorem step_isolated (own : x.scope.function? = some name) (apart : ¬ M.Involves p name) (direct : ¬ M.Threads p x)
    (runs : Runs M.step p ways q) (held : O (p.bindings.get? x)) (above : Above base x p.stack) :
    (O (q.bindings.get? x) ∧ q.entryName = p.entryName) ∧ (Above base x q.stack ∨ q.stack = base) := by
  have undeclared (v : Variable) (declared : M.declaredIn? p = some v) : v.id ≠ x := by
    obtain ⟨f, running, within⟩ := declaredIn_within contained declared
    exact within.id_ne own fun same => apart (.inl ⟨f, running, same⟩)
  have avoids (d : Performed) (performed : d ∈ M.performedIn p) :
      Avoids M (Above base x) d.before x d.instruction ∧ ∀ v ∈ d.instruction.sees, v.id ≠ x :=
    deed_avoids contained own apart direct performed
  have sender : Reads x O p.entryName .sender := by
    rintro rfl
    cases own
  obtain ⟨kept, stack, ⟨waiting, some_waiting, rfl, spared⟩, pops⟩ := step_watches undeclared
    (fun d performed => (avoids d performed).1)
    (fun d performed v seen same => absurd same ((avoids d performed).2 v seen)) sender runs held above
  refine ⟨kept, ?_⟩
  rcases pops with same | ⟨frame, popped⟩
  · exact .inl ⟨waiting, some_waiting, same, spared⟩
  · obtain ⟨first, others, rfl⟩ := exists_cons_of_ne_nil some_waiting
    have rest : others ++ base = q.stack := (List.cons.inj popped).2
    cases others with
    | nil => exact .inr rest.symm
    | cons second others =>
      exact .inl ⟨second :: others, cons_ne_nil _ _, rest.symm,
        fun frame later => spared frame (mem_cons_of_mem _ later)⟩

theorem serves_isolated (own : x.scope.function? = some name)
    {visited : List Path} (serves : Serves M base.length visited p q) (apart : ∀ s ∈ visited, ¬ M.Involves s name)
    (direct : ∀ s ∈ visited, ¬ M.Threads s x) (held : O (p.bindings.get? x))
    (stack : Above base x p.stack ∨ p.stack = base) : O (q.bindings.get? x) := by
  induction serves with
  | here p => exact held
  | @step p q r ways way visited deeper runs among later ih =>
    obtain ⟨apart, apartLater⟩ := forall_mem_cons.mp apart
    obtain ⟨direct, directLater⟩ := forall_mem_cons.mp direct
    have above : Above base x p.stack := stack.resolve_right fun same => by
      rw [same] at deeper
      exact Nat.lt_irrefl _ deeper
    obtain ⟨⟨held, _⟩, stack⟩ := step_isolated contained own apart direct runs held above
    exact ih apartLater directLater (by rwa [Path.go_eq]) (by rwa [Path.go_eq])

end

theorem call_avoids {g : Function} (calls : M.callee? i = some callee) (known : M.program.function? callee = some g)
    (differ : g.name ≠ name) (own : x.scope.function? = some name) (target : ¬ ∃ t, i.target? = some t ∧ t.id = x) :
    Avoids M (fun stack => Above base x stack ∨ stack = base) p x i := by
  have bound : i.bound? = i.target? := by
    cases i <;> first | rfl | cases calls
  have assigns := assigns_of_callee calls
  refine ⟨fun t found => ⟨fun same => target ⟨t, bound ▸ found, same⟩, fun assigned => ?_⟩, ?_, ?_, ?_⟩
  · rw [assigns] at assigned
    cases assigned
  · intro callee' g' k t calls' known' param
    cases calls.symm.trans calls'
    cases known.symm.trans known'
    exact (Function.param_within param).id_ne own differ
  · rintro values frame rest t rfl
    cases calls
  · intro _ stack returnTo _ pending
    have here (t : Variable) (waits : i.target? = some t) : t.id ≠ x := fun same => target ⟨t, waits, same⟩
    rcases pending with ⟨above, _, rfl, kept⟩ | rfl
    · refine .inl ⟨⟨returnTo, i.target?⟩ :: above, cons_ne_nil _ _, rfl, ?_⟩
      exact forall_mem_cons.mpr ⟨here, kept⟩
    · exact .inl ⟨[⟨returnTo, i.target?⟩], cons_ne_nil _ _, rfl, forall_mem_singleton.mpr here⟩

/-- In a program whose functions keep to their own variables, a call that has returned leaves the variables of every
function none of whose namesakes was involved. -/
theorem call_spares_other_names (contained : M.program.SelfContained) {loc : Location} {i : Instruction}
    {callee : FnId} {ways : List Successor} {way : Successor} {visited : List Path}
    (calls : M.callee? i = some callee) (enters : Runs (M.exec loc i) p (some ways) r) (among : way ∈ ways)
    (serves : Serves M p.stack.length visited (r.go way) q) (returned : q.stack = p.stack) {f : Function}
    (apart : ∀ s ∈ visited, ¬ M.Involves s f.name) (own : x.scope.function? = some f.name) :
    q.bindings.get? x = p.bindings.get? x ∨
      (∃ t, i.target? = some t ∧ t.id = x) ∨ (∃ s ∈ visited, M.Threads s x) ∨
      (p.bindings.get? x = none ∧ ∃ v ∈ i.sees, v.id = x ∧
        q.bindings.get? x = some (symbolFor (p.symbolBase x) v.type)) := by
  obtain ⟨g, known, gone, stack⟩ := call_enters calls enters
  rw [gone] at among
  cases mem_singleton.mp among
  -- the callee has another name, for the run goes through it
  have differ : g.name ≠ f.name := by
    cases serves with
    | here =>
      have longer := congrArg List.length (stack.symm.trans returned)
      simp at longer
    | step deeper runs member later =>
      intro same
      refine apart _ (mem_cons_self ..) (.inl ⟨g, ?_, same⟩)
      simp [running?, Path.go, Successor.next?, Location.start, known]
  by_cases targeted : ∃ t, i.target? = some t ∧ t.id = x
  · exact .inr (.inl targeted)
  by_cases threaded : ∃ s ∈ visited, M.Threads s x
  · exact .inr (.inr (.inl threaded))
  -- what the variable may be bound to from the call on
  let O (now : Option Value) : Prop := now = p.bindings.get? x ∨
    (p.bindings.get? x = none ∧ ∃ v ∈ i.sees, v.id = x ∧ now = some (symbolFor (p.symbolBase x) v.type))
  have reads (v : Variable) (seen : v ∈ i.sees) : Reads x O p.entryName v := by
    intro same unbound p' named
    have unbound : p.bindings.get? x = none := by
      rcases unbound with none | ⟨none, _⟩
      · exact none.symm
      · exact none
    exact .inr ⟨unbound, v, seen, same, by rw [Path.symbolBase_congr named]⟩
  have sender : Reads x O p.entryName .sender := by
    rintro rfl
    cases own
  obtain ⟨held, _, stack⟩ := exec_watches (call_avoids calls known differ own targeted) reads sender enters (.inl rfl)
    (.inr rfl)
  have kept : O (q.bindings.get? x) := serves_isolated contained own serves apart
    (fun s member threads => threaded ⟨s, member, threads⟩) held stack
  rcases kept with same | symbol
  · exact .inl same
  · exact .inr (.inr (.inr symbol))

namespace Paying

def call (callee : String) : Instruction := .internalCall callee [.const (.int 7), .const (.int 8)] none

def payer (callee : String) : Function :=
  { straightLine "pay" [call callee] with params := [⟨"amount", .named "int256"⟩] }

def amount : VarId := ⟨"amount", .param "pay" 0⟩

def start : Path := (Path.start 0 ⟨0, 0⟩ 0 "pay").bind amount (.term (.var "p0" .int))

/-- The payer calls a function with two parameters, the first of them named like its own. -/
def machine (callee : String) (body : List Instruction) : Machine :=
  let contract : Contract :=
    {
      name := "Token"
      functions := [payer callee,
        { straightLine callee body with params := [⟨"amount", .named "int256"⟩, ⟨"tip", .named "int256"⟩] }] }
  ⟨{ contracts := [contract] }, contract, 0, default, default⟩

def charge : Instruction := .assignment ⟨"amount", .param "fee" 0, .named "int256"⟩ (.const (.int 3))

def fee : Machine := machine "fee" [charge]

def overload : Machine := machine "pay" []

def way : Successor := .goto (.start ⟨0, 1⟩ 0) none

def wayBack : Successor := .goto ⟨⟨0, 0⟩, 0, 1⟩ none

def called (M : Machine) (callee : String) : Path := (outcome (M.exec ⟨⟨0, 0⟩, 0, 0⟩ (call callee)) start).2

def inside (M : Machine) (callee : String) : Path := (called M callee).go way

def after (M : Machine) (callee : String) : Path := (M.stepOn (inside M callee)).2.go wayBack

theorem serves_inside {callee : String} (deeper : 0 < (inside M callee).stack.length)
    (runs : (M.stepOn (inside M callee)).1 = .ok [wayBack]) :
    Serves M start.stack.length [inside M callee] (inside M callee) (after M callee) := by
  have steps : Runs M.step (inside M callee) [wayBack] (M.stepOn (inside M callee)).2 := Prod.ext runs rfl
  exact .step deeper steps (mem_singleton.mpr rfl) (.here _)

end Paying

open Paying

/-- The fee overwrites its own amount and leaves the amount of the payer alone. -/
theorem fee_call_spares_amount :
    fee.program.SelfContained ∧ fee.callee? (call "fee") = some ⟨0, 1⟩ ∧
      Runs (fee.exec ⟨⟨0, 0⟩, 0, 0⟩ (call "fee")) start (some [way]) (called fee "fee") ∧
      Serves fee start.stack.length [inside fee "fee"] (inside fee "fee") (after fee "fee") ∧
      (after fee "fee").stack = start.stack ∧
      (∀ s ∈ [inside fee "fee"], ¬ fee.Involves s (payer "fee").name) ∧
      (after fee "fee").bindings.get? ⟨"amount", .param "fee" 0⟩ = some (.term (.int 3)) ∧
      (after fee "fee").bindings.get? amount = start.bindings.get? amount := by
  have contained : fee.program.SelfContained := by decide +kernel
  have calls : fee.callee? (call "fee") = some ⟨0, 1⟩ := by decide +kernel
  have enters : Runs (fee.exec ⟨⟨0, 0⟩, 0, 0⟩ (call "fee")) start (some [way]) (called fee "fee") := rfl
  have serves : Serves fee start.stack.length [inside fee "fee"] (inside fee "fee") (after fee "fee") :=
    serves_inside (by decide +kernel) rfl
  have back : (after fee "fee").stack = start.stack := rfl
  obtain ⟨p, q, charges, unlinked⟩ : ∃ p q, fee.performedIn (inside fee "fee") = [⟨p, charge, q⟩] ∧ p.links = .empty :=
    ⟨_, _, rfl, rfl⟩
  have apart : ∀ s ∈ [inside fee "fee"], ¬ fee.Involves s (payer "fee").name := by
    intro s visited involved
    cases mem_singleton.mp visited
    rcases involved with ⟨f, running, named⟩ | ⟨d, performed, callee, f, called, _⟩
    · have fee : (fee.running? (inside fee "fee")).map Function.name = some "fee" := rfl
      rw [running, Option.map_some, named] at fee
      exact absurd (Option.some.inj fee) (by decide)
    · rw [charges, mem_singleton] at performed
      subst performed
      cases called
  refine ⟨contained, calls, enters, serves, back, apart, rfl, ?_⟩
  rcases call_spares_other_names contained calls enters (mem_singleton.mpr rfl) serves back apart
      (x := amount) rfl with same | ⟨t, target, _⟩ | ⟨s, visited, d, performed, t, bound, _, leads⟩ | ⟨unbound, _⟩
  · exact same
  · cases target
  · cases mem_singleton.mp visited
    rw [charges, mem_singleton] at performed
    subst performed
    cases bound
    rcases leads.cases_head with same | ⟨_, ⟨_, linked, _⟩, _⟩
    · exact absurd same (by decide)
    · rw [unlinked] at linked
      cases linked
  · cases unbound

/-- An overload of `pay` is another function, writes nothing, and returns; the amount of the caller is now the
argument of the overload. -/
theorem overload_call_rebinds_amount :
    overload.program.SelfContained ∧ overload.callee? (call "pay") = some ⟨0, 1⟩ ∧
      Runs (overload.exec ⟨⟨0, 0⟩, 0, 0⟩ (call "pay")) start (some [way]) (called overload "pay") ∧
      Serves overload start.stack.length [inside overload "pay"] (inside overload "pay") (after overload "pay") ∧
      (after overload "pay").stack = start.stack ∧ overload.performedIn (inside overload "pay") = [] ∧
      (call "pay").target? = none ∧ start.bindings.get? amount = some (.term (.var "p0" .int)) ∧
      (after overload "pay").bindings.get? amount = some (.term (.int 7)) :=
  ⟨by decide +kernel, by decide +kernel, rfl, serves_inside (by decide +kernel) rfl, rfl, rfl, rfl, rfl, rfl⟩

end Machine

end TokenAudit
