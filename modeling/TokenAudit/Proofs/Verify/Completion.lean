import Mathlib.Data.List.Forall2
import TokenAudit.Proofs.Machine.Exclusion
import TokenAudit.Proofs.Machine.Task
import TokenAudit.Proofs.Solver.Truthful

/-!
# What completing a path does

Closing a finished path denies the facts that were asked about and never noted (`denials`).
-/

namespace TokenAudit

open List TokenAudit.Path

variable {σ : Type} {solver : Solver (StateM σ)} {c : Contract} {tracking : Tracking} {expected : List CallOn}
  {paths final : List Path} {w w' : σ}

namespace Complete

open Machine (Change Changes)

variable {x : VarId} {value : Value} {fact : Fact} {sv : StateVariable} {i : Nat} {α : Type} {D : Path → α → List Fact}

/-- Closing reads state variables, pins values by equations and denies the facts of the list, in this order. -/
inductive Closes (c : Contract) : List Fact → Path → Path → Prop
  | done (p : Path) : Closes c [] p p
  | read {facts : List Fact} {p q : Path} {sv : StateVariable} (listed : sv ∈ c.stateVariables)
      (rest : Closes c facts (p.read c (.ofState sv.name sv.type)).2 q) : Closes c facts p q
  | pin {facts : List Fact} {p q : Path} {a b t : Term} (built : Term.mkEq a b = .ok t)
      (rest : Closes c facts (p.assume t) q) : Closes c facts p q
  | deny {facts : List Fact} {p q : Path} {fact : Fact} (rest : Closes c facts (p.assume fact.denial) q) :
      Closes c (fact :: facts) p q

variable {c : Contract} {tracking : Tracking} {p q r : Path} {facts : List Fact}

theorem Closes.trans {later : List Fact} (first : Closes c facts p q) (second : Closes c later q r) :
    Closes c (facts ++ later) p r := by
  induction first with
  | done p => exact second
  | read listed rest ih => exact .read listed (ih second)
  | pin built rest ih => exact .pin built (ih second)
  | deny rest ih => exact .deny (ih second)

section

variable (closes : Closes c facts p q)

include closes

theorem Closes.changes : Changes (fun _ => False) p q := by
  induction closes with
  | done p => exact .refl
  | read listed rest ih => exact (Machine.path_read_changes _ c _).trans ih
  | pin built rest ih | deny rest ih => exact .head (.assume _ _) ih

theorem Closes.adds : p.Adds q := closes.changes.lift fun _ _ => Change.adds

theorem Closes.record : q.record = p.record := by
  induction closes with
  | done p => rfl
  | read listed rest ih => exact ih.trans (Machine.read_record _ c _)
  | pin built rest ih | deny rest ih => exact ih

theorem Closes.keeps (bound : p.bindings.get? x = some value) : q.bindings.get? x = some value := by
  induction closes with
  | done p => exact bound
  | read listed rest ih => exact ih ((read_grows rfl).1.keeps x value bound)
  | pin built rest ih | deny rest ih => exact ih bound

end

theorem denial_ne_true (fact : Fact) : fact.denial ≠ .bool true := by
  unfold Fact.denial Fact.term Term.mkNot
  simp

theorem Closes.denied (closes : Closes c facts p q) (among : fact ∈ facts) : fact.denial ∈ q.constraints.terms := by
  induction closes with
  | done p => cases among
  | read listed rest ih | pin built rest ih => exact ih among
  | deny rest ih =>
    rcases mem_cons.mp among with rfl | among
    · exact rest.adds.subset_terms (mem_terms_assume (denial_ne_true _))
    · exact ih among

def unlessNoted (noted : Bool) (fact : Option Fact) : List Fact := if noted then [] else fact.toList

def deniedWrite (c : Contract) (p : Path) (i : Nat) : List Fact :=
  unlessNoted (p.varsWritten.contains i) ((c.stateVariables[i]?).map fun sv => .written sv.name)

def deniedEmission (c : Contract) (p : Path) (i : Nat) : List Fact :=
  unlessNoted (p.eventsEmitted.contains i) ((c.events[i]?).map fun e => .emitted e.name)

def deniedCall (p : Path) (call : CallOn) : List Fact :=
  unlessNoted (p.calledOn.contains call) (some (.called call.receiver call.function))

def deniedReturn (p : Path) (function : String) : List Fact :=
  unlessNoted (p.calledFunctions.contains function) (some (.fnCalled function))

def deniedUse (p : Path) (v : VarId) : List Fact :=
  unlessNoted (decide (v ∈ p.usedInCheck)) (some (.usedInCheck (p.symbolBase v)))

def denials (c : Contract) (expected : List CallOn) (p : Path) : List Fact :=
  p.varsTracked.toList.flatMap (deniedWrite c p) ++ (p.eventsTracked.toList.flatMap (deniedEmission c p) ++
    (expected.flatMap (deniedCall p) ++ (p.returnsTracked.toList.flatMap (deniedReturn p) ++
      p.checkTracked.flatMap (deniedUse p))))

theorem mem_unlessNoted {noted : Bool} {asked : Option Fact} :
    fact ∈ unlessNoted noted asked ↔ noted = false ∧ asked = some fact := by
  unfold unlessNoted
  cases noted <;> simp

inductive Denied (c : Contract) (expected : List CallOn) (p : Path) : Fact → Prop
  | write {i : Nat} {sv : StateVariable} (asked : i ∈ p.varsTracked.toList) (listed : c.stateVariables[i]? = some sv)
      (unnoted : i ∉ p.varsWritten.toList) : Denied c expected p (.written sv.name)
  | emission {i : Nat} {event : EventDecl} (asked : i ∈ p.eventsTracked.toList) (listed : c.events[i]? = some event)
      (unnoted : i ∉ p.eventsEmitted.toList) : Denied c expected p (.emitted event.name)
  | call {call : CallOn} (asked : call ∈ expected) (unnoted : call ∉ p.calledOn.toList) :
      Denied c expected p (.called call.receiver call.function)
  | result {f : String} (asked : f ∈ p.returnsTracked.toList) (unnoted : f ∉ p.calledFunctions.toList) :
      Denied c expected p (.fnCalled f)
  | use {v : VarId} (asked : v ∈ p.checkTracked) (unnoted : v ∉ p.usedInCheck) :
      Denied c expected p (.usedInCheck (p.symbolBase v))

theorem mem_denials : fact ∈ denials c expected p ↔ Denied c expected p fact := by
  simp only [denials, mem_append, mem_flatMap, deniedWrite, deniedEmission, deniedCall, deniedReturn,
    deniedUse, mem_unlessNoted, OrdSet.contains, decide_eq_false_iff_not, Option.map_eq_some_iff, Option.some.injEq]
  constructor
  · rintro (⟨i, asked, unnoted, sv, listed, rfl⟩ | ⟨i, asked, unnoted, event, listed, rfl⟩ |
      ⟨call, asked, unnoted, rfl⟩ | ⟨f, asked, unnoted, rfl⟩ | ⟨v, asked, unnoted, rfl⟩)
    · exact .write asked listed unnoted
    · exact .emission asked listed unnoted
    · exact .call asked unnoted
    · exact .result asked unnoted
    · exact .use asked unnoted
  · intro denied
    cases denied with
    | write asked listed unnoted => exact .inl ⟨_, asked, unnoted, _, listed, rfl⟩
    | emission asked listed unnoted => exact .inr (.inl ⟨_, asked, unnoted, _, listed, rfl⟩)
    | call asked unnoted => exact .inr (.inr (.inl ⟨_, asked, unnoted, rfl⟩))
    | result asked unnoted => exact .inr (.inr (.inr (.inl ⟨_, asked, unnoted, rfl⟩)))
    | use asked unnoted => exact .inr (.inr (.inr (.inr ⟨_, asked, unnoted, rfl⟩)))

theorem denyUnless_closes (happened : Bool) (fact : Fact) (p : Path) :
    Closes c (unlessNoted happened (some fact)) p (denyUnless happened fact p) := by
  unfold denyUnless unlessNoted
  split
  · exact .done p
  · exact .deny (.done _)

theorem sorted_eq_ok {e : Except SortError Term} {t : Term} : sorted e = .ok t ↔ e = .ok t := by
  cases e <;> simp [sorted]

theorem pinned_closes (listed : sv ∈ c.stateVariables) {symbol : Term}
    (pins : (match (p.read c (.ofState sv.name sv.type)).1 with
      | .term now => do pure ((p.read c (.ofState sv.name sv.type)).2.assume (← sorted (Term.mkEq symbol now)))
      | .tuple _ => pure (p.read c (.ofState sv.name sv.type)).2 : Except PathError Path) = .ok q) :
    Closes c [] p q := by
  split at pins
  · obtain ⟨t, built, pins⟩ := bind_eq_ok_iff.mp pins
    cases pins
    exact .read listed (.pin (sorted_eq_ok.mp built) (.done _))
  · cases pins
    exact .read listed (.done _)

theorem closeVariable_closes (closes : closeVariable c tracking p i = .ok q) : Closes c (deniedWrite c p i) p q := by
  unfold closeVariable at closes
  unfold deniedWrite
  cases listed : c.stateVariables[i]? with
  | none =>
    rw [listed] at closes
    cases closes
    simp only [Option.map_none, unlessNoted, Option.toList_none, ite_self]
    exact .done p
  | some sv =>
    have here := mem_of_getElem? listed
    rw [listed] at closes
    dsimp only at closes
    rw [← append_nil (unlessNoted _ _)]
    refine (denyUnless_closes _ _ p).trans ?_
    split at closes
    · obtain ⟨t, built, closes⟩ := bind_eq_ok_iff.mp closes
      obtain ⟨_, ⟨⟩, closes⟩ := bind_eq_ok_iff.mp closes
      exact .pin (sorted_eq_ok.mp built) (pinned_closes here closes)
    · exact pinned_closes here closes

/-- What a fold denies is read off the notes of the path, which closing leaves alone. -/
theorem foldlM_closes {f : Path → α → Except PathError Path}
    (each : ∀ {p a q}, f p a = .ok q → Closes c (D p.record a) p q) {as : List α} (closes : as.foldlM f p = .ok q) :
    Closes c (as.flatMap (D p.record)) p q := by
  induction as generalizing p with
  | nil =>
    cases closes
    exact .done _
  | cons a rest ih =>
    obtain ⟨r, first, closes⟩ := bind_eq_ok_iff.mp closes
    have later := ih closes
    rw [(each first).record] at later
    exact (each first).trans later

theorem foldl_closes {f : Path → α → Path} (each : ∀ p a, Closes c (D p.record a) p (f p a)) {origin : Path}
    (same : p.record = origin.record) (as : List α) : Closes c (as.flatMap (D origin.record)) p (as.foldl f p) := by
  rw [← same]
  refine foldlM_closes (fun closes => ?_) foldlM_pure
  cases closes
  exact each _ _

theorem closeEvent_closes (p : Path) (i : Nat) : Closes c (deniedEmission c p i) p (closeEvent c p i) := by
  unfold closeEvent deniedEmission
  cases c.events[i]? with
  | none =>
    simp only [Option.map_none, unlessNoted, Option.toList_none, ite_self]
    exact .done p
  | some e => exact denyUnless_closes _ _ p

theorem tracked_of_record (same : q.record = p.record) : q.eventsTracked = p.eventsTracked ∧
    q.returnsTracked = p.returnsTracked ∧ q.checkTracked = p.checkTracked := by
  have events := congrArg eventsTracked same
  have returns := congrArg returnsTracked same
  have checks := congrArg checkTracked same
  exact ⟨events, returns, checks⟩

def settle (p : Path) : Path := p.deferred.foldl assume { p with deferred := [] }

theorem close_closes (closes : close c tracking expected p = .ok q) :
    ∃ r, Closes c (denials c expected p) p r ∧ q = settle r := by
  obtain ⟨r, pinned, closes⟩ := bind_eq_ok_iff.mp closes
  refine ⟨_, ?_, (Except.ok.inj closes).symm⟩
  have written := foldlM_closes (D := deniedWrite c) closeVariable_closes pinned
  have before := written.record
  rw [(tracked_of_record before).1]
  have emitted := foldl_closes (D := deniedEmission c) closeEvent_closes before p.eventsTracked.toList
  have before := emitted.record.trans before
  have called := foldl_closes (c := c) (f := closeCall) (D := deniedCall) (fun p _ => denyUnless_closes _ _ p) before
    expected
  have before := called.record.trans before
  rw [(tracked_of_record before).2.1]
  have returned := foldl_closes (c := c) (f := closeReturn) (D := deniedReturn) (fun p _ => denyUnless_closes _ _ p)
    before p.returnsTracked.toList
  have before := returned.record.trans before
  rw [(tracked_of_record before).2.2]
  have used := foldl_closes (c := c) (D := deniedUse) (fun p _ => denyUnless_closes _ _ p) before
    p.checkTracked
  exact written.trans (emitted.trans (called.trans (returned.trans used)))

theorem settle_adds (p : Path) : p.Adds (settle p) := by
  have assumes (ts : List Term) : ∀ p : Path, p.Adds (ts.foldl assume p) := by
    induction ts with
    | nil => exact fun p => adds_of_same rfl
    | cons t rest ih =>
      intro p
      have first : p.Adds (p.assume t) := adds_of_push t rfl
      exact Trans.trans first (ih (p.assume t))
  have dropped : p.Adds { p with deferred := [] } := adds_of_same rfl
  exact Trans.trans dropped (assumes p.deferred _)

theorem settle_log (p : Path) : ∃ log, settle p = { p with deferred := [], constraints := log } := by
  have assumes (ts : List Term) : ∀ p : Path, ∃ log, ts.foldl assume p = { p with constraints := log } := by
    induction ts with
    | nil => exact fun p => ⟨p.constraints, rfl⟩
    | cons t rest ih => exact fun p => ih (p.assume t)
  exact assumes p.deferred _

variable (closes : close c tracking expected p = .ok q)

include closes

theorem close_adds : p.Adds q := by
  obtain ⟨r, shuts, rfl⟩ := close_closes closes
  exact Trans.trans shuts.adds (settle_adds r)

theorem close_log : ∃ bindings log, q = { p with bindings := bindings, constraints := log, deferred := [] } := by
  obtain ⟨r, shuts, rfl⟩ := close_closes closes
  obtain ⟨log, settled⟩ := settle_log r
  have same : settle r = { r.record with bindings := r.bindings, constraints := log, deferred := [] } := settled
  rw [shuts.record] at same
  exact ⟨r.bindings, log, same⟩

theorem close_task : p.SameTask q := by
  obtain ⟨bindings, log, rfl⟩ := close_log closes
  exact rfl

theorem close_keeps (bound : p.bindings.get? x = some value) : q.bindings.get? x = some value := by
  obtain ⟨r, shuts, rfl⟩ := close_closes closes
  obtain ⟨log, settled⟩ := settle_log r
  rw [settled]
  exact shuts.keeps bound

theorem close_denied (denied : Denied c expected p fact) : fact.denial ∈ q.constraints.terms := by
  obtain ⟨r, shuts, rfl⟩ := close_closes closes
  exact (settle_adds r).subset_terms (shuts.denied (mem_denials.mpr denied))

theorem close_denies_unwritten {E : Env} (tracked : i ∈ p.varsTracked.toList)
    (listed : c.stateVariables[i]? = some sv) (unwritten : i ∉ p.varsWritten.toList)
    (satisfies : E.Satisfies q.constraints) : ¬ E.Holds (Fact.written sv.name).term :=
  Env.holds_mkNot.mp (satisfies _ (close_denied closes (.write tracked listed unwritten)))

end Complete

inductive Settled {σ : Type} (solver : Solver (StateM σ)) (c : Contract) (tracking : Tracking)
    (expected : List CallOn) (p : Path) : Path → Prop
  | kept (unfinished : p.status ≠ .finished) : Settled solver c tracking expected p p
  | closed {q : Path} {applies : Bool} {w w' : σ} (finished : p.status = .finished)
      (closes : Complete.close c tracking expected p = .ok q)
      (answers : Returns (Explore.feasibleIfRequired solver q) w (.ok applies) w') :
      Settled solver c tracking expected p (if applies then q else { q with status := .unsat })

theorem Settled.of_finished {p q : Path} (settled : Settled solver c tracking expected p q)
    (finished : q.status = .finished) : p.status = .finished ∧ Complete.close c tracking expected p = .ok q ∧
      ∃ u u', Returns (Explore.feasibleIfRequired solver q) u (.ok true) u' := by
  cases settled with
  | kept unfinished => exact absurd finished unfinished
  | @closed q applies u u' was_finished closes asks =>
    cases applies with
    | false => cases finished
    | true => exact ⟨was_finished, closes, u, u', asks⟩

theorem Settled.of_threw {p q : Path} (settled : Settled solver c tracking expected p q)
    (threw : q.status = .threw) : q = p := by
  cases settled with
  | kept unfinished => rfl
  | @closed q applies _ _ finished closes _ =>
    have same : q.status = .finished := (Complete.close_task closes).status.trans finished
    cases applies with
    | false => cases threw
    | true => cases same.symm.trans threw

theorem complete_settled (completes : Returns (complete solver c tracking expected paths) w (.ok final) w') :
    List.Forall₂ (Settled solver c tracking expected) paths final := by
  induction paths generalizing final w w' with
  | nil =>
    cases completes.of_pure
    exact .nil
  | cons p rest ih =>
    -- the completed rest, and the path that is put before it
    have later {head : Path} {v : σ} (here : Settled solver c tracking expected p head) (completes : Returns (do
        return (← complete solver c tracking expected rest).map (head :: ·)) v (.ok final) w') :
        List.Forall₂ (Settled solver c tracking expected) (p :: rest) final := by
      obtain ⟨result, v', completed, ends⟩ := completes.of_bind
      cases result with
      | error e => cases ends.of_pure
      | ok others =>
        cases ends.of_pure
        exact .cons here (ih completed)
    rw [complete] at completes
    split at completes
    · rename_i finished
      split at completes
      · cases completes.of_pure
      · rename_i closed closes
        obtain ⟨answer, v, asks, completes⟩ := completes.of_bind
        cases answer with
        | error e => cases completes.of_pure
        | ok applies => exact later (.closed finished closes asks) completes
    · rename_i unfinished
      exact later (.kept unfinished) completes

inductive Completed (c : Contract) (tracking : Tracking) (expected : List CallOn) (p : Path) : Path → Prop
  | kept (unfinished : p.status ≠ .finished) : Completed c tracking expected p p
  | closed {q : Path} (finished : p.status = .finished) (closes : Complete.close c tracking expected p = .ok q)
      (applies : q.required = [] ∨ q.Admits q.required) : Completed c tracking expected p q
  | ended {q : Path} (finished : p.status = .finished) (closes : Complete.close c tracking expected p = .ok q)
      (inapplicable : ¬ (q.required = [] ∨ q.Admits q.required)) :
      Completed c tracking expected p { q with status := .unsat }

theorem complete_completed (truthful : solver.Truthful)
    (completes : Returns (complete solver c tracking expected paths) w (.ok final) w') :
    List.Forall₂ (Completed c tracking expected) paths final := by
  refine (complete_settled completes).imp fun p q settled => ?_
  cases settled with
  | kept unfinished => exact .kept unfinished
  | @closed q applies v v' finished closes asks =>
    obtain ⟨answer, same, meaning⟩ := Explore.feasible_truthful truthful asks
    have same := Except.ok.inj same
    subst same
    cases applies with
    | false => exact .ended finished closes fun applies => Bool.noConfusion (meaning.mpr applies)
    | true => exact .closed finished closes (meaning.mp rfl)

theorem Completed.required {p q : Path} (completed : Completed c tracking expected p q) : q.required = p.required := by
  cases completed with
  | kept unfinished => rfl
  | closed finished closes applies => exact (Complete.close_task closes).required
  | ended finished closes inapplicable =>
    have same := (Complete.close_task closes).required
    exact same

end TokenAudit
