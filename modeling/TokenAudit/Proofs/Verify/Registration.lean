import Mathlib.Logic.Relation
import TokenAudit.Proofs.Machine.Task
import TokenAudit.Proofs.Verify.Resolution

/-!
# What preparing a check does to a path

`Registration` lists what resolving selectors and setting up a check do to a path before it runs.
-/

namespace TokenAudit

open List

namespace Resolve

variable {K : Interest → Prop} {p q : Path}

/-- One thing done to a path; no interest is registered but those of `K`. -/
inductive Registration (K : Interest → Prop) : Path → Path → Prop
  | read (p : Path) (c : Contract) (v : Variable) : Registration K p (p.read c v).2
  | assume (p : Path) (t : Term) : Registration K p (p.assume t)
  | demand (p : Path) (ts : List Term) (allowed : K .condition) :
      Registration K p { p with required := p.required ++ ts }
  | writes (p : Path) (i : Nat) (allowed : K .writes) :
      Registration K p { p with varsTracked := p.varsTracked.insert i }
  | levels (p : Path) (levels : Table Nat (OrdSet Nat)) (allowed : K .levels) :
      Registration K p { p with keyLevels := levels }
  | events (p : Path) (i : Nat) (allowed : K .events) :
      Registration K p { p with eventsTracked := p.eventsTracked.insert i }
  | eventArgs (p : Path) (args : Table Nat (OrdSet Nat)) (allowed : K .eventArgs) :
      Registration K p { p with eventArgsTracked := args }
  | callArgs (p : Path) (args : Table String (OrdSet Nat)) (allowed : K .callArgs) :
      Registration K p { p with callArgsTracked := args }
  | checks (p : Path) (vars : List VarId) (allowed : K .checks) :
      Registration K p { p with checkTracked := vars }
  | results (p : Path) (functions : OrdSet String) (allowed : K .results) :
      Registration K p { p with returnsTracked := functions }
  | visit (p : Path) (name : String) :
      Registration K p { p with calledFunctions := p.calledFunctions.insert name }
  | accuse (p : Path) (bug : Term) : Registration K p { p with buggy := some bug }

def Registrations (K : Interest → Prop) : Path → Path → Prop := Relation.ReflTransGen (Registration K)

theorem Registrations.lift {R : Path → Path → Prop} [Std.Refl R] [Trans R R R]
    (holds : ∀ p q, Registration K p q → R p q) (registrations : Registrations K p q) : R p q :=
  Relation.reflTransGen_le_of_le holds p q registrations

theorem Registration.status (registration : Registration K p q) : p.status = q.status := by
  cases registration with
  | read c v => exact (Machine.read_sameTask p c v).status.symm
  | _ => rfl

end Resolve

open Resolve (Interest)

variable {K : Interest → Prop} {f : String}

theorem ArgCheck.Permits.named {a : ArgCheck} (permits : a.Permits K) (member : f ∈ a.callReturns) : K .results := by
  rcases mem_append.mp member with member | member
  · obtain ⟨s, value, member⟩ := mem_flatMap.mp member
    exact permits.value s (Option.mem_toList.mp value) (ne_nil_of_mem member)
  · obtain ⟨c, cond, member⟩ := mem_flatMap.mp member
    exact (permits.cond c (Option.mem_toList.mp cond)).results (ne_nil_of_mem member)

theorem Check.Permits.named {check : Check} (permits : check.Permits K) (member : f ∈ check.callReturns) :
    K .results := by
  have asked {cond : Option Condition} (permits : ∀ c ∈ cond, c.Permits K)
      (member : f ∈ cond.toList.flatMap Condition.callReturns) : K .results := by
    obtain ⟨c, among, member⟩ := mem_flatMap.mp member
    exact (permits c (Option.mem_toList.mp among)).results (ne_nil_of_mem member)
  have argued {args : List ArgCheck} (permits : ∀ a ∈ args, a.Permits K)
      (member : f ∈ args.flatMap ArgCheck.callReturns) : K .results := by
    obtain ⟨a, among, member⟩ := mem_flatMap.mp member
    exact (permits a among).named member
  cases check with
  | throws v => exact permits.2.results (ne_nil_of_mem member)
  | returns v => exact asked (fun c cond => (permits c cond).2) member
  | emits v =>
    obtain ⟨conditions, _, states, _, args⟩ := permits
    rcases mem_append.mp member with member | member
    · exact asked (fun c cond => (conditions c cond).2) member
    · rcases mem_append.mp member with member | member
      · exact asked states member
      · exact argued (fun a among => (args a among).2) member
  | assigns v => cases member
  | calls v =>
    obtain ⟨_, receives, args⟩ := permits
    rcases mem_append.mp member with member | member
    · exact receives (ne_nil_of_mem member)
    · exact argued (fun a among => (args a among).2) member
  | orders v => cases member

namespace Resolve

/-- Registrations lead from one resolution to the other, which refers to no further result unless `K` has
results. -/
structure Advances (K : Interest → Prop) (r r' : Resolution) : Prop where
  path : Registrations K r.path r'.path
  results : ¬ K .results → r'.returnsOf = r.returnsOf

def Registers {α : Type} (K : Interest → Prop) (x : ResolveM α) : Prop :=
  ∀ ⦃r a r'⦄, Resolves x r a r' → Advances K r r'

section

variable {α β : Type} {K : Interest → Prop} {r r' : Resolution} {x : ResolveM α}

theorem Advances.refl (r : Resolution) : Advances K r r := ⟨.refl, fun _ => rfl⟩

theorem Advances.trans {r'' : Resolution} (first : Advances K r r') (next : Advances K r' r'') : Advances K r r'' :=
  ⟨first.path.trans next.path, fun none => (next.results none).trans (first.results none)⟩

theorem Advances.tail {q : Path} (before : Advances K r r') (last : Registration K r'.path q) :
    Advances K r { r' with path := q } :=
  ⟨Relation.ReflTransGen.tail before.path last, before.results⟩

theorem Registers.bind {f : α → ResolveM β} (first : Registers K x) (next : ∀ a, Registers K (f a)) :
    Registers K (x >>= f) := by
  intro r b r'' resolves
  obtain ⟨a, r', before, after⟩ := resolves_bind.mp resolves
  exact (first before).trans (next a after)

theorem registers_pure (a : α) : Registers K (pure a) := by
  intro r b r' resolves
  rw [(resolves_pure.mp resolves).2]
  exact .refl r'

theorem registers_get : Registers K (get : ResolveM Resolution) := by
  intro r b r' resolves
  rw [(resolves_get.mp resolves).2]
  exact .refl r'

theorem registers_onPath {f : Path → Path} (one : ∀ p, Registration K p (f p)) : Registers K (onPath f) := by
  intro r u r' resolves
  rw [← resolves_modify.mp resolves]
  exact ⟨.single (one r.path), fun _ => rfl⟩

theorem advances_upholding {S : Subject} (r : Resolution) :
    Upholding S K (fun _ => K .results) (fun _ => True) (fun _ _ => True) (Advances K r) where
  terms := any_vocabulary
  value _ _ _ := trivial
  read inv _ := inv.tail (.read _ _ _)
  assume inv _ _ := inv.tail (.assume _ _)
  unsigned inv _ := { inv with }
  refers inv allowed := ⟨inv.path, fun none => absurd allowed none⟩
  demand inv allowed _ := inv.tail (.demand _ _ allowed)
  writes inv allowed _ := inv.tail (.writes _ _ allowed)
  levels levels inv allowed := inv.tail (.levels _ levels allowed)
  events inv allowed _ := inv.tail (.events _ _ allowed)
  eventArgs args inv allowed := inv.tail (.eventArgs _ args allowed)
  callArgs args inv allowed := inv.tail (.callArgs _ args allowed)
  checks inv allowed _ := inv.tail (.checks _ _ allowed)

theorem Registers.of_keeps {Q : α → Prop} (keeps : ∀ r, Keeps (Advances K r) Q x) : Registers K x :=
  fun r _ _ resolves => ((keeps r).ends (.refl r) resolves).1

variable (S : Subject) (opts : Reading)

theorem sorted_registers (e : Except SortError Term) : Registers K (sorted e) :=
  .of_keeps fun _ => keeps_sorted fun _ _ => trivial

theorem required_registers (fault : SelectorFault) (t : Option Term) : Registers K (required fault t) :=
  .of_keeps fun _ => keeps_required fault fun _ _ => trivial

theorem read_registers (v : Variable) : Registers K (read S v) := by
  intro r t r' resolves
  rw [← (resolves_read.mp resolves).2]
  exact (Advances.refl r).tail (.read r.path S.contract v)

theorem selector_registers {s : Selector} (permits : s.Permits K) : Registers K (selector S opts s) :=
  .of_keeps fun r => (advances_upholding r).setting.selector opts fun _ member => permits (ne_nil_of_mem member)

theorem condition_registers {c : Condition} (permits : c.Permits K) : Registers K (condition S opts c) :=
  .of_keeps fun r => (advances_upholding r).setting.condition opts permits fun _ member =>
    permits.results (ne_nil_of_mem member)

theorem conditions_registers {cs : List Condition} (permits : ∀ c ∈ cs, c.Permits K) :
    Registers K (conditions S opts cs) :=
  .of_keeps fun r => (advances_upholding r).setting.conditions opts permits fun c among _ member =>
    (permits c among).results (ne_nil_of_mem member)

end

/-- Registrations keep the property. -/
class Lasting (Q : Path → Prop) : Prop where
  kept {p q : Path} : Registration (fun _ => True) p q → Q p → Q q

def Ensures {α : Type} (Q : Path → Prop) (x : ResolveM α) : Prop := ∀ ⦃r a r'⦄, Resolves x r a r' → Q r'.path

section

variable {α β : Type} {x : ResolveM α} {f : α → ResolveM β} {Q : Path → Prop} {e : VerifyError}

theorem Registrations.kept [Lasting Q] {p q : Path} (registrations : Registrations (fun _ => True) p q)
    (holds : Q p) : Q q := by
  induction registrations with
  | refl => exact holds
  | tail _ last ih => exact Lasting.kept last ih

theorem Ensures.first [Lasting Q] (ensures : Ensures Q x) (later : ∀ a, Registers (fun _ => True) (f a)) :
    Ensures Q (x >>= f) := by
  intro r b r'' resolves
  obtain ⟨a, r', before, after⟩ := resolves_bind.mp resolves
  exact (later a after).path.kept (ensures before)

theorem Ensures.later (ensures : ∀ a, Ensures Q (f a)) : Ensures Q (x >>= f) := by
  intro r b r'' resolves
  obtain ⟨a, r', before, after⟩ := resolves_bind.mp resolves
  exact ensures a after

theorem Ensures.unless {y : ResolveM β} {failing : Prop} [Decidable failing] (ensures : Ensures Q y) : Ensures Q (do
      if failing then throw e
      y) := by
  split
  · exact .later fun _ => ensures
  · exact ensures

theorem ensures_throw : Ensures Q (throw e : ResolveM α) :=
  fun _ _ _ resolves => (resolves_throw resolves).elim

end

end Resolve

namespace Prepare

open Resolve

variable {K : Interest → Prop} (S : Subject) (opts : Reading) {check : Check} {p q : Path} {outlook : Outlook}

theorem assume_registers (t : Term) : Registers K (assume t) := registers_onPath fun p => .assume p t

theorem demandAll_registers (allowed : K .condition) (ts : List Term) : Registers K (demandAll ts) :=
  registers_onPath fun p => .demand p ts allowed

theorem setBuggy_registers (parts : List Term) : Registers K (setBuggy parts) :=
  registers_onPath fun p => .accuse p _

theorem callArgumentBugs_registers (callee : String) (within : Term → Term) {args : List ArgCheck}
    (permits : ∀ a ∈ args, K .callArgs ∧ a.Permits K) : Registers K (callArgumentBugs S opts callee within args) :=
  .of_keeps fun r => (advances_upholding r).setting.callArgumentBugs (Q := fun _ => True) opts callee
    (fun _ _ => trivial) permits fun a among _ member => (permits a among).2.named member

theorem setup_registers (permits : check.Permits K) : Registers K (setup S opts check) := by
  intro r outlook r' resolves
  have leads := (advances_upholding (S := S) r).delivers_setup (J := fun _ r' => Advances K r r') opts permits
    (fun _ => permits.named) (fun inv => inv) (fun inv => inv) fun inv _ _ => inv.tail (.accuse _ _)
  exact leads.ends (.refl r) resolves

theorem assumeUnsignedTerms_registers (ts : List Term) : Registers K (assumeUnsignedTerms ts) := by
  induction ts with
  | nil => exact registers_pure _
  | cons t rest ih => exact .bind (sorted_registers _) fun _ => .bind (assume_registers _) fun _ => ih

theorem onePath_ends (prepares : onePath S check p = .ok (outlook, q)) :
    ∃ opts r r', Resolves (setup S opts check) (.start p) outlook r ∧
      Resolves (assumeUnsignedTerms r.unsignedTerms) r ⟨⟩ r' ∧
      q = { r'.path with returnsTracked := r'.path.returnsTracked.insertAll r.returnsOf.toList } := by
  unfold onePath at prepares
  dsimp only at prepares
  split at prepares
  rename_i result last runs
  cases result with
  | error e => cases prepares
  | ok found =>
    cases prepares
    have resolves : Resolves _ (.start p) outlook last := runs
    obtain ⟨_, r, sets, resolves⟩ := resolves_bind.mp resolves
    obtain ⟨_, _, reads, resolves⟩ := resolves_bind.mp resolves
    obtain ⟨rfl, rfl⟩ := resolves_get.mp reads
    obtain ⟨_, r', assumes, resolves⟩ := resolves_bind.mp resolves
    obtain ⟨_, _, tracks, ends⟩ := resolves_bind.mp resolves
    obtain ⟨rfl, rfl⟩ := resolves_pure.mp ends
    refine ⟨_, r, r', sets, assumes, ?_⟩
    rw [← resolves_modify.mp tracks]

theorem onePath_registers (permits : check.Permits K) (prepares : onePath S check p = .ok (outlook, q)) :
    Registrations K p q := by
  obtain ⟨opts, r, r', sets, assumes, rfl⟩ := onePath_ends S prepares
  have setup := setup_registers S opts permits sets
  have before : Registrations K p r'.path := setup.path.trans (assumeUnsignedTerms_registers _ assumes).path
  by_cases allowed : K .results
  · exact before.tail (.results _ _ allowed)
  · have none : r.returnsOf = .empty := setup.results allowed
    rw [none]
    exact before

theorem onePath_ensures {Q : Path → Prop} [Lasting Q] (ensures : ∀ opts, Ensures Q (setup S opts check))
    (prepares : onePath S check p = .ok (outlook, q)) : Q q := by
  obtain ⟨opts, r, r', sets, assumes, rfl⟩ := onePath_ends S prepares
  have assumed : Q r'.path := (assumeUnsignedTerms_registers _ assumes).path.kept (ensures opts sets)
  exact Lasting.kept (.results _ _ trivial) assumed

end Prepare

end TokenAudit
