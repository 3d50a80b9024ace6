import Mathlib.Logic.Relation
import TokenAudit.Proofs.Audit.Answers

/-!
# A pool of workers

Several workers take jobs from one desk, and what they find arrives there, in any interleaving: any worker may act
next, and a worker takes any of the jobs that are left.
-/

namespace TokenAudit

open List

variable {ω σ : Type}

inductive Worker (σ : Type) where
  | starting
  | ready (state : σ)
  | checking (state : σ) (job : Job)
  | reporting (state : σ) (found : Option Violation)
  | refused
  | retired

namespace Worker

def state? : Worker σ → Option σ
  | .ready s => some s
  | .checking s _ => some s
  | .reporting s _ => some s
  | _ => none

def Through (x : Worker σ) : Prop := x = .refused ∨ x = .retired

end Worker

/-- What the workers share: the jobs nobody has taken, the violations that have arrived, and the world. -/
structure Desk (ω : Type) where
  queue : List Job
  found : List Violation
  world : ω

structure Pool (ω σ : Type) where
  workers : List (Worker σ)
  desk : Desk ω

def Pool.Settled (p : Pool ω σ) : Prop := ∀ x ∈ p.workers, x.Through

namespace Audit

inductive Acts (a : Audit) (source : VerifierSource (StateM ω) σ) : Worker σ → Desk ω → Worker σ → Desk ω → Prop
  | builds {queue : List Job} {found : List Violation} {w w' : ω} {s : σ}
      (built : Returns source.build w (.ok s) w') :
      Acts a source .starting ⟨queue, found, w⟩ (.ready s) ⟨queue, found, w'⟩
  | fails {queue : List Job} {found : List Violation} {w w' : ω} {e : VerifyError}
      (failed : Returns source.build w (.error e) w') :
      Acts a source .starting ⟨queue, found, w⟩ .refused ⟨queue, found, w'⟩
  | takes (before : List Job) {after : List Job} {job : Job} {found : List Violation} {w : ω} {s : σ} :
      Acts a source (.ready s) ⟨before ++ job :: after, found, w⟩ (.checking s job) ⟨before ++ after, found, w⟩
  | checks {queue : List Job} {job : Job} {found : List Violation} {w w' : ω} {s s' : σ} {outcome : Option Violation}
      (checked : Returns ((a.checkJob source.verifier job).run s) w (outcome, s') w') :
      Acts a source (.checking s job) ⟨queue, found, w⟩ (.reporting s' outcome) ⟨queue, found, w'⟩
  | reports {queue : List Job} {found : List Violation} {w : ω} {s : σ} {outcome : Option Violation} :
      Acts a source (.reporting s outcome) ⟨queue, found, w⟩ (.ready s) ⟨queue, found ++ outcome.toList, w⟩
  | retires {found : List Violation} {w w' : ω} {s s' : σ} {u : Unit}
      (finished : Returns (source.finish.run s) w (u, s') w') :
      Acts a source (.ready s) ⟨[], found, w⟩ .retired ⟨[], found, w'⟩

inductive Step (a : Audit) (source : VerifierSource (StateM ω) σ) : Pool ω σ → Pool ω σ → Prop
  | act (before : List (Worker σ)) {after : List (Worker σ)} {x y : Worker σ} {d d' : Desk ω}
      (acts : Acts a source x d y d') : Step a source ⟨before ++ x :: after, d⟩ ⟨before ++ y :: after, d'⟩

def Develops (a : Audit) (source : VerifierSource (StateM ω) σ) : Pool ω σ → Pool ω σ → Prop :=
  Relation.ReflTransGen (a.Step source)

def pool (σ : Type) (a : Audit) (count : Nat) (w : ω) : Pool ω σ := ⟨List.replicate count .starting, ⟨a.jobs, [], w⟩⟩

def reportOf (a : Audit) (p : Pool ω σ) : List Violation := Violation.sort (a.interface ++ p.desk.found)

variable {a : Audit} {source : VerifierSource (StateM ω) σ}
  {answer : String → Target → Check → Except VerifyError Bool} {x y : Worker σ} {d d' : Desk ω} {p q : Pool ω σ}

def due (a : Audit) (answer : String → Target → Check → Except VerifyError Bool) : Worker σ → List Violation
  | .checking _ job => (a.verdict answer job).toList
  | .reporting _ found => found.toList
  | _ => []

/-- What one worker and the desk hold of the report: found, due, and to come from the jobs that are left. -/
def holding (a : Audit) (answer : String → Target → Check → Except VerifyError Bool) (x : Worker σ) (d : Desk ω) :
    List Violation :=
  d.found ++ due a answer x ++ d.queue.filterMap (a.verdict answer)

theorem acts_serves (fixed : source.AnswersAs answer) (acts : a.Acts source x d y d')
    (serves : ∀ s, x.state? = some s → source.Serves s) : ∀ s, y.state? = some s → source.Serves s := by
  cases acts with
  | builds built =>
    rintro s ⟨⟩
    exact .built built
  | fails failed | retires finished => exact fun s none => nomatch none
  | takes before => exact serves
  | @checks queue job found w w' s s' outcome checked =>
    rintro t ⟨⟩
    obtain ⟨s₁, w₁, returns, served⟩ := a.checkJob_returns fixed (serves s rfl) job w
    obtain ⟨same, _⟩ := checked.unique returns
    cases same
    exact served
  | reports => exact serves

theorem acts_holding (fixed : source.AnswersAs answer) (acts : a.Acts source x d y d')
    (serves : ∀ s, x.state? = some s → source.Serves s) : (holding a answer y d').Perm (holding a answer x d) := by
  cases acts with
  | builds built | fails failed => exact .refl _
  | @takes before after job found w s =>
    rw [perm_iff_count]
    cases verdict : a.verdict answer job with
    | none => simp [holding, due, verdict]
    | some found =>
      simp only [holding, due, verdict, Option.toList_some, filterMap_append, filterMap_cons,
        count_append, count_cons, count_nil]
      omega
  | @checks queue job found w w' s s' outcome checked =>
    obtain ⟨s₁, w₁, returns, _⟩ := a.checkJob_returns fixed (serves s rfl) job w
    obtain ⟨same, _⟩ := checked.unique returns
    cases same
    exact .refl _
  | reports =>
    unfold holding due
    rw [append_nil]
  | retires finished => exact .refl _

theorem acts_emptied (acts : a.Acts source x d y d') :
    (y = .retired → d'.queue = []) ∧ (d.queue = [] → d'.queue = []) := by
  cases acts with
  | builds built | fails failed => exact ⟨nofun, id⟩
  | takes before => exact ⟨nofun, fun empty => by simp at empty⟩
  | checks checked | reports => exact ⟨nofun, id⟩
  | retires finished => exact ⟨fun _ => rfl, id⟩

/-- The books of a pool: every verdict has arrived, is due from a worker, or belongs to a job that is left, and the
first worker to retire leaves no job. -/
structure Balanced (a : Audit) (source : VerifierSource (StateM ω) σ)
    (answer : String → Target → Check → Except VerifyError Bool) (p : Pool ω σ) : Prop where
  serves : ∀ x ∈ p.workers, ∀ s, x.state? = some s → source.Serves s
  account : (p.desk.found ++ p.workers.flatMap (due a answer) ++ p.desk.queue.filterMap (a.verdict answer)).Perm
    (a.jobs.filterMap (a.verdict answer))
  emptied : .retired ∈ p.workers → p.desk.queue = []

theorem balanced_pool (count : Nat) (w : ω) : Balanced a source answer (a.pool σ count w) := by
  have starts : ∀ x ∈ (a.pool σ count w).workers, x = .starting := fun x member => eq_of_mem_replicate member
  have nothing : (a.pool σ count w).workers.flatMap (due a answer) = [] := by
    refine flatMap_eq_nil_iff.mpr fun x member => ?_
    rw [starts x member]
    rfl
  refine ⟨fun x member s held => ?_, ?_, fun retired => nomatch starts _ retired⟩
  · rw [starts x member] at held
    cases held
  · rw [nothing]
    exact .refl _

theorem Balanced.step (fixed : source.AnswersAs answer) (balanced : Balanced a source answer p)
    (step : a.Step source p q) : Balanced a source answer q := by
  cases step with
  | @act before after x y d d' acts =>
    have here : ∀ s, x.state? = some s → source.Serves s := balanced.serves x (by simp)
    have held := acts_holding fixed acts here
    refine ⟨?_, ?_, ?_⟩
    · intro z member
      rcases mem_append.mp member with old | new
      · exact balanced.serves z (mem_append_left _ old)
      rcases mem_cons.mp new with rfl | old
      · exact acts_serves fixed acts here
      · exact balanced.serves z (mem_append_right _ (mem_cons_of_mem _ old))
    · refine List.Perm.trans ?_ balanced.account
      rw [perm_iff_count] at held ⊢
      intro v
      have held := held v
      simp only [holding, count_append, flatMap_append, flatMap_cons] at held ⊢
      omega
    · intro retired
      obtain ⟨last, stays⟩ := acts_emptied acts
      rcases mem_append.mp retired with old | new
      · exact stays (balanced.emptied (mem_append_left _ old))
      rcases mem_cons.mp new with same | old
      · exact last same.symm
      · exact stays (balanced.emptied (mem_append_right _ (mem_cons_of_mem _ old)))

theorem Balanced.develops (fixed : source.AnswersAs answer) (balanced : Balanced a source answer p)
    (develops : a.Develops source p q) : Balanced a source answer q := by
  induction develops with
  | refl => exact balanced
  | tail _ last ih => exact ih.step fixed last

theorem Balanced.found (balanced : Balanced a source answer p) (settled : p.Settled)
    (retired : .retired ∈ p.workers) : p.desk.found.Perm (a.jobs.filterMap (a.verdict answer)) := by
  have nothing : p.workers.flatMap (due a answer) = [] := by
    refine flatMap_eq_nil_iff.mpr fun x member => ?_
    rcases settled x member with rfl | rfl <;> rfl
  have account := balanced.account
  rwa [nothing, balanced.emptied retired, append_nil, filterMap_nil, append_nil] at account

def effort : Worker σ → Nat
  | .starting => 2
  | .ready _ => 1
  | .checking _ _ => 3
  | .reporting _ _ => 2
  | .refused => 0
  | .retired => 0

theorem acts_effort (acts : a.Acts source x d y d') :
    effort y + 3 * d'.queue.length < effort x + 3 * d.queue.length := by
  cases acts <;> simp only [effort, length_append, length_cons] <;> omega

theorem acts_of_not_through (source : VerifierSource (StateM ω) σ) (busy : ¬ x.Through) (d : Desk ω) :
    ∃ y d', a.Acts source x d y d' := by
  obtain ⟨queue, found, w⟩ := d
  cases x with
  | starting =>
    cases outcome : source.build.run w with
    | mk built w' =>
      cases built with
      | ok s => exact ⟨_, _, .builds outcome⟩
      | error e => exact ⟨_, _, .fails outcome⟩
  | ready s =>
    cases queue with
    | nil => exact ⟨_, _, .retires (Eq.refl ((source.finish.run s).run w))⟩
    | cons job rest => exact ⟨_, _, .takes []⟩
  | checking s job => exact ⟨_, _, .checks (Eq.refl (((a.checkJob source.verifier job).run s).run w))⟩
  | reporting s outcome => exact ⟨_, _, .reports⟩
  | refused => exact absurd (.inl rfl) busy
  | retired => exact absurd (.inr rfl) busy

/-- From wherever a pool has got to, it can settle; and no step can be made for ever. -/
theorem exists_settled (a : Audit) (source : VerifierSource (StateM ω) σ) (p : Pool ω σ) :
    ∃ q, a.Develops source p q ∧ q.Settled := by
  induction size : (p.workers.map effort).sum + 3 * p.desk.queue.length using Nat.strongRecOn
    generalizing p with
  | _ size ih =>
    by_cases settled : p.Settled
    · exact ⟨p, .refl, settled⟩
    · simp only [Pool.Settled, not_forall] at settled
      obtain ⟨x, member, busy⟩ := settled
      obtain ⟨before, after, split⟩ := append_of_mem member
      obtain ⟨y, d', acts⟩ := acts_of_not_through source busy p.desk
      have step : a.Step source p ⟨before ++ y :: after, d'⟩ := by
        have whole : p = ⟨before ++ x :: after, p.desk⟩ := by rw [← split]
        rw [whole]
        exact .act before acts
      have less := acts_effort acts
      obtain ⟨q, develops, settled⟩ := ih _ (by
        rw [← size, split]
        simp only [map_append, map_cons, sum_append, sum_cons]
        omega) ⟨before ++ y :: after, d'⟩ rfl
      exact ⟨q, .head step develops, settled⟩

/-- Where verifiers answer by a fixed function and one verifier can be had, the audit by many workers reports the
same list as the audit by one, under every schedule. -/
theorem shared_audit_reports_the_same (fixed : source.AnswersAs answer) {program : Program} {contract : String}
    {document : RuleDocument} {only : Option String} {a : Audit}
    (known : Audit.ofName program contract document only = .ok a) {s : σ} {w v : ω}
    (builds : Returns source.build w (.ok s) v) (asked : Option Nat) (cores : Nat) (start : ω) :
    ∃ vs, (∃ w', Returns (named source program contract document only) w (.ok vs) w') ∧
      (∀ schedule states v', states ≠ [] →
        Returns (buildWorkers source (workerCount asked cores a.jobs.length)) start states v' →
        ∃ w', Returns (namedShared source schedule asked cores program contract document only) start (.ok vs) w') ∧
      ∀ p, a.Develops source (a.pool σ (workerCount asked cores a.jobs.length) start) p →
        (∃ q, a.Develops source p q ∧ q.Settled) ∧ (p.Settled → .retired ∈ p.workers → a.reportOf p = vs) := by
  refine ⟨a.report answer, ?_, ?_, ?_⟩
  · unfold named
    rw [known]
    exact a.run_returns fixed builds
  · intro schedule states v' some_worker building
    obtain ⟨w', runs⟩ := a.runShared_returns fixed schedule building some_worker
    refine ⟨w', ?_⟩
    unfold namedShared
    rw [known]
    exact returns_bind.mpr ⟨_, w', runs, rfl⟩
  · intro p develops
    refine ⟨exists_settled a source p, fun settled retired => ?_⟩
    have balanced := (balanced_pool _ start).develops fixed develops
    exact Violation.sort_eq_of_perm ((balanced.found settled retired).append_left _)

def vault : Contract := { name := "Vault" }

def returnsTrue : Json :=
  .obj [("ret_val", .obj [("type", .str "ConstantSelector"), ("value", .bool true)]), ("type", .str "ReturnVerify")]

def vaultRules : RuleDocument where
  name := "vault"
  functions := ["function total()"]
  events := []
  rules := [⟨"open confirms", .ret, "function open()", none, some returnsTrue⟩,
    ⟨"close confirms", .ret, "function close()", none, some returnsTrue⟩]

def vaultAudit : Audit := ⟨⟨[vault]⟩, 0, vault, vaultRules, none⟩

def scarce : VerifierSource (StateM Nat) Unit where
  build := modifyGet fun n => (if n % 2 = 0 then .ok () else .error .noProgram, n + 1)
  verifier := ⟨fun _ _ _ => pure (.ok false)⟩
  finish := pure ()

theorem scarce_pool_reports_the_same : ∃ vs,
    (∃ w', Returns (named scarce ⟨[vault]⟩ "Vault" vaultRules none) 0 (.ok vs) w') ∧
    (∃ w', Returns (namedShared scarce id none 2 ⟨[vault]⟩ "Vault" vaultRules none) 1 (.ok vs) w') ∧
    ∀ p, vaultAudit.Develops scarce (vaultAudit.pool Unit 2 1) p → p.Settled → .retired ∈ p.workers →
      vaultAudit.reportOf p = vs := by
  have fixed : scarce.AnswersAs fun _ _ _ => .ok false := fun s _ _ _ _ w => ⟨s, w, rfl⟩
  have known : Audit.ofName ⟨[vault]⟩ "Vault" vaultRules none = .ok vaultAudit := rfl
  have builds : Returns scarce.build 0 (.ok ()) 1 := rfl
  have two : workerCount none 2 vaultAudit.jobs.length = 2 := by decide
  -- of the two workers the first gets no verifier
  have building : Returns (buildWorkers scarce 2) 1 [()] 3 := rfl
  obtain ⟨vs, one, many, pool⟩ := shared_audit_reports_the_same fixed known builds none 2 1
  exact ⟨vs, one, many id [()] 3 (by simp) building, fun p develops => (pool p develops).2⟩

end Audit

end TokenAudit
