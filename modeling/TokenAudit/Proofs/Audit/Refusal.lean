import TokenAudit.Audit.Source
import TokenAudit.Proofs.Audit.Pool

/-!
# Audits without a verifier

An audit by one verifier fails when no verifier can be had.
-/

namespace TokenAudit

open List

variable {ω σ : Type} {a : Audit} {source : VerifierSource (StateM ω) σ} {e : VerifyError}

def VerifierSource.Refuses (source : VerifierSource (StateM ω) σ) (e : VerifyError) : Prop :=
  ∀ w, ∃ w', Returns source.build w (.error e) w'

namespace Audit

theorem buildWorkers_refused (refuses : source.Refuses e) (count : Nat) (w : ω) :
    ∃ w', Returns (buildWorkers source count) w [] w' := by
  induction count generalizing w with
  | zero => exact ⟨w, rfl⟩
  | succ count ih =>
    obtain ⟨w₁, refused⟩ := refuses w
    obtain ⟨w₂, others⟩ := ih w₁
    exact ⟨w₂, returns_bind.mpr ⟨_, w₁, refused, returns_bind.mpr ⟨[], w₂, others, rfl⟩⟩⟩

theorem runShared_refused (a : Audit) (refuses : source.Refuses e) (schedule : Nat → Nat) (workers : Nat) (w : ω) :
    ∃ w', Returns (a.runShared source schedule workers) w (Violation.sort a.interface) w' := by
  obtain ⟨w', builds⟩ := buildWorkers_refused refuses workers w
  refine ⟨w', returns_bind.mpr ⟨[], w', builds, returns_bind.mpr ⟨[], w', rfl, returns_pure.mpr ⟨?_, rfl⟩⟩⟩⟩
  rw [append_nil]

structure Untouched (a : Audit) (p : Pool ω σ) : Prop where
  workers : ∀ x ∈ p.workers, x = .starting ∨ x = .refused
  queue : p.desk.queue = a.jobs
  found : p.desk.found = []

theorem Untouched.step (refuses : source.Refuses e) {p q : Pool ω σ} (untouched : Untouched a p)
    (step : a.Step source p q) : Untouched a q := by
  cases step with
  | @act before after x y d d' acts =>
    have actor := untouched.workers x (by simp)
    cases acts with
    | @builds queue found w w' s built =>
      obtain ⟨w₁, refused⟩ := refuses w
      exact nomatch (built.unique refused).1
    | fails failed =>
      refine ⟨fun z member => ?_, untouched.queue, untouched.found⟩
      rcases mem_append.mp member with old | new
      · exact untouched.workers z (mem_append_left _ old)
      rcases mem_cons.mp new with rfl | old
      · exact .inr rfl
      · exact untouched.workers z (mem_append_right _ (mem_cons_of_mem _ old))
    | takes _ | checks _ | reports | retires _ =>
      rcases actor with impossible | impossible <;> cases impossible

theorem untouched_of_refuses (refuses : source.Refuses e) {count : Nat} {w : ω} {p : Pool ω σ}
    (develops : a.Develops source (a.pool σ count w) p) : Untouched a p := by
  induction develops with
  | refl => exact ⟨fun x member => .inl (eq_of_mem_replicate member), rfl, rfl⟩
  | tail _ last ih => exact ih.step refuses last

theorem ofName_error {program : Program} {contract : String} {document : RuleDocument} {only : Option String}
    (unknown : ofName program contract document only = .error e) : e = .contractNotFound contract := by
  unfold ofName at unknown
  split at unknown
  · cases unknown
  · cases unknown
    rfl

/-- With a source that always gives the same, the audit by several workers fails where the audit by one does only if the
contract is unknown; without a verifier, the workers report the violations of the interface. -/
theorem shared_audit_fails_only_without_contract
    (deterministic : ∀ w v : ω, (source.build.run w).1 = (source.build.run v).1) {program : Program}
    {contract : String} {document : RuleDocument} {only : Option String} {w w' : ω}
    (failed : Returns (named source program contract document only) w (.error e) w') (schedule : Nat → Nat)
    (asked : Option Nat) (cores : Nat) (start : ω) :
    (ofName program contract document only = .error (.contractNotFound contract) ∧ e = .contractNotFound contract ∧
      ∃ v, Returns (namedShared source schedule asked cores program contract document only) start (.error e) v) ∨
    ∃ a, ofName program contract document only = .ok a ∧ source.Refuses e ∧
      (∃ v, Returns (namedShared source schedule asked cores program contract document only) start
        (.ok (Violation.sort a.interface)) v) ∧
      ∀ p, a.Develops source (a.pool σ (workerCount asked cores a.jobs.length) start) p →
        p.desk.queue = a.jobs ∧ a.reportOf p = Violation.sort a.interface := by
  unfold named at failed
  unfold namedShared
  cases found : ofName program contract document only with
  | error e' =>
    rw [found] at failed
    obtain ⟨same, _⟩ := returns_pure.mp failed
    cases same
    have missing := ofName_error found
    exact .inl ⟨by rw [missing], missing, start, rfl⟩
  | ok a =>
    rw [found] at failed
    obtain ⟨built, v, builds, failed⟩ := failed.of_bind
    cases built with
    | ok s =>
      obtain ⟨_, _, _, ends⟩ := failed.of_bind
      exact nomatch ends.of_pure
    | error e' =>
      obtain ⟨same, _⟩ := returns_pure.mp failed
      cases same
      have refuses : source.Refuses e := by
        intro u
        have there : (source.build.run w).1 = .error e := by rw [show source.build.run w = _ from builds]
        exact ⟨(source.build.run u).2, Prod.ext ((deterministic u w).trans there) rfl⟩
      obtain ⟨v', shared⟩ := a.runShared_refused refuses schedule (workerCount asked cores a.jobs.length) start
      refine .inr ⟨a, rfl, refuses, ⟨v', returns_bind.mpr ⟨_, v', shared, rfl⟩⟩, fun p develops => ?_⟩
      have untouched := untouched_of_refuses refuses develops
      refine ⟨untouched.queue, ?_⟩
      rw [reportOf, untouched.found, append_nil]

def keyless : LlmAccess (StateM Unit) where
  key? _ := pure none
  assistant _ _ := ⟨fun _ => pure (.ok "")⟩

def keylessSource : VerifierSource (StateM Unit) String := llmSource keyless ⟨[vault]⟩ default

theorem keyless_workers_report_interface :
    Returns (named keylessSource ⟨[vault]⟩ "Vault" vaultRules none) ()
        (.error (.llm (.missingKey "OPENAI_API_KEY"))) () ∧
      ∃ v, Returns (namedShared keylessSource id none 4 ⟨[vault]⟩ "Vault" vaultRules none) ()
        (.ok (Violation.sort vaultAudit.interface)) v := by
  have failed : Returns (named keylessSource ⟨[vault]⟩ "Vault" vaultRules none) ()
      (.error (.llm (.missingKey "OPENAI_API_KEY"))) () := rfl
  refine ⟨failed, ?_⟩
  have deterministic : ∀ w v : Unit, (keylessSource.build.run w).1 = (keylessSource.build.run v).1 := fun _ _ => rfl
  rcases shared_audit_fails_only_without_contract deterministic failed id none 4 () with
    ⟨unknown, _⟩ | ⟨a, known, _, shared, _⟩
  · cases unknown
  · cases known
    exact shared

/-- Both rules of the vault stay unchecked, and the report of the workers does not say so. -/
theorem keyless_jobs_unchecked :
    vaultAudit.jobs.length = 2 ∧
      Returns (named keylessSource ⟨[vault]⟩ "Vault" vaultRules none) ()
        (.error (.llm (.missingKey "OPENAI_API_KEY"))) () ∧
      ((namedShared keylessSource id (some 2) 4 ⟨[vault]⟩ "Vault" vaultRules none).run ()).1.toOption =
        some [Interface.violation "vault" vault 0 "function total()" .noFunction] := by
  refine ⟨by decide, rfl, ?_⟩
  decide +kernel

end Audit

end TokenAudit
