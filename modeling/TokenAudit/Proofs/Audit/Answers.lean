import Mathlib.Data.List.Perm.Subperm
import TokenAudit.Audit.Run
import TokenAudit.Proofs.Audit.Order
import TokenAudit.Proofs.World

/-!
# What an audit reports

Verifiers that answer every question by a fixed function make the report a function of the jobs: the violations of the
interface and the verdict on each job, in order.
-/

namespace TokenAudit

open List

variable {ω σ : Type}

namespace VerifierSource

inductive Serves (source : VerifierSource (StateM ω) σ) : σ → Prop
  | built {s : σ} {w w' : ω} (builds : Returns source.build w (.ok s) w') : Serves source s
  | used {s s' : σ} {w w' : ω} {contract : String} {target : Target} {check : Check}
      {answer : Except VerifyError Bool} (serves : Serves source s)
      (answers : Returns ((source.verifier.run contract target check).run s) w (answer, s') w') : Serves source s'

/-- Every verifier that the source builds answers by the function, whatever it was asked before and whatever
happens around it. -/
def AnswersAs (source : VerifierSource (StateM ω) σ)
    (answer : String → Target → Check → Except VerifyError Bool) : Prop :=
  ∀ s, source.Serves s → ∀ contract target check w, ∃ s' w',
    Returns ((source.verifier.run contract target check).run s) w (answer contract target check, s') w'

end VerifierSource

namespace Audit

variable (a : Audit) {source : VerifierSource (StateM ω) σ} {answer : String → Target → Check → Except VerifyError Bool}
  {states : List σ} {count : Nat}

def verdict (answer : String → Target → Check → Except VerifyError Bool) (job : Job) : Option Violation :=
  match answer a.contract.name job.target job.check with
  | .ok false => some (a.violationOf job)
  | _ => none

def report (answer : String → Target → Check → Except VerifyError Bool) : List Violation :=
  Violation.sort (a.interface ++ a.jobs.filterMap (a.verdict answer))

section

variable (fixed : source.AnswersAs answer) {s : σ}

include fixed

theorem checkJob_returns (serves : source.Serves s) (job : Job) (w : ω) :
    ∃ s' w', Returns ((a.checkJob source.verifier job).run s) w (a.verdict answer job, s') w' ∧
      source.Serves s' := by
  obtain ⟨s', w', answers⟩ := fixed s serves a.contract.name job.target job.check w
  refine ⟨s', w', ?_, .used serves answers⟩
  unfold checkJob verdict
  rw [StateT.run_bind]
  refine returns_bind.mpr ⟨_, w', answers, ?_⟩
  rcases answer a.contract.name job.target job.check with e | _ | _ <;> rfl

theorem checkJobs_returns (serves : source.Serves s) (jobs : List Job) (w : ω) :
    ∃ s' w', Returns ((a.checkJobs source.verifier jobs).run s) w (jobs.filterMap (a.verdict answer), s') w' := by
  induction jobs generalizing s w with
  | nil => exact ⟨s, w, rfl⟩
  | cons job rest ih =>
    obtain ⟨s₁, w₁, first, serves⟩ := a.checkJob_returns fixed serves job w
    obtain ⟨s₂, w₂, others⟩ := ih serves w₁
    refine ⟨s₂, w₂, ?_⟩
    rw [checkJobs, StateT.run_bind]
    refine returns_bind.mpr ⟨_, w₁, first, ?_⟩
    rw [StateT.run_bind]
    refine returns_bind.mpr ⟨_, w₂, others, ?_⟩
    rw [filterMap_cons]
    cases a.verdict answer job <;> rfl

theorem work_returns (serves : source.Serves s) (jobs : List Job) (w : ω) :
    ∃ w', Returns (a.work source s jobs) w (jobs.filterMap (a.verdict answer)) w' := by
  obtain ⟨s', w', checks⟩ := a.checkJobs_returns fixed serves jobs w
  exact ⟨_, returns_bind.mpr ⟨_, w', checks, returns_bind.mpr ⟨_, _, rfl, rfl⟩⟩⟩

theorem run_returns {w v : ω} (builds : Returns source.build w (.ok s) v) :
    ∃ w', Returns (a.run source) w (.ok (a.report answer)) w' := by
  obtain ⟨w', works⟩ := a.work_returns fixed (.built builds) a.jobs v
  exact ⟨w', returns_bind.mpr ⟨_, v, builds, returns_bind.mpr ⟨_, w', works, rfl⟩⟩⟩

end

theorem flatMap_filter_perm {α : Type} (worker : α → Nat) (places : List α) {ks : List Nat} (apart : ks.Nodup) :
    (ks.flatMap fun k => places.filter (worker · == k)).Perm (places.filter (worker · ∈ ks)) := by
  induction ks with
  | nil => simp
  | cons k rest ih =>
    obtain ⟨fresh, apart⟩ := nodup_cons.mp apart
    have here : (places.filter (worker · ∈ k :: rest)).filter (worker · == k) = places.filter (worker · == k) := by
      rw [filter_filter]
      refine filter_congr fun place _ => ?_
      by_cases mine : worker place = k <;> simp [mine]
    have others : (places.filter (worker · ∈ k :: rest)).filter (fun place => !(worker place == k)) =
        places.filter (worker · ∈ rest) := by
      rw [filter_filter]
      refine filter_congr fun place _ => ?_
      by_cases mine : worker place = k <;> simp [mine, fresh]
    have both := filter_append_perm (worker · == k) (places.filter (worker · ∈ k :: rest))
    rw [here, others] at both
    exact ((ih apart).append_left _).trans both

theorem share_perm (schedule : Nat → Nat) (some_worker : 0 < count) (jobs : List Job) :
    ((List.range count).flatMap fun k => share schedule count k jobs).Perm jobs := by
  have classes := flatMap_filter_perm (fun place : Job × Nat => schedule place.2 % count) jobs.zipIdx
    (nodup_range (n := count))
  have all : jobs.zipIdx.filter (fun place => schedule place.2 % count ∈ List.range count) = jobs.zipIdx := by
    refine filter_eq_self.mpr fun place _ => ?_
    simpa using Nat.mod_lt _ some_worker
  have listed := (all ▸ classes).map Prod.fst
  rwa [map_flatMap, zipIdx_map_fst] at listed

theorem workAll_returns (fixed : source.AnswersAs answer) (schedule : Nat → Nat) (count : Nat) (jobs : List Job)
    (states : List (σ × Nat)) (serve : ∀ state ∈ states, source.Serves state.1) (w : ω) :
    ∃ w', Returns (a.workAll source schedule count jobs states) w
      ((states.flatMap fun state => share schedule count state.2 jobs).filterMap (a.verdict answer)) w' := by
  induction states generalizing w with
  | nil => exact ⟨w, rfl⟩
  | cons state rest ih =>
    obtain ⟨start, k⟩ := state
    obtain ⟨w₁, works⟩ := a.work_returns fixed (serve _ (mem_cons_self ..)) (share schedule count k jobs) w
    obtain ⟨w₂, others⟩ := ih (fun state member => serve state (mem_cons_of_mem _ member)) w₁
    refine ⟨w₂, ?_⟩
    rw [flatMap_cons, filterMap_append]
    exact returns_bind.mpr ⟨_, w₁, works, returns_bind.mpr ⟨_, w₂, others, rfl⟩⟩

theorem buildWorkers_serve {w w' : ω}
    (builds : Returns (buildWorkers source count) w states w') : ∀ s ∈ states, source.Serves s := by
  induction count generalizing states w w' with
  | zero =>
    obtain ⟨rfl, _⟩ := returns_pure.mp builds
    simp
  | succ count ih =>
    obtain ⟨built, w₁, first, builds⟩ := builds.of_bind
    obtain ⟨others, w₂, rest, builds⟩ := builds.of_bind
    cases built with
    | error e =>
      obtain ⟨rfl, _⟩ := returns_pure.mp builds
      exact ih rest
    | ok start =>
      obtain ⟨rfl, _⟩ := returns_pure.mp builds
      exact forall_mem_cons.mpr ⟨.built first, ih rest⟩

theorem runShared_returns (fixed : source.AnswersAs answer) (schedule : Nat → Nat) {workers : Nat} {w v : ω}
    (builds : Returns (buildWorkers source workers) w states v) (some_worker : states ≠ []) :
    ∃ w', Returns (a.runShared source schedule workers) w (a.report answer) w' := by
  have serve : ∀ state ∈ states.zipIdx, source.Serves state.1 := by
    intro state member
    exact buildWorkers_serve builds state.1 (fst_mem_of_mem_zipIdx member)
  obtain ⟨w', works⟩ := a.workAll_returns fixed schedule states.length a.jobs states.zipIdx serve v
  have places : (states.zipIdx.flatMap fun state => share schedule states.length state.2 a.jobs) =
      (List.range states.length).flatMap fun k => share schedule states.length k a.jobs := by
    rw [range_eq_range', ← zipIdx_map_snd 0 states, flatMap_map]
  have shared := share_perm schedule (length_pos_iff.mpr some_worker) a.jobs
  rw [places] at works
  refine ⟨w', returns_bind.mpr ⟨states, v, builds, returns_bind.mpr ⟨_, w', works, returns_pure.mpr ⟨?_, rfl⟩⟩⟩⟩
  exact Violation.sort_eq_of_perm ((shared.filterMap _).append_left _)

def named (source : VerifierSource (StateM ω) σ) (program : Program) (contract : String) (document : RuleDocument)
    (only : Option String) : StateM ω (Except VerifyError (List Violation)) :=
  match ofName program contract document only with
  | .ok a => a.run source
  | .error e => pure (.error e)

def namedShared (source : VerifierSource (StateM ω) σ) (schedule : Nat → Nat) (asked : Option Nat) (cores : Nat)
    (program : Program) (contract : String) (document : RuleDocument) (only : Option String) :
    StateM ω (Except VerifyError (List Violation)) :=
  match ofName program contract document only with
  | .ok a => do return .ok (← a.runShared source schedule (workerCount asked cores a.jobs.length))
  | .error e => pure (.error e)

end Audit

end TokenAudit
