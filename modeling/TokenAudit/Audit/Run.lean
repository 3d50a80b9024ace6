import TokenAudit.Audit.Interface
import TokenAudit.Audit.Plan
import TokenAudit.Verify.Run

/-!
# Audits

An audit checks a contract against a document: first the interface, then every job of the plan.  A check
without a verdict is no violation.  Several workers may share the jobs; each has a verifier of its own.
-/

namespace TokenAudit

structure VerifierSource (m : Type → Type) (σ : Type) where
  build : m (Except VerifyError σ)
  verifier : Verifier (StateT σ m)
  /-- Run when a verifier has done its last job. -/
  finish : StateT σ m Unit

structure Audit where
  program : Program
  contractId : Nat
  contract : Contract
  document : RuleDocument
  only : Option String

namespace Audit

def ofName (program : Program) (contract : String) (document : RuleDocument) (only : Option String) :
    Except VerifyError Audit :=
  match (program.contractIndex? contract).bind fun i => (program.contract? i).map fun c => (i, c) with
  | some (i, c) => .ok ⟨program, i, c, document, only⟩
  | none => .error (.contractNotFound contract)

def interface (a : Audit) : List Violation := interfaceViolations a.contract a.document

def jobs (a : Audit) : List Job := plan a.program a.contractId a.contract a.only a.document

def violationOf (a : Audit) (job : Job) : Violation where
  document := a.document.name
  ruleId := job.ruleId
  kind := job.rule.kind
  rule := job.rule.text
  contract := a.contract.name
  interface := job.rule.interface
  function := some job.function
  severity := .ofKind job.rule.kind
  tags := ["function"]

variable {m : Type → Type} [Monad m] {σ : Type}

def checkJob (a : Audit) (v : Verifier m) (job : Job) : m (Option Violation) := do
  match ← v.run a.contract.name job.target job.check with
  | .ok false => pure (some (a.violationOf job))
  | _ => pure none

def checkJobs (a : Audit) (v : Verifier m) : List Job → m (List Violation)
  | [] => pure []
  | job :: rest => do
    let found ← a.checkJob v job
    let others ← a.checkJobs v rest
    pure (found.toList ++ others)

def work (a : Audit) (source : VerifierSource m σ) (start : σ) (jobs : List Job) : m (List Violation) := do
  let (found, state) ← (a.checkJobs source.verifier jobs).run start
  let _ ← source.finish.run state
  pure found

def run (a : Audit) (source : VerifierSource m σ) : m (Except VerifyError (List Violation)) := do
  match ← source.build with
  | .error e => pure (.error e)
  | .ok start => return .ok (Violation.sort (a.interface ++ (← a.work source start a.jobs)))

/-! ## Several workers -/

def workerCount (asked : Option Nat) (cores jobs : Nat) : Nat := max 1 (min (asked.getD cores) (max 1 jobs))

def buildWorkers (source : VerifierSource m σ) : Nat → m (List σ)
  | 0 => pure []
  | count + 1 => do
    let built ← source.build
    let others ← buildWorkers source count
    match built with
    | .ok start => pure (start :: others)
    | .error _ => pure others

/-- The jobs that fall to worker `k` of `count`, in order.  The schedule names a worker for each job. -/
def share (schedule : Nat → Nat) (count k : Nat) (jobs : List Job) : List Job :=
  (jobs.zipIdx.filter fun (_, i) => schedule i % count == k).map Prod.fst

def workAll (a : Audit) (source : VerifierSource m σ) (schedule : Nat → Nat) (count : Nat) (jobs : List Job) :
    List (σ × Nat) → m (List Violation)
  | [] => pure []
  | (start, k) :: rest => do
    let found ← a.work source start (share schedule count k jobs)
    let others ← a.workAll source schedule count jobs rest
    pure (found ++ others)

/-- A schedule tells which of the working workers takes a job; if none could be built, no job is done. -/
def runShared (a : Audit) (source : VerifierSource m σ) (schedule : Nat → Nat) (workers : Nat) :
    m (List Violation) := do
  let states ← buildWorkers source workers
  return Violation.sort (a.interface ++ (← a.workAll source schedule states.length a.jobs states.zipIdx))

end Audit

end TokenAudit
