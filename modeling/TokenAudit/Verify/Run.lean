import TokenAudit.Verify.Judge

/-!
# Verifying a check

One run from preparation to verdict.
-/

namespace TokenAudit

structure Verifier (m : Type → Type) where
  run : String → Target → Check → m (Except VerifyError Bool)

variable {m : Type → Type} [Monad m]

def runPrepared (solver : Solver m) (clock : Clock m) (config : Config) (check : Check) (prepared : Prepared) :
    m (Except VerifyError Bool × List Path) := do
  let paths ← explore solver clock config prepared
  match ← prepared.complete solver paths with
  | .error e => pure (.error (.path e), [])
  | .ok paths => judge solver prepared.subject check paths

def verify (solver : Solver m) (clock : Clock m) (program : Option Program) (config : Config) (contract : String)
    (target : Target) (check : Check) : m (Except VerifyError Bool × List Path) :=
  match prepare program config contract target check with
  | .error e => pure (.error e, [])
  | .ok prepared =>
    if prepared.vacuous then pure (.ok true, []) else runPrepared solver clock config check prepared

def symbolicVerifier (solver : Solver m) (clock : Clock m) (program : Option Program) (config : Config) :
    Verifier m where
  run contract target check := do return (← verify solver clock program config contract target check).1

end TokenAudit
