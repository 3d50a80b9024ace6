import TokenAudit.Audit.Run
import TokenAudit.Llm.Verify
import TokenAudit.Solver.Dialogue

/-!
# Sources of verifiers

Verifiers that talk to a solver process, and verifiers that ask a language model.
-/

namespace TokenAudit

variable {m : Type → Type} [Monad m]

def Clock.lift {σ : Type} (clock : Clock m) : Clock (StateT σ m) := ⟨StateT.lift clock.now⟩

def symbolicSource (channel : Channel m) (clock : Clock m) (program : Program) (config : Config) :
    VerifierSource m Session where
  build := pure (.ok .initial)
  verifier := symbolicVerifier (channel.solver config.solver.timeoutMs) clock.lift (some program) config
  finish := Dialogue.close channel

structure LlmAccess (m : Type → Type) where
  key? : String → m (Option String)
  assistant : LlmConfig → String → Assistant m

/-- Verifiers that ask a language model.  Without an access key there are none. -/
def llmSource (access : LlmAccess m) (program : Program) (config : Config) : VerifierSource m String where
  build := do
    let settings := config.llm.getD {}
    match ← access.key? settings.keyVariable with
    | some key => pure (.ok key)
    | none => pure (.error (.llm (.missingKey settings.keyVariable)))
  verifier :=
    { run := fun contract target check => do
        let assistant := access.assistant (config.llm.getD {}) (← get)
        (Llm.verifier assistant (some program) config).run contract target check }
  finish := pure ()

end TokenAudit
