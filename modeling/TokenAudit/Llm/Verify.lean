import TokenAudit.Llm.Verdict
import TokenAudit.Verify.Run

/-!
# Asking a language model

A language model is shown the function, the check, and the formula that holds exactly on a violation.
-/

namespace TokenAudit

structure Assistant (m : Type → Type) where
  ask : String → m (Except LlmError String)

namespace Llm

def question (name contract source : String) (check : Check) (buggy : Option Term) : String :=
  "By given the following solidity code for \"" ++ name ++ "\" in contract " ++ contract ++ ":\"\"\"\n" ++
    source ++ "\n\"\"\"\n" ++ "Check if the code violated the rule " ++ check.toJson.compact ++
    (match buggy with
     | some b => ", which is violated exactly when the following holds on some path: " ++ b.smt
     | none => "") ++
    ". Return in \"YES\" or \"NO\".\n"

def prompt (program : Option Program) (config : Config) (contract : String) (target : Target) (check : Check) :
    Except VerifyError (Option String) := do
  let prepared ← prepare program config contract target check
  let f := prepared.subject.function
  return f.source.map fun source => question f.name contract source check prepared.buggy?

def judgeAnswer (answer : String) : Except VerifyError Bool :=
  match verdict? answer with
  | some violated => .ok !violated
  | none => .error (.llm (.inconclusive answer))

def verifier {m : Type → Type} [Monad m] (assistant : Assistant m) (program : Option Program) (config : Config) :
    Verifier m where
  run contract target check :=
    match prompt program config contract target check with
    | .error e => pure (.error e)
    | .ok none => pure (.error (.missingSource contract target.describe))
    | .ok (some text) => do
      match ← assistant.ask text with
      | .error e => pure (.error (.llm e))
      | .ok answer => pure (judgeAnswer answer)

end Llm

end TokenAudit
