import TokenAudit.Program.Format

/-!
# Configuration

Bounds of the exploration, the solver and the language model; what a document leaves out keeps its default.
-/

namespace TokenAudit

open Json

structure SolverConfig where
  command : String := "z3"
  /-- Limit for one query; a query that runs out of time answers `unknown`. -/
  timeoutMs : Option Nat := some 10000
  deriving DecidableEq, Repr, Inhabited

structure LlmConfig where
  endpoint : String := "https://api.openai.com/v1/chat/completions"
  model : String := "gpt-4o"
  keyVariable : String := "OPENAI_API_KEY"
  timeoutSecs : Nat := 120
  deriving DecidableEq, Repr, Inhabited

structure Config where
  /-- How often a path takes the body of one loop. -/
  loopBound : Nat := 2
  /-- Representative lengths of array parameters for throw checks. -/
  throwArrayLengths : List Nat := [1, 2]
  /-- Representative lengths of array parameters for every other check. -/
  arrayLengths : List Nat := [0, 1, 2]
  maxSteps : Nat := 20000
  maxPaths : Nat := 1024
  timeBudgetMs : Option Nat := some 300000
  solver : SolverConfig := {}
  /-- Mappings keyed by owner that read as empty for the zero address. -/
  ownerKeyedVars : List String := ["_operatorApprovals"]
  /-- Approval mappings that never hold the caller. -/
  approvalVars : List String := ["_tokenApprovals"]
  llm : Option LlmConfig := none
  deriving DecidableEq, Repr, Inhabited

namespace SolverConfig

def toJson (c : SolverConfig) : Json :=
  .obj [("command", .str c.command), ("timeout_ms", .ofOption .ofNat c.timeoutMs)]

def ofJson? (j : Json) : Option SolverConfig := do
  let dflt : SolverConfig := {}
  let ms ← j.record? ["command", "timeout_ms"]
  let command ← defaulted ms "command" dflt.command string?
  let timeoutMs ← defaulted ms "timeout_ms" dflt.timeoutMs (nullable? nat?)
  return ⟨command, timeoutMs⟩

end SolverConfig

namespace LlmConfig

def toJson (c : LlmConfig) : Json :=
  .obj [("endpoint", .str c.endpoint), ("model", .str c.model), ("api_key_env", .str c.keyVariable),
    ("timeout_secs", .ofNat c.timeoutSecs)]

def ofJson? (j : Json) : Option LlmConfig := do
  let dflt : LlmConfig := {}
  let ms ← j.record? ["endpoint", "model", "api_key_env", "timeout_secs"]
  let endpoint ← defaulted ms "endpoint" dflt.endpoint string?
  let model ← defaulted ms "model" dflt.model string?
  let keyVariable ← defaulted ms "api_key_env" dflt.keyVariable string?
  let timeoutSecs ← defaulted ms "timeout_secs" dflt.timeoutSecs nat?
  return ⟨endpoint, model, keyVariable, timeoutSecs⟩

end LlmConfig

namespace Config

def toJson (c : Config) : Json :=
  .obj [("loop_bound", .ofNat c.loopBound), ("throw_array_lengths", .arr (c.throwArrayLengths.map .ofNat)),
    ("array_lengths", .arr (c.arrayLengths.map .ofNat)), ("max_steps", .ofNat c.maxSteps),
    ("max_paths", .ofNat c.maxPaths), ("time_budget_ms", .ofOption .ofNat c.timeBudgetMs),
    ("solver", c.solver.toJson), ("msg_sender_keyed_vars", .arr (c.ownerKeyedVars.map .str)),
    ("approval_vars", .arr (c.approvalVars.map .str)), ("llm", .ofOption LlmConfig.toJson c.llm)]

def ofJson? (j : Json) : Option Config := do
  let dflt : Config := {}
  let ms ← j.record? ["loop_bound", "throw_array_lengths", "array_lengths", "max_steps", "max_paths",
    "time_budget_ms", "solver", "msg_sender_keyed_vars", "approval_vars", "llm"]
  let loopBound ← defaulted ms "loop_bound" dflt.loopBound nat?
  let throwArrayLengths ← defaulted ms "throw_array_lengths" dflt.throwArrayLengths (list? nat?)
  let arrayLengths ← defaulted ms "array_lengths" dflt.arrayLengths (list? nat?)
  let maxSteps ← defaulted ms "max_steps" dflt.maxSteps nat?
  let maxPaths ← defaulted ms "max_paths" dflt.maxPaths nat?
  let timeBudgetMs ← defaulted ms "time_budget_ms" dflt.timeBudgetMs (nullable? nat?)
  let solver ← defaulted ms "solver" dflt.solver SolverConfig.ofJson?
  let ownerKeyedVars ← defaulted ms "msg_sender_keyed_vars" dflt.ownerKeyedVars (list? string?)
  let approvalVars ← defaulted ms "approval_vars" dflt.approvalVars (list? string?)
  let llm ← defaulted ms "llm" dflt.llm (nullable? LlmConfig.ofJson?)
  return ⟨loopBound, throwArrayLengths, arrayLengths, maxSteps, maxPaths, timeBudgetMs, solver,
    ownerKeyedVars, approvalVars, llm⟩

def read (text : String) : Except DocumentError Config :=
  match (Json.scan text).bind ofJson? with
  | some c => .ok c
  | none => .error .notDecodable

end Config

end TokenAudit
