import TokenAudit.Audit.Source
import TokenAudit.Cli.Arguments
import TokenAudit.Files

/-!
# The command line

One run of the auditor: arguments in, a report or a complaint out.  Files, the solver and the language
model are reached through an environment.
-/

namespace TokenAudit.Cli

structure Environment (m : Type → Type) where
  files : FileReader m
  /-- Whether a solver answers under that command. -/
  solverAnswers : String → m Bool
  /-- The way to talk to the solver behind a command. -/
  channel : String → Channel m
  clock : Clock m
  llm : LlmAccess m
  cores : m Nat

structure Outcome where
  exitCode : Nat
  output : String
  errors : String
  deriving DecidableEq, Repr

namespace Outcome

def report (violations : List Violation) : Outcome :=
  ⟨0, (Json.arr (violations.map Violation.toJson)).pretty ++ "\n", ""⟩

def logged (text : String) : Outcome := ⟨1, "", "[ERROR] " ++ text ++ "\n"⟩

def help (invocation : String) : Outcome := ⟨0, usageText invocation, ""⟩

def complaint (invocation : String) (e : ArgumentError) : Outcome :=
  ⟨1, if e.showsUsage then usageText invocation else "", "Error: " ++ e.message ++ "\n"⟩

end Outcome

def settle (config : Config) (args : Arguments) : Config :=
  { config with
    solver :=
      { config.solver with
        command := args.solver.getD config.solver.command
        timeoutMs := args.timeoutMs.or config.solver.timeoutMs }
    llm := if args.useLlm then some (config.llm.getD {}) else config.llm }

variable {m : Type → Type} [Monad m]

def loadConfig (env : Environment m) (args : Arguments) : m (Except Outcome Config) :=
  match args.configPath with
  | none => pure (.ok {})
  | some path => do
    return (← Config.load env.files path).mapError fun e =>
      .logged ("Failed to load config '" ++ path ++ "': " ++ e.message)

def loadProgram (env : Environment m) (path : String) : m (Except Outcome Program) := do
  return (← Program.load env.files path).mapError fun e =>
    .logged ("Failed to load IR '" ++ path ++ "': " ++ e.message)

def loadRules (env : Environment m) (path : String) : m (Except Outcome RuleDocument) := do
  return (← RuleDocument.load env.files path).mapError fun e =>
    .logged ("Failed to load rules '" ++ path ++ "': " ++ e.message)

def ensureSolver (env : Environment m) (args : Arguments) (config : Config) : m (Except Outcome Unit) := do
  if args.useLlm then pure (.ok ())
  else if ← env.solverAnswers config.solver.command then pure (.ok ())
  else pure (.error (.logged ("Solver '" ++ config.solver.command ++ "' is not available")))

def auditWith (env : Environment m) (args : Arguments) (config : Config) (a : Audit) : m (List Violation) := do
  let workers := Audit.workerCount args.jobs (← env.cores) a.jobs.length
  if args.useLlm then a.runShared (llmSource env.llm a.program config) id workers
  else a.runShared (symbolicSource (env.channel config.solver.command) env.clock a.program config) id workers

def runAudit (env : Environment m) (args : Arguments) : ExceptT Outcome m Outcome := do
  let config := settle (← ExceptT.mk (loadConfig env args)) args
  ExceptT.mk (ensureSolver env args config)
  let program ← ExceptT.mk (loadProgram env args.programPath)
  let document ← ExceptT.mk (loadRules env args.rulesPath)
  match Audit.ofName program args.contract document args.function with
  | .error e => throw (.logged ("Audit of " ++ args.contract ++ " failed: " ++ e.message))
  | .ok a => return .report (← ExceptT.lift (auditWith env args config a))

/-- Runs the command line.  `invocation` is how the program was called. -/
def run (env : Environment m) (invocation : String) (args : List String) : m Outcome :=
  match Arguments.read args with
  | .error e => pure (.complaint invocation e)
  | .ok none => pure (.help invocation)
  | .ok (some args) => do
    match ← (runAudit env args).run with
    | .ok outcome => pure outcome
    | .error outcome => pure outcome

end TokenAudit.Cli
