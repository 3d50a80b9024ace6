import TokenAudit.Cli.Run

/-!
# The program

A solver is reached through two pipes, named after its command with the endings `.in` and `.out`.
-/

namespace TokenAudit.Cli

structure Pipes where
  toSolver : IO.FS.Handle
  fromSolver : IO.FS.Handle

def describing {α : Type} (action : IO α) : IO (Except String α) := do
  match ← action.toBaseIO with
  | .ok a => pure (.ok a)
  | .error e => pure (.error (toString e))

def reading {α : Type} (action : IO α) : IO (Except SolverError α) := do
  return (← describing action).mapError SolverError.transport

partial def linesUntil (isLast : String → Bool) (source : IO.FS.Handle) (lines : List String) :
    IO (Option (List String)) := do
  let line ← source.getLine
  if line.isEmpty then pure none
  else if isLast line then pure (some lines.reverse)
  else linesUntil isLast source (line :: lines)

def pipeChannel (state : IO.Ref (Option Pipes)) (command : String) : Channel IO where
  start _ := do
    let opened ← describing do
      let toSolver ← IO.FS.Handle.mk (command ++ ".in") .write
      let fromSolver ← IO.FS.Handle.mk (command ++ ".out") .read
      state.set (some ⟨toSolver, fromSolver⟩)
    pure (opened.mapError fun detail => .spawn command detail)
  send text := do
    match ← state.get with
    | none => pure (.error .closed)
    | some pipes => reading do
      pipes.toSolver.putStr text
      pipes.toSolver.flush
  receive isLast := do
    match ← state.get with
    | none => pure (.error .closed)
    | some pipes => reading (linesUntil isLast pipes.fromSolver [])

def fileReader : FileReader IO := ⟨fun path => describing (IO.FS.readFile path)⟩

def pipesExist (command : String) : IO Bool := do
  match ← describing (do
      let _ ← IO.FS.realPath (command ++ ".in")
      let _ ← IO.FS.realPath (command ++ ".out")) with
  | .ok _ => pure true
  | .error _ => pure false

def llmAccess : LlmAccess IO where
  key? name := IO.getEnv name
  assistant settings _ := ⟨fun _ => pure (.error (.request ("no connection to " ++ settings.endpoint)))⟩

def worldOf (state : IO.Ref (Option Pipes)) : Environment IO where
  files := fileReader
  solverAnswers := pipesExist
  channel := pipeChannel state
  clock := ⟨IO.monoNanosNow⟩
  llm := llmAccess
  cores := pure 1

end TokenAudit.Cli

def main (args : List String) : IO UInt32 := do
  let state ← IO.mkRef none
  let invocation := toString (← IO.appPath)
  let outcome ← TokenAudit.Cli.run (TokenAudit.Cli.worldOf state) invocation args
  (← IO.getStderr).putStr outcome.errors
  (← IO.getStdout).putStr outcome.output
  pure outcome.exitCode.toUInt32
