import TokenAudit.Data.Table
import TokenAudit.Number.Literal
import TokenAudit.Solver.Script
import TokenAudit.Solver.Sexp

/-!
# Dialogue with a solver process

Every query is a script of its own between `push` and `pop`, followed by an `echo` that marks the end of the answer.
The answers to satisfiability queries are remembered by the text of their assertions.
-/

namespace TokenAudit

structure Channel (m : Type → Type) where
  start : List String → m (Except SolverError Unit)
  send : String → m (Except SolverError Unit)
  /-- The output lines before the first one that `isLast` accepts; none when the output ends first. -/
  receive : (isLast : String → Bool) → m (Except SolverError (Option (List String)))

structure Session where
  running : Bool
  remembered : Table String SatResult
  queries : Nat

def Session.initial : Session := ⟨false, .empty, 0⟩

namespace Dialogue

/-! ## Texts -/

def endMarker : String := "ercsym-query-done"

def arguments (timeoutMs : Option Nat) : List String :=
  ["-in", "-smt2"] ++ (timeoutMs.map fun ms => "-t:" ++ toString ms).toList

def greeting : String := "(set-option :produce-models true)\n"

def farewell : String := "(exit)\n"

def trimmed (line : String) : String := String.ofList (Text.trim line.toList)

def isEnd (line : String) : Bool := trimmed line == endMarker

def queryText (script : Script) (terms : List Term) : String :=
  let values :=
    if terms.isEmpty then "" else "(get-value (" ++ " ".intercalate (terms.map Term.smt) ++ "))\n"
  "(push 1)\n" ++ script.render ++ "(check-sat)\n" ++ values ++ "(pop 1)\n" ++
    "(echo \"" ++ endMarker ++ "\")\n"

def rememberedText (assertions : List Term) : String := "\n".intercalate (assertions.map Term.smt)

/-! ## Answers -/

def readAnswer : List String → Except SolverError (SatResult × List String)
  | [] => .error (.unexpected "no check-sat answer")
  | line :: rest =>
    if line == "sat" then .ok (.sat, rest)
    else if line == "unsat" then .ok (.unsat, rest)
    else if line == "unknown" then .ok (.unknown, rest)
    else if Text.startsWith line.toList "(error" then .error (.reported line)
    else .error (.unexpected line)

def numeral? (text : String) : Option Int := Number.readInt text.toList

def modelValue : Sexp → ModelValue
  | .atom text =>
    if text == "true" then .bool true
    else if text == "false" then .bool false
    else
      match numeral? text with
      | some i => .int i
      | none => .other text
  | .list [.atom "-", .atom n] =>
    match numeral? n with
    | some i => .int (-i)
    | none => .other ("(- " ++ n ++ ")")
  | .list items => .other (Sexp.describeList items)

def entry? (t : Term) : Sexp → Option (Term × ModelValue)
  | .list [_, value] => some (t, modelValue value)
  | _ => none

def readModel (terms : List Term) (lines : List String) : Except SolverError Model :=
  let text := " ".intercalate lines
  match Sexp.read text with
  | some (.list entries) => .ok ⟨(terms.zip entries).filterMap fun (t, s) => entry? t s⟩
  | _ => .error (.unexpected text)

/-! ## Queries -/

variable {m : Type → Type} [Monad m]

def ensureRunning (channel : Channel m) (timeoutMs : Option Nat) : StateT Session m (Except SolverError Unit) := do
  if (← get).running then pure (.ok ())
  else
    match ← channel.start (arguments timeoutMs) with
    | .error e => pure (.error e)
    | .ok _ =>
      match ← channel.send greeting with
      | .error e => pure (.error e)
      | .ok _ =>
        modify fun s => { s with running := true }
        pure (.ok ())

def exchange (channel : Channel m) (timeoutMs : Option Nat) (text : String) :
    StateT Session m (Except SolverError (List String)) := do
  match ← ensureRunning channel timeoutMs with
  | .error e => pure (.error e)
  | .ok _ =>
    match ← channel.send text with
    | .error e => pure (.error e)
    | .ok _ =>
      match ← channel.receive isEnd with
      | .error e => pure (.error e)
      | .ok none =>
        modify fun s => { s with running := false }
        pure (.error .closed)
      | .ok (some lines) =>
        modify fun s => { s with queries := s.queries + 1 }
        pure (.ok ((lines.map trimmed).filter fun l => !l.isEmpty))

def query (channel : Channel m) (timeoutMs : Option Nat) (assertions terms : List Term) :
    StateT Session m (Except SolverError (SatResult × List String)) := do
  match Script.ofTerms assertions terms with
  | .error e => pure (.error e)
  | .ok script => return (← exchange channel timeoutMs (queryText script terms)).bind readAnswer

def checkSat (channel : Channel m) (timeoutMs : Option Nat) (assertions : List Term) :
    StateT Session m (Except SolverError SatResult) := do
  let text := rememberedText assertions
  match (← get).remembered.get? text with
  | some result => pure (.ok result)
  | none =>
    match ← query channel timeoutMs assertions [] with
    | .error e => pure (.error e)
    | .ok (result, _) =>
      modify fun s => { s with remembered := s.remembered.insert text result }
      pure (.ok result)

def model (channel : Channel m) (timeoutMs : Option Nat) (assertions terms : List Term) :
    StateT Session m (Except SolverError (Option Model)) := do
  match ← query channel timeoutMs assertions terms with
  | .error e => pure (.error e)
  | .ok (result, lines) =>
    if result = .sat then pure ((readModel terms lines).map some) else pure (.ok none)

def close (channel : Channel m) : StateT Session m Unit := do
  if (← get).running then
    let _ ← channel.send farewell
    modify fun s => { s with running := false }

end Dialogue

def Channel.solver {m : Type → Type} [Monad m] (channel : Channel m) (timeoutMs : Option Nat) :
    Solver (StateT Session m) where
  checkSat := Dialogue.checkSat channel timeoutMs
  model := Dialogue.model channel timeoutMs

end TokenAudit
