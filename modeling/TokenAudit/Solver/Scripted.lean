import TokenAudit.Solver.Propositional
import TokenAudit.Solver.Script

/-!
# Scripted solvers

A solver that gives prepared answers and writes down what it was asked.
-/

namespace TokenAudit

inductive ScriptedReply where
  | answer (result : SatResult)
  | refuse (text : String)
  | decide
  deriving DecidableEq, Repr

inductive ScriptedModel where
  | absent
  | closed
  | uniform (value : ModelValue)
  | empty
  deriving DecidableEq, Repr

inductive ScriptedQuery where
  | check (assertions : List Term) (outcome : Except SolverError SatResult)
  | model (assertions terms : List Term) (number : Nat)

structure ScriptedState where
  replies : List ScriptedReply
  /-- The reply once the prepared ones are used up. -/
  rest : ScriptedReply
  models : List ScriptedModel
  modelQueries : Nat
  /-- Latest first. -/
  asked : List ScriptedQuery

namespace Scripted

def start (replies : List ScriptedReply) (rest : ScriptedReply) (models : List ScriptedModel) : ScriptedState :=
  ⟨replies, rest, models, 0, []⟩

def outcomeOf (reply : ScriptedReply) (assertions : List Term) : Except SolverError SatResult :=
  match reply with
  | .answer result => .ok result
  | .refuse text => .error (.reported text)
  | .decide => .ok (if propositionallySatisfiable assertions then .sat else .unsat)

def checkSat (assertions : List Term) : StateM ScriptedState (Except SolverError SatResult) := do
  let s ← get
  match Script.ofTerms assertions [] with
  | .error e =>
    set { s with asked := .check assertions (.error e) :: s.asked }
    pure (.error e)
  | .ok _ =>
    let outcome := outcomeOf (s.replies.headD s.rest) assertions
    set { s with replies := s.replies.drop 1, asked := .check assertions outcome :: s.asked }
    pure outcome

def modelOf (reply : ScriptedModel) (terms : List Term) : Except SolverError (Option Model) :=
  match reply with
  | .absent => .ok none
  | .closed => .error .closed
  | .uniform value => .ok (some ⟨terms.map fun t => (t, value)⟩)
  | .empty => .ok (some ⟨[]⟩)

def model (assertions terms : List Term) : StateM ScriptedState (Except SolverError (Option Model)) := do
  let s ← get
  set { s with
    models := s.models.drop 1
    modelQueries := s.modelQueries + 1
    asked := .model assertions terms s.modelQueries :: s.asked }
  pure (modelOf (s.models.headD .absent) terms)

end Scripted

def scriptedSolver : Solver (StateM ScriptedState) := ⟨Scripted.checkSat, Scripted.model⟩

end TokenAudit
