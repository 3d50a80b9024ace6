import TokenAudit.Term.Basic

/-!
# Solvers

A solver decides lists of assertions and gives values to terms.
-/

namespace TokenAudit

inductive SolverError where
  | spawn (command detail : String)
  | transport (detail : String)
  | reported (text : String)
  | sortClash (symbol : String)
  | closed
  | unexpected (text : String)
  deriving DecidableEq, Repr

def SolverError.message : SolverError → String
  | .spawn command detail => "failed to start solver `" ++ command ++ "`: " ++ detail
  | .transport detail => "solver i/o failed: " ++ detail
  | .reported text => "solver reported an error: " ++ text
  | .sortClash symbol => "symbol " ++ symbol ++ " is used with two different sorts"
  | .closed => "solver closed its output unexpectedly"
  | .unexpected text => "unexpected solver answer: " ++ text

inductive SatResult where
  | sat
  | unsat
  | unknown
  deriving DecidableEq, Repr

def SatResult.name : SatResult → String
  | .sat => "sat"
  | .unsat => "unsat"
  | .unknown => "unknown"

inductive ModelValue where
  | int (value : Int)
  | bool (value : Bool)
  | other (text : String)
  deriving DecidableEq, Repr

structure Model where
  values : List (Term × ModelValue)
  deriving DecidableEq, Repr

namespace Model

def get? (model : Model) (t : Term) : Option ModelValue :=
  (model.values.find? fun entry => entry.1 == t).map Prod.snd

def int? (model : Model) (t : Term) : Option Int :=
  match model.get? t with
  | some (.int i) => some i
  | _ => none

end Model

structure Solver (m : Type → Type) where
  checkSat : List Term → m (Except SolverError SatResult)
  model : List Term → List Term → m (Except SolverError (Option Model))

end TokenAudit
