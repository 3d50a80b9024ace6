import TokenAudit.Solver.Basic
import TokenAudit.Term.Build

/-!
# Failures of a path

Why a single path cannot go on.
-/

namespace TokenAudit

inductive PathError where
  | sort (error : SortError)
  | unbound (name : String)
  | unresolvedCall (name : String)
  | tupleAsValue
  | completedPath
  | missingNode (function : String) (node : Nat)
  | missingFunction
  | missingArgument (builtin : String)
  | missingItem (tuple : String) (index : Nat)
  | notATuple (name : String)
  | solver (error : SolverError)
  /-- No error but a step that never returns: references lead back to themselves, and their walk does not end.  A run
  with such a step stands for one that does not end. -/
  | endless
  deriving DecidableEq, Repr

namespace PathError

def shape? : PathError → Option String
  | .tupleAsValue => some "tuple used where a single value is expected"
  | .completedPath => some "stepping a completed path"
  | .missingNode function node => some (function ++ " has no node " ++ toString node)
  | .missingFunction => some "no such function"
  | .missingArgument builtin => some (builtin ++ " without argument")
  | .missingItem tuple index => some (tuple ++ " has no element " ++ toString index)
  | .notATuple name => some (name ++ " is not a tuple")
  | _ => none

def message : PathError → String
  | .sort e => "sort mismatch: " ++ e.message
  | .unbound name => "variable " ++ name ++ " has no symbolic value"
  | .unresolvedCall name => "cannot resolve call to " ++ name
  | .solver e => e.message
  | e => "unexpected operand shape: " ++ (e.shape?).getD ""

end PathError

inductive Budget where
  | steps (count : Nat)
  | paths (count : Nat)
  | time (milliseconds : Nat)
  deriving DecidableEq, Repr

/-- A time span: whole seconds with the fraction that is not zero, or milliseconds below one second. -/
def spanText (milliseconds : Nat) : String :=
  if milliseconds = 0 then "0ns"
  else if milliseconds < 1000 then toString milliseconds ++ "ms"
  else
    let digits := (toString (1000 + milliseconds % 1000)).toList.drop 1
    let kept := (digits.reverse.dropWhile (· == '0')).reverse
    toString (milliseconds / 1000) ++ (if kept.isEmpty then "" else "." ++ String.ofList kept) ++ "s"

def Budget.message : Budget → String
  | .steps count => "budget exhausted: " ++ toString count ++ " steps"
  | .paths count => "budget exhausted: " ++ toString count ++ " paths"
  | .time milliseconds => "budget exhausted: " ++ spanText milliseconds

inductive Failure where
  | error (cause : PathError)
  | budget (cause : Budget)
  deriving DecidableEq, Repr

def Failure.message : Failure → String
  | .error cause => cause.message
  | .budget cause => cause.message

end TokenAudit
