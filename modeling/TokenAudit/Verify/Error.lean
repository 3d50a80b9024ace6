import TokenAudit.Check.Format
import TokenAudit.Path.Error

/-!
# Failures of a verification

Why a check has no verdict, and the wording of each cause.
-/

namespace TokenAudit

inductive Limitation where
  | throwCondition (condition : Condition)
  | callCondition (text : String)
  | stateCondition (condition : Condition)
  | assignOperator (text : String)
  | balanceChange (variableName : String)
  | usedInCheck (selector : Selector)
  | arrayOperand
  | arrayDefault
  | noLength (array : String)

def Limitation.message : Limitation → String
  | .throwCondition condition => "throw condition " ++ condition.describe
  | .callCondition text => "call condition " ++ text
  | .stateCondition condition => "state condition " ++ condition.describe
  | .assignOperator text => "state assignment op " ++ text
  | .balanceChange variableName => "balance change on non-mapping " ++ variableName
  | .usedInCheck selector => "used-in-check on " ++ selector.describe
  | .arrayOperand => "array operand without a representative length"
  | .arrayDefault => "default value of an array slot"
  | .noLength array => "length of " ++ array ++ " has no model value"

inductive SelectorFault where
  | notStateVariable (selector : Selector)
  | noParameter (index : Nat)
  | noEvent
  | noEventParameter (event : String) (index : Nat)
  | noCallee
  | noneLength
  | noneKey
  | noneComparison
  | noneReceiver
  | noneState
  | noneOrdering

def SelectorFault.message : SelectorFault → String
  | .notStateVariable selector => "expected a state variable selector, got " ++ selector.describe
  | .noParameter index => "no parameter at index " ++ toString index
  | .noEvent => "event parameter without an event"
  | .noEventParameter event index => event ++ " has no parameter " ++ toString index
  | .noCallee => "call parameter without a callee"
  | .noneLength => "length of a none value"
  | .noneKey => "none value used as a key"
  | .noneComparison => "none value in a comparison"
  | .noneReceiver => "call receiver is a none value"
  | .noneState => "state is a none value"
  | .noneOrdering => "ordering array is a none value"

inductive LlmError where
  | missingKey (environmentName : String)
  | request (detail : String)
  | emptyCompletion
  | inconclusive (answer : String)
  deriving DecidableEq, Repr

def LlmError.message : LlmError → String
  | .missingKey environmentName =>
    "environment variable " ++ environmentName ++ " holding the API key is not set"
  | .request detail => "request failed: " ++ detail
  | .emptyCompletion => "completion has no choices"
  | .inconclusive answer => "answer is neither YES nor NO: " ++ Text.quoted answer

inductive VerifyError where
  | functionNotFound (contract function : String)
  | anchorNotFound (contract anchor : String)
  | noProgram
  | contractNotFound (contract : String)
  | eventNotFound (contract event : String)
  | unsupported (cause : Limitation)
  | invalidSelector (cause : SelectorFault)
  | missingSource (contract target : String)
  | path (cause : PathError)
  | solver (cause : SolverError)
  | llm (cause : LlmError)

namespace VerifyError

def message : VerifyError → String
  | .functionNotFound contract function => "function " ++ function ++ " not found in contract " ++ contract
  | .anchorNotFound contract anchor =>
    "anchor function " ++ anchor ++ " does not identify a state variable of contract " ++ contract
  | .noProgram => "no compilation unit attached to the verifier"
  | .contractNotFound contract => "contract " ++ contract ++ " not found"
  | .eventNotFound contract event => "event " ++ event ++ " is not declared in contract " ++ contract
  | .unsupported cause => "not yet supported: " ++ cause.message
  | .invalidSelector cause => "invalid selector: " ++ cause.message
  | .missingSource contract target => "no source excerpt for " ++ target ++ " in contract " ++ contract
  | .path cause => cause.message
  | .solver cause => cause.message
  | .llm cause => cause.message

end VerifyError

end TokenAudit
