import TokenAudit.Cli.Options
import TokenAudit.Number.Literal
import TokenAudit.Number.Word

/-!
# Arguments of the auditor

What the command line asks for.
-/

namespace TokenAudit.Cli

structure Arguments where
  programPath : String
  contract : String
  rulesPath : String
  function : Option String
  configPath : Option String
  jobs : Option Nat
  solver : Option String
  timeoutMs : Option Nat
  useLlm : Bool
  deriving DecidableEq, Repr

def optionSpecs : List OptionSpec :=
  [⟨some 'r', "rules", some "RULES", "ERC rule document (JSON)"⟩,
   ⟨some 'f', "function", some "FUNCTION", "only check rules on this function"⟩,
   ⟨some 'c', "config", some "CONFIG", "verifier configuration (JSON)"⟩,
   ⟨some 'j', "jobs", some "JOBS", "worker threads (defaults to the number of cores)"⟩,
   ⟨none, "solver", some "CMD", "z3 executable"⟩,
   ⟨none, "timeout", some "MS", "per-query solver timeout in milliseconds"⟩,
   ⟨none, "llm", none, "ask a language model instead of solving"⟩,
   ⟨some 'v', "verbose", some "LEVEL", "level of verbose"⟩,
   ⟨some 'h', "help", none, "print this help menu"⟩]

def usageText (invocation : String) : String :=
  usage optionSpecs ("Usage: " ++ invocation ++ " IR_JSON CONTRACT_NAME -r RULES [options]")

inductive ArgumentError where
  | badOption (cause : OptionError)
  | missingNames
  | missingRules
  | notANumber (option text : String)
  deriving DecidableEq, Repr

namespace ArgumentError

def message : ArgumentError → String
  | .badOption cause => cause.message
  | .missingNames => "IR_JSON and CONTRACT_NAME are required."
  | .missingRules => "a rule document is required (-r)."
  | .notANumber option text => "--" ++ option ++ " expects a number, got " ++ text

def showsUsage : ArgumentError → Bool
  | .notANumber _ _ => false
  | _ => true

end ArgumentError

def readPlainDigits : Nat → List Char → Option Nat
  | acc, [] => some acc
  | acc, c :: cs => (Number.decimalDigit? c).bind fun d => readPlainDigits (acc * 10 + d) cs

def readWord (text : String) : Option Nat := do
  let digits := match text.toList with
    | '+' :: cs => cs
    | cs => cs
  if digits.isEmpty then none else Number.word? (← readPlainDigits 0 digits)

def numberOption (p : Parsed) (name : String) : Except ArgumentError (Option Nat) :=
  match p.value? name with
  | none => .ok none
  | some text =>
    match readWord text with
    | some n => .ok (some n)
    | none => .error (.notANumber name text)

def Arguments.ofParsed (p : Parsed) : Except ArgumentError (Option Arguments) :=
  if p.present "help" then .ok none
  else
    match p.free with
    | programPath :: contract :: _ =>
      match p.value? "rules" with
      | none => .error .missingRules
      | some rulesPath => do
        let jobs ← numberOption p "jobs"
        let timeoutMs ← numberOption p "timeout"
        return some {
          programPath, contract, rulesPath, jobs, timeoutMs
          function := p.value? "function"
          configPath := p.value? "config"
          solver := p.value? "solver"
          useLlm := p.present "llm" }
    | _ => .error .missingNames

def Arguments.read (args : List String) : Except ArgumentError (Option Arguments) :=
  match parse optionSpecs args with
  | .error e => .error (.badOption e)
  | .ok p => Arguments.ofParsed p

end TokenAudit.Cli
