import TokenAudit.Audit.Violation

/-!
# Interfaces

The functions and events that a document asks for, compared with what a contract declares.  A public
state variable stands for the function that reads it.
-/

namespace TokenAudit

namespace Interface

def getterShape : ContractType → List ContractType × ContractType
  | .mapping key value =>
    let (params, leaf) := getterShape value
    (key :: params, leaf)
  | .array item _ =>
    let (params, leaf) := getterShape item
    (.uint256 :: params, leaf)
  | t => ([], t)

def getterMatches (v : StateVariable) (s : Signature) : Bool :=
  let (params, leaf) := getterShape v.type
  params == s.paramTypes && (s.returns.isEmpty || s.returns == [leaf])

inductive Mismatch where
  | noFunction
  | wrongParam
  | wrongReturn
  | wrongEvent
  deriving DecidableEq, Repr

def Mismatch.tag : Mismatch → String
  | .noFunction => "no_function"
  | .wrongParam => "incorrect_param"
  | .wrongReturn => "incorrect_return"
  | .wrongEvent => "event"

def functionMismatch? (c : Contract) (s : Signature) : Option Mismatch :=
  match c.functions.filter fun f => f.name == s.name && !f.isConstructor with
  | [] =>
    match c.stateVariable? s.name with
    | some (_, v) => if v.visibility.isEntryPoint && getterMatches v s then none else some .noFunction
    | none => some .noFunction
  | candidates =>
    match candidates.find? fun f => f.params.map Param.type == s.paramTypes with
    | none => some .wrongParam
    | some f => if !s.returns.isEmpty && f.returns != s.returns then some .wrongReturn else none

def sameParam (d : EventParam) (s : SigParam) : Bool := d.type == s.type && d.indexed == s.indexed

def declares (c : Contract) (s : Signature) : Bool :=
  match c.event? s.name with
  | some (_, decl) =>
    decl.params.length == s.params.length && (decl.params.zip s.params).all fun (d, p) => sameParam d p
  | none => false

def eventMismatch? (c : Contract) (s : Signature) : Option Mismatch :=
  if declares c s then none else some .wrongEvent

def violation (document : String) (c : Contract) (ruleId : Nat) (text : String) (m : Mismatch) : Violation where
  document := document
  ruleId := ruleId
  kind := .interface
  rule := text
  contract := c.name
  interface := text
  function := none
  severity := .low
  tags := [m.tag]

def violationsAmong (document : String) (c : Contract) (mismatch? : Signature → Option Mismatch)
    (texts : List String) : List Violation :=
  texts.zipIdx.filterMap fun (text, i) =>
    match Signature.read text with
    | .ok s => (mismatch? s).map (violation document c i text)
    | .error _ => none

end Interface

def interfaceViolations (c : Contract) (doc : RuleDocument) : List Violation :=
  Interface.violationsAmong doc.name c (Interface.functionMismatch? c) doc.functions ++
    Interface.violationsAmong doc.name c (Interface.eventMismatch? c) doc.events

end TokenAudit
