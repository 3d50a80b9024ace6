import TokenAudit.Audit.Violation
import TokenAudit.Program.Calls
import TokenAudit.Verify.Target

/-!
# Audit plans

The rules of a document become checks of single functions.  A rule about a function is checked on the
function it names; any other rule is checked on every public function that writes state.
-/

namespace TokenAudit

structure Job where
  ruleId : Nat
  rule : Rule
  check : Check
  target : Target
  function : String

namespace Plan

def namesFunction (r : Rule) : Bool := Text.startsWith (Text.dropBlanks r.interface.toList) "function"

def allowed (only : Option String) (name : String) : Bool :=
  match only with
  | some o => o == name
  | none => true

def gatingEvent? (r : Rule) (check : Check) : Option String :=
  match check, r.kind with
  | .assigns v, .assign => v.event
  | _, _ => none

def namedJobs (only : Option String) (ruleId : Nat) (r : Rule) (check : Check) : List Job :=
  match r.signature with
  | .ok s =>
    if allowed only s.name then [⟨ruleId, r, check, .named s.name (some s.params.length), r.interface⟩] else []
  | .error _ => []

def concerns (program : Program) (only : Option String) (gate : Option String) (id : FnId) (f : Function) : Bool :=
  !f.isConstructor && f.visibility.isEntryPoint && f.isMutating && allowed only f.name &&
    !(program.stateVariablesWritten id).isEmpty &&
    match gate with
    | some event => (program.eventsEmitted id).contains event
    | none => true

def contractJobs (program : Program) (contractId : Nat) (c : Contract) (only : Option String) (ruleId : Nat)
    (r : Rule) (check : Check) : List Job :=
  c.functions.zipIdx.filterMap fun (f, i) =>
    let id : FnId := ⟨contractId, i⟩
    if concerns program only (gatingEvent? r check) id f then
      some ⟨ruleId, r, check, .function id, f.signature⟩
    else none

def jobsOf (program : Program) (contractId : Nat) (c : Contract) (only : Option String) (ruleId : Nat) (r : Rule) :
    List Job :=
  if r.kind = .interface then []
  else
    match r.decodedCheck? with
    | some (.ok check) =>
      if namesFunction r then namedJobs only ruleId r check
      else contractJobs program contractId c only ruleId r check
    | _ => []

end Plan

/-- The jobs of a document in order; `only` restricts them to functions of that name. -/
def plan (program : Program) (contractId : Nat) (c : Contract) (only : Option String) (doc : RuleDocument) :
    List Job :=
  doc.rules.zipIdx.flatMap fun (r, i) => Plan.jobsOf program contractId c only i r

end TokenAudit
