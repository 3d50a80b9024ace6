import TokenAudit.Fact
import TokenAudit.Path.Symbols
import TokenAudit.Term.Smt
import TokenAudit.Verify.Error
import TokenAudit.Verify.Target

/-!
# Resolving selectors

Selectors and conditions of a check become terms over one path.  What a resolution notes stays noted when a later part
cannot be resolved.
-/

namespace TokenAudit

def Subject.entryPath (S : Subject) : Path := Path.start 0 S.id S.function.entry S.function.name

def Subject.seed (S : Subject) (p : Path) : Path := p.seed S.program S.contract S.function S.id

structure Reading where
  event : Option String := none
  callee : Option String := none
  /-- The element that stands for an array. -/
  element : Option Nat := none
  /-- State variables are read as they are when the path has finished. -/
  final : Bool := false
  deriving DecidableEq, Repr

structure Resolution where
  path : Path
  unsignedTerms : List Term
  returnsOf : OrdSet String

def Resolution.start (p : Path) : Resolution := ⟨p, [], .empty⟩

abbrev ResolveM := ExceptT VerifyError (StateM Resolution)

namespace Resolve

/-! ## Primitive operations -/

def sorted (e : Except SortError Term) : ResolveM Term :=
  match e with
  | .ok t => pure t
  | .error e => throw (.path (.sort e))

def single (v : Value) : ResolveM Term :=
  match v with
  | .term t => pure t
  | .tuple _ => throw (.path .tupleAsValue)

def onPath (f : Path → Path) : ResolveM Unit := modify fun r => { r with path := f r.path }

def read (S : Subject) (v : Variable) : ResolveM Term := do
  let (value, p) := (← get).path.read S.contract v
  modify fun r => { r with path := p }
  single value

def noteUnsigned (t : Term) : ResolveM Unit :=
  modify fun r => { r with unsignedTerms := r.unsignedTerms ++ [t] }

def required (fault : SelectorFault) (t : Option Term) : ResolveM Term :=
  match t with
  | some t => pure t
  | none => throw (.invalidSelector fault)

def elementOf (opts : Reading) (t : Term) : ResolveM Term :=
  match opts.element with
  | some i => sorted (Term.mkSelect t (.int i))
  | none => throw (.unsupported .arrayOperand)

/-! ## Variables -/

def parameter (S : Subject) (index : Nat) : ResolveM Variable :=
  match S.function.param? index with
  | some v => pure v
  | none => throw (.invalidSelector (.noParameter index))

def anchored (S : Subject) (anchor : String) : ResolveM Nat :=
  match S.program.anchored? S.id.contract anchor with
  | some i => pure i
  | none => throw (.anchorNotFound S.contract.name anchor)

def stateVariable (S : Subject) (s : Selector) : ResolveM (Nat × Variable) :=
  match s with
  | .stateVar anchor _ => do
    let i ← anchored S anchor
    match S.contract.stateVariables[i]? with
    | some sv => pure (i, .ofState sv.name sv.type)
    | none => throw (.anchorNotFound S.contract.name anchor)
  | s => throw (.invalidSelector (.notStateVariable s))

def eventNamed (S : Subject) (name : String) : ResolveM (Nat × EventDecl) :=
  match S.contract.event? name with
  | some found => pure found
  | none => throw (.eventNotFound S.contract.name name)

/-! ## Selectors -/

def functionParam (S : Subject) (index : Nat) : ResolveM Term := do
  let v ← parameter S index
  let t ← read S v
  if v.type.isUnsigned then noteUnsigned t
  pure t

def eventParam (S : Subject) (event : String) (index : Nat) : ResolveM Term := do
  let (_, decl) ← eventNamed S event
  match decl.params[index]? with
  | none => throw (.invalidSelector (.noEventParameter event index))
  | some param =>
    let t := (Fact.emittedArg event 1 index (.ofType param.type)).term
    if param.type.isUnsigned then noteUnsigned t
    pure t

def callParam (S : Subject) (callee : String) (index : Nat) : Term :=
  let type := (S.program.highLevelCall? S.id callee).bind fun sig => sig.params[index]?
  (Fact.callArg callee 1 index ((type.map SmtSort.ofType).getD .int)).term

def callReturn (S : Subject) (function : String) : ResolveM Term := do
  modify fun r => { r with returnsOf := r.returnsOf.insert function }
  let type := (S.program.highLevelCall? S.id function).bind fun sig => sig.returns.head?
  pure (Fact.callReturn function ((type.map SmtSort.ofType).getD .int)).term

def stateValue (S : Subject) (opts : Reading) (v : Variable) : ResolveM Term :=
  if opts.final then pure (Fact.postExec v.name (.ofType v.type)).term else read S v

mutual

def selector (S : Subject) (opts : Reading) : Selector → ResolveM (Option Term)
  | .noneValue => pure none
  | .constant value => pure (some value.term)
  | .msgSender => do return some (← read S .sender)
  | .funcParam index => do return some (← functionParam S index)
  | .eventParam index =>
    match opts.event with
    | none => throw (.invalidSelector .noEvent)
    | some event => do return some (← eventParam S event index)
  | .callParam index =>
    match opts.callee with
    | none => throw (.invalidSelector .noCallee)
    | some callee => pure (some (callParam S callee index))
  | .callReturn function => do return some (← callReturn S function)
  | .arrLength value => do
    let array ← required .noneLength (← selector S opts value)
    let length := array.derived "length" .int
    noteUnsigned length
    pure (some length)
  | .stateVar anchor keys => do
    let (_, v) ← stateVariable S (.stateVar anchor keys)
    let cell ← cellUnder S opts (← stateValue S opts v) keys
    if cell.sort = .int ∧ v.type.mentionsUnsigned then noteUnsigned cell
    pure (some cell)

def cellUnder (S : Subject) (opts : Reading) (array : Term) : List Selector → ResolveM Term
  | [] => pure array
  | key :: rest => do
    let k ← required .noneKey (← selector S { opts with final := false } key)
    let k ← if k.sort.isArray then elementOf opts k else pure k
    cellUnder S opts (← sorted (Term.mkSelect array k)) rest

end

/-! ## Conditions -/

def comparison (op : CompOp) (l r : Term) : Except SortError Term :=
  match op with
  | .eq => Term.mkEq l r
  | .notEq => Term.mkNe l r
  | .gt => Term.mkGt l r
  | .lt => Term.mkLt l r
  | .gte => Term.mkGe l r
  | .lte => Term.mkLe l r

def checkedVariable (S : Subject) (s : Selector) : ResolveM Variable :=
  match s with
  | .funcParam index => parameter S index
  | .stateVar anchor keys => do return (← stateVariable S (.stateVar anchor keys)).2
  | s => throw (.unsupported (.usedInCheck s))

mutual

def condition (S : Subject) (opts : Reading) : Condition → ResolveM Term
  | .comparison left right op => do
    let l ← required .noneComparison (← selector S opts left)
    let r ← required .noneComparison (← selector S opts right)
    if l.sort.isArray then sorted (comparison op (← elementOf opts l) r)
    else if r.sort.isArray then sorted (comparison op l (← elementOf opts r))
    else sorted (comparison op l r)
  | .logic parts op => do return Term.mkJunction op (← conditions S opts parts)
  | .written value _ => do
    let (i, v) ← stateVariable S value
    onPath fun p => { p with varsTracked := p.varsTracked.insert i }
    pure (Fact.written v.name).term
  | .usedInCheck value => do
    let v ← checkedVariable S value
    let fact := Fact.usedInCheck ((← get).path.symbolBase v.id)
    onPath fun p => { p with checkTracked := insertNew v.id p.checkTracked }
    pure fact.term

def conditions (S : Subject) (opts : Reading) : List Condition → ResolveM (List Term)
  | [] => pure []
  | c :: rest => do
    let t ← condition S opts c
    let ts ← conditions S opts rest
    pure (t :: ts)

end

end Resolve

end TokenAudit
