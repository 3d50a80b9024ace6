import TokenAudit.Machine.Call

/-!
# Steps

One step runs the rest of the current node and gives the places the path can go to.
-/

namespace TokenAudit.Machine

open Term

/-! ## Operators -/

def shiftFactor? : Term → Option Term
  | .int (.ofNat k) => if k ≤ 256 then some (.int (Nat.pow 2 k)) else none
  | _ => none

def binaryTerm (op : BinaryOp) (l r : Term) : Except SortError (Option Term) :=
  match op with
  | .add => (mkAdd l r).map some
  | .sub => (mkSub l r).map some
  | .mul => (mkMul l r).map some
  | .div => (mkDiv l r).map some
  | .mod => (mkMod l r).map some
  | .pow => mkPow l r
  | .eq => (mkEq l r).map some
  | .ne => (mkNe l r).map some
  | .lt => (mkLt l r).map some
  | .gt => (mkGt l r).map some
  | .le => (mkLe l r).map some
  | .ge => (mkGe l r).map some
  | .and => do return some (mkAnd [← truthy l, ← truthy r])
  | .or => do return some (mkOr [← truthy l, ← truthy r])
  | .shiftLeft =>
    match shiftFactor? r with
    | some factor => (mkMul l factor).map some
    | none => .ok none
  | .shiftRight =>
    match shiftFactor? r with
    | some factor => (mkDiv l factor).map some
    | none => .ok none
  | .bitAnd => .ok none
  | .bitOr => .ok none
  | .bitXor => .ok none

/-! ## Instructions -/

def assignment (M : Machine) (target : Variable) (source : Operand) : StepM Unit := do
  M.recordOperands target [source]
  match source with
  | .var v => modify (·.addAlias target.id v.id)
  | .const _ => pure ()
  M.recordWrite target
  M.assign target (← M.valueOf source)

def conversion (M : Machine) (target : Variable) (source : Operand) : StepM Unit := do
  M.recordOperands target [source]
  bind target (← fitted target (← M.valueOf source))

def binary (M : Machine) (op : BinaryOp) (left right : Operand) (target : Variable) (checked : Bool) :
    StepM Unit := do
  M.recordOperands target [left, right]
  let l ← M.termOf left
  let r ← M.termOf right
  let value ← match binaryTerm op l r with
    | .ok (some t) => pure t
    | _ => single (← redefine target)
  if checked then modify (·.assumeUnsigned (.term value) target.type)
  M.recordWrite target
  M.assign target (.term value)

def unary (M : Machine) (op : UnaryOp) (source : Operand) (target : Variable) : StepM Unit := do
  M.recordOperands target [source]
  let value ← match op with
    | .not => do pure (mkNot (← sorted (truthy (← M.termOf source))))
    | .complement => single (← redefine target)
  M.assign target (.term value)

/-- The keys on the way up from a variable to its root; none where the way goes on when the fuel is used up. -/
def linkKeys (links : Table VarId IndexLink) : Nat → VarId → Option (List Term)
  | 0, v => if (links.get? v).isNone then some [] else none
  | fuel + 1, v =>
    match links.get? v with
    | some link => (linkKeys links fuel link.base).map (link.key :: ·)
    | none => some []

/-- What is known of a fully indexed cell of a mapping: a mapping keyed by owner is empty under the zero
owner, and an approval mapping never holds the sender. -/
def assumeCell (M : Machine) (root : Variable) (outermost value : Term) : StepM Unit := do
  if root.name ∈ M.config.ownerKeyedVars then
    match defaultOf value.sort with
    | some empty =>
      let noOwner ← sorted (mkEq outermost .zero)
      assume (mkImplies noOwner (← sorted (mkEq value empty)))
    | none => pure ()
  if root.name ∈ M.config.approvalVars then
    let sender ← single (← M.read .sender)
    assume (← sorted (mkNe value sender))

def assumeIndexed (M : Machine) (root base : Variable) (key value : Term) : StepM Unit := do
  if root.isState then
    let links := (← get).links
    match linkKeys links links.entries.length base.id with
    | some above =>
      let keys := key :: above
      if keys.length = root.type.mappingKeys.length then M.assumeCell root (keys.getLastD .zero) value
    | none => throw .endless

def index (M : Machine) (target base : Variable) (key : Operand) : StepM Unit := do
  M.recordDependencies target (base :: (key.var?).toList)
  let root := (← get).rootOf base
  modify fun p => { p with roots := p.roots.insert target.id root }
  let array ← single (← M.read base)
  let key ← M.termOf key
  match mkSelect array key with
  | .error _ =>
    modify fun p => { p with links := p.links.erase target.id }
    let _ ← redefine target
  | .ok value =>
    modify fun p => { p with links := p.links.insert target.id ⟨base.id, array, key⟩ }
    M.assumeIndexed root base key value
    modify (·.assumeUnsigned (.term value) target.type)
    bind target (.term value)

def member (M : Machine) (target : Variable) (base : Operand) : StepM Unit := do
  match base with
  | .var b => modify fun p => { p with roots := p.roots.insert target.id (p.rootOf b) }
  | .const _ => pure ()
  M.recordOperands target [base]
  let _ ← redefine target

def bindSize (target : Variable) (t : Term) (suffix : String) : StepM Unit := do
  let size := t.derived suffix .int
  assume (← sorted (mkGe size .zero))
  bind target (.term size)

def length (M : Machine) (array target : Variable) : StepM Unit := do
  M.recordDependencies target [array]
  bindSize target (← single (← M.read array)) "length"

def codeSize (M : Machine) (target : Variable) (account : Operand) : StepM Unit := do
  bindSize target (← M.termOf account) "code.length"

def delete (M : Machine) (erased : Variable) : StepM Unit := do
  M.recordWrite erased
  match defaultOf (.ofType erased.type) with
  | some default => M.assign erased (.term default)
  | none => let _ ← redefine erased

def giveBack (M : Machine) (values : List Operand) (value : Value) : StepM Unit := do
  match (← get).stack with
  | [] =>
    let slot := match values with
      | [.const c] => Returned.constant c
      | _ => .symbolic value
    modify fun p => { p with returned := some slot }
  | frame :: _ =>
    match frame.target with
    | some target =>
      M.recordOperands target values
      bind target value
    | none => pure ()

def ret (M : Machine) (values : List Operand) : StepM Unit := do
  match ← M.valuesOf values with
  | [] => pure ()
  | [value] => M.giveBack values value
  | items => M.giveBack values (.tuple items)

def unpack (M : Machine) (target tuple : Variable) (place : Nat) : StepM Unit := do
  M.recordDependencies target [tuple]
  match ← M.read tuple with
  | .tuple items =>
    match items[place]? with
    | some item => bind target item
    | none => throw (.missingItem tuple.name place)
  | .term t => if place = 0 then bind target (.term t) else throw (.notATuple tuple.name)

def newArray (M : Machine) (target : Variable) (arguments : List Operand) : StepM Unit := do
  let array ← single (← redefine target)
  match arguments with
  | [] => pure ()
  | size :: _ => do
    let size ← M.termOf size
    assume (← sorted (mkEq (array.derived "length" .int) size))

def storeItems (M : Machine) : Nat → List Operand → Term → StepM Term
  | _, [], array => pure array
  | i, o :: rest, array => do
    let value ← M.termOf o
    M.storeItems (i + 1) rest (← sorted (mkStore array (.int i) value))

def initArray (M : Machine) (target : Variable) (values : List Operand) : StepM Unit := do
  let array ← M.storeItems 0 values (← single (← redefine target))
  assume (← sorted (mkEq (array.derived "length" .int) (.int values.length)))
  bind target (.term array)

def exec (M : Machine) (loc : Location) (i : Instruction) : StepM (Option (List Successor)) :=
  match i with
  | .builtinCall function arguments target => M.builtinCall loc function arguments target
  | .internalCall function arguments target =>
    match M.program.resolveInternal? M.contractId function arguments.length with
    | some callee => M.enter loc callee arguments target
    | none => throw (.unresolvedCall function)
  | .libraryCall library function arguments target =>
    match M.program.resolveLibrary? library function arguments.length with
    | some callee => M.enter loc callee arguments target
    | none => throw (.unresolvedCall (library ++ "." ++ function))
  | .assignment target source => do M.assignment target source; pure none
  | .conversion target source => do M.conversion target source; pure none
  | .highLevelCall destination callee arguments target => do
    M.highLevelCall destination callee arguments target
    pure none
  | .lowLevelCall destination _ arguments target => do
    M.havoc target (destination :: arguments)
    pure none
  | .unary op source target => do M.unary op source target; pure none
  | .binary op left right target checked => do M.binary op left right target checked; pure none
  | .length array target => do M.length array target; pure none
  | .eventCall name arguments => do M.emit name arguments; pure none
  | .index target base key => do M.index target base key; pure none
  | .delete _ erased => do M.delete erased; pure none
  | .newElementary target => do let _ ← redefine target; pure none
  | .ret values => do M.ret values; pure none
  | .unpack target tuple place => do M.unpack target tuple place; pure none
  | .member target base _ => do M.member target base; pure none
  | .condition _ => pure none
  | .transfer _ _ => pure none
  | .send destination amount target => do M.havoc target [destination, amount]; pure none
  | .newArray target arguments => do M.newArray target arguments; pure none
  | .initArray target values => do M.initArray target values; pure none
  | .codeSize target account => do M.codeSize target account; pure none
  | .unsupported _ none => pure none
  | .unsupported _ (some target) => do let _ ← redefine target; pure none

def execAll (M : Machine) : Location → List Instruction → StepM (Option (List Successor))
  | _, [] => pure none
  | loc, i :: rest => do
    match ← M.exec loc i with
    | some successors => pure (some successors)
    | none => M.execAll loc.next rest

/-! ## Leaving a node -/

def conditionTerm (operand : Operand) : StepM Term := do
  match operand with
  | .const c => pure c.term
  | .var v =>
    match (← get).bindings.get? v.id with
    | some value => single value
    | none => throw (.unbound v.name)

def leadsToThrow (f : Function) (n : Node) : Bool :=
  (n.edges.filterMap f.node?).any fun son =>
    son.kind == .throw || son.instructions.any fun i => i.isRequire || i.isRevert

def countLoop (M : Machine) (head : LoopHead) : StepM Bool := do
  let count := (← get).loopCounts.getD head 0 + 1
  modify fun p => { p with loopCounts := p.loopCounts.insert head count }
  pure (decide (count ≤ M.config.loopBound))

def branches (n : Node) : Option Nat × Option Nat :=
  match n.sonTrue, n.sonFalse with
  | none, none => (n.sons[0]?, n.sons[1]?)
  | t, f => (t, f)

/-- Goes both ways on a condition; at a loop head that was passed too often only the false way. -/
def branch (M : Machine) (fn : FnId) (f : Function) (n : Node) (condition : Operand) : StepM (List Successor) := do
  let cond ← sorted (truthy (← conditionTerm condition))
  if M.tracking.usedInCheck && leadsToThrow f n then modify (Path.markUsedInCheck condition)
  let takeTrue ← if n.kind == .ifLoop then M.countLoop ⟨fn, n.id⟩ else pure true
  let (whenTrue, whenFalse) := branches n
  let goTrue := if takeTrue then whenTrue.toList else []
  pure (goTrue.map (fun s => .goto (.start fn s) (some cond)) ++
    whenFalse.toList.map fun s => .goto (.start fn s) (some (mkNot cond)))

/-- The ways out of a node that branches without a condition; among three or more, the node that joins
them again is left out. -/
def fanOut (fn : FnId) (f : Function) (n : Node) : List Successor :=
  let joins (s : Nat) : Bool := decide (3 ≤ n.sons.length) && ((f.node? s).map (·.kind == .endIf)).getD false
  (n.sons.filter fun s => !joins s).map fun s => .goto (.start fn s) none

def leaveStraight (fn : FnId) (n : Node) : StepM (List Successor) := do
  match n.sons with
  | son :: _ => pure [.goto (.start fn son) none]
  | [] =>
    match (← get).stack with
    | frame :: rest =>
      modify fun p => { p with stack := rest }
      pure [.goto frame.returnTo none]
    | [] => pure [.finish]

def leave (M : Machine) (fn : FnId) (f : Function) (n : Node) : StepM (List Successor) :=
  if n.isBranching then
    match n.instructions.getLast? with
    | some (.condition value) => M.branch fn f n value
    | _ => pure (fanOut fn f n)
  else leaveStraight fn n

/-! ## One step -/

def declare (v : Variable) (uninitialized : Bool) : StepM Unit :=
  match uninitialized, defaultOf (.ofType v.type) with
  | true, some default => bind v (.term default)
  | _, _ => do let _ ← redefine v

def declareAt (n : Node) (offset : Nat) : StepM Unit :=
  match n.declared with
  | some v => if n.kind == .declaration && offset == 0 then declare v n.instructions.isEmpty else pure ()
  | none => pure ()

def runNode (M : Machine) (loc : Location) (f : Function) (n : Node) : StepM (List Successor) := do
  modify fun p => { p with steps := p.steps + 1 }
  if n.kind == .throw then pure [.throws none]
  else
    declareAt n loc.offset
    match ← M.execAll loc (n.instructions.drop loc.offset) with
    | some successors => pure successors
    | none => M.leave loc.function f n

def step (M : Machine) : StepM (List Successor) := do
  match (← get).location with
  | none => throw .completedPath
  | some loc =>
    match M.program.function? loc.function with
    | none => throw .missingFunction
    | some f =>
      match f.node? loc.node with
      | none => throw (.missingNode f.name loc.node)
      | some n => M.runNode loc f n

def stepOn (M : Machine) (p : Path) : Except PathError (List Successor) × Path := (M.step.run p)

end TokenAudit.Machine
