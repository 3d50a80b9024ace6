import TokenAudit.Check.Selector

/-!
# Checks

What one function has to do; `tracking` says which facts a path has to record while the check runs.
-/

namespace TokenAudit

inductive ThrowOp where
  | throws
  | passes
  deriving DecidableEq, Repr, Inhabited

structure ThrowCheck where
  cond : Condition
  op : ThrowOp
  deriving Repr, Inhabited

/-- Under `cond` the function returns `expected`, on some path or on all of them. -/
structure ReturnCheck where
  expected : Selector
  cond : Option Condition := none
  atLeastOne : Bool := false
  deriving Repr, Inhabited

structure ArgCheck where
  index : Nat
  value : Option Selector
  cond : Option Condition
  deriving Repr, Inhabited

structure EmitCheck where
  event : String
  stateCond : Option Condition := none
  alternatives : List String := []
  cond : Option Condition := none
  within : Option String := none
  /-- A path on which the state condition fails counts as a violation. -/
  needsStateCond : Bool := false
  args : List ArgCheck := []
  deriving Repr, Inhabited

structure AssignCheck where
  state : Selector
  value : Selector
  op : String
  event : Option String
  deriving Repr, Inhabited

structure CallCheck where
  callee : String
  receiver : Selector
  cond : String
  args : List ArgCheck := []
  alternatives : List String := []
  deriving Repr, Inhabited

inductive OrderTarget where
  | event (name : String) (arg : Nat)
  | written (state : Selector) (level : Nat)
  deriving Repr, Inhabited

structure OrderCheck where
  target : OrderTarget
  orderedBy : Selector
  deriving Repr, Inhabited

inductive Check where
  | throws (check : ThrowCheck)
  | returns (check : ReturnCheck)
  | emits (check : EmitCheck)
  | assigns (check : AssignCheck)
  | calls (check : CallCheck)
  | orders (check : OrderCheck)
  deriving Repr, Inhabited

structure Tracking where
  defBy : Bool := false
  usedInCheck : Bool := false
  emit : Bool := false
  emitArgs : Bool := false
  write : Bool := false
  writeCount : Bool := false
  writtenKey : Bool := false
  callArgs : Bool := false
  deriving DecidableEq, Repr, Inhabited

def EmitCheck.change (c : EmitCheck) : ChangeType :=
  match c.stateCond with
  | some (.written _ change) => change
  | _ => .unspecified

namespace Check

def conditions : Check → List Condition
  | .throws c => [c.cond]
  | .returns c => c.cond.toList
  | .emits c => c.stateCond.toList ++ c.cond.toList ++ c.args.filterMap ArgCheck.cond
  | .assigns _ => []
  | .calls c => c.args.filterMap ArgCheck.cond
  | .orders _ => []

def kindTracking : Check → Tracking
  | .throws _ => { write := true }
  | .returns _ => {}
  | .emits c =>
    { emit := true, emitArgs := true, write := true, writeCount := true,
      writtenKey := c.change != .unspecified }
  | .assigns c => { write := true, emit := c.event.isSome, emitArgs := c.event.isSome }
  | .calls c => { defBy := true, callArgs := !c.args.isEmpty }
  | .orders c =>
    match c.target with
    | .event _ _ => { emit := true, emitArgs := true }
    | .written _ _ => { write := true, writeCount := true, writtenKey := true }

def tracking (c : Check) : Tracking :=
  if c.conditions.any Condition.mentionsUsedInCheck then
    { c.kindTracking with defBy := true, usedInCheck := true }
  else c.kindTracking

end Check

end TokenAudit
