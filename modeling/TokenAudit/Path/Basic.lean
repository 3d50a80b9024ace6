import TokenAudit.Check.Basic
import TokenAudit.Constraints
import TokenAudit.Data.OrdSet
import TokenAudit.Path.Error
import TokenAudit.Program.Basic

/-!
# Paths

One symbolic execution path.
-/

namespace TokenAudit

inductive Status where
  | running
  | threw
  | unsat
  | finished
  | failed (cause : Failure)
  deriving DecidableEq, Repr

def Status.isTerminal : Status → Bool
  | .running => false
  | _ => true

structure Location where
  function : FnId
  node : Nat
  offset : Nat
  deriving DecidableEq, Repr

abbrev Location.next (loc : Location) : Location := { loc with offset := loc.offset + 1 }

def Location.start (function : FnId) (node : Nat) : Location := ⟨function, node, 0⟩

structure Frame where
  returnTo : Location
  target : Option Variable
  deriving DecidableEq, Repr

/-- The cell that a reference stands for: `base` under `key`, with the value `base` had when the
reference was made. -/
structure IndexLink where
  base : VarId
  baseValue : Term
  key : Term
  deriving DecidableEq, Repr

inductive Returned where
  | constant (c : Constant)
  | symbolic (v : Value)
  deriving DecidableEq, Repr

structure CallOn where
  receiver : String
  function : String
  deriving DecidableEq, Repr

instance : Ord CallOn where
  compare a b := (compare a.receiver b.receiver).then (compare a.function b.function)

structure LoopHead where
  function : FnId
  node : Nat
  deriving DecidableEq, Repr

structure Path where
  id : Nat
  status : Status
  location : Option Location
  entry : FnId
  entryName : String
  steps : Nat
  stack : List Frame
  bindings : Table VarId Value
  constraints : ConstraintLog
  /-- Checked after every step; the path ends once they cannot hold. -/
  required : List Term
  /-- Collected on the way and assumed at completion. -/
  deferred : List Term
  /-- What holds on a path that violates the check. -/
  buggy : Option Term
  arrayLength : Option Nat
  returned : Option Returned
  versions : Table VarId Nat
  aliases : Table VarId (List VarId)
  definedBy : Table VarId (List VarId)
  usedInCheck : List VarId
  checkTracked : List VarId
  roots : Table VarId Variable
  links : Table VarId IndexLink
  calledFunctions : OrdSet String
  calledOn : OrdSet CallOn
  callCounts : Table String Nat
  callArgsTracked : Table String (OrdSet Nat)
  returnsTracked : OrdSet String
  varsTracked : OrdSet Nat
  varsWritten : OrdSet Nat
  writeCounts : Table Nat Nat
  keyLevels : Table Nat (OrdSet Nat)
  eventsTracked : OrdSet Nat
  eventsEmitted : OrdSet Nat
  emitCounts : Table Nat Nat
  eventArgsTracked : Table Nat (OrdSet Nat)
  loopCounts : Table LoopHead Nat
  deriving DecidableEq

def insertNew {α : Type} [DecidableEq α] (a : α) (s : List α) : List α := if a ∈ s then s else s ++ [a]

namespace Path

def start (id : Nat) (entry : FnId) (entryNode : Nat) (entryName : String) : Path where
  id := id
  status := .running
  location := some (.start entry entryNode)
  entry := entry
  entryName := entryName
  steps := 0
  stack := []
  bindings := .empty
  constraints := .empty
  required := []
  deferred := []
  buggy := none
  arrayLength := none
  returned := none
  versions := .empty
  aliases := .empty
  definedBy := .empty
  usedInCheck := []
  checkTracked := []
  roots := .empty
  links := .empty
  calledFunctions := .empty
  calledOn := .empty
  callCounts := .empty
  callArgsTracked := .empty
  returnsTracked := .empty
  varsTracked := .empty
  varsWritten := .empty
  writeCounts := .empty
  keyLevels := .empty
  eventsTracked := .empty
  eventsEmitted := .empty
  emitCounts := .empty
  eventArgsTracked := .empty
  loopCounts := .empty

def fork (p : Path) (id : Nat) : Path := { p with id := id }

def assume (p : Path) (t : Term) : Path := { p with constraints := p.constraints.push t }

def bind (p : Path) (v : VarId) (value : Value) : Path := { p with bindings := p.bindings.insert v value }

def writtenCount (p : Path) : Nat := p.varsWritten.size

end Path

end TokenAudit
