import TokenAudit.Machine.Call
import TokenAudit.Proofs.Term.Meaning

/-!
# Concrete execution of a node

What the scalar instructions of a node do to a memory of values, and how the node is left.
-/

namespace TokenAudit

inductive Content where
  | single (v : Datum)
  | tuple (items : List Content)

structure Memory where
  vars : VarId → Option Content
  stack : List Frame
  returned : Option Content

inductive Exit where
  | goto (next : Location)
  | throws
  | finish

/-- What an instruction or a node does: it goes on, it ends the node, or it does not run at all.  A node
that is left to enter a loop `again` is told apart. -/
inductive Effect where
  | continues (after : Memory)
  | leaves (exit : Exit) (again : Bool) (after : Memory)
  | blocked

def Constant.datum : Constant → Datum
  | .bool b => .bool b
  | .int i => .int i
  | .str s => .str s

/-- The scalar operators; integers are unbounded and any integer but zero counts as true. -/
noncomputable def BinaryOp.apply : BinaryOp → Datum → Datum → Option Datum
  | .add, x, y => some (.int (x.toInt + y.toInt))
  | .sub, x, y => some (.int (x.toInt - y.toInt))
  | .mul, x, y => some (.int (x.toInt * y.toInt))
  | .eq, x, y => some (.bool (decide (x = y)))
  | .ne, x, y => some (.bool (decide (x ≠ y)))
  | .lt, x, y => some (.bool (decide (x.toInt < y.toInt)))
  | .gt, x, y => some (.bool (decide (x.toInt > y.toInt)))
  | .le, x, y => some (.bool (decide (x.toInt ≤ y.toInt)))
  | .ge, x, y => some (.bool (decide (x.toInt ≥ y.toInt)))
  | .and, x, y => some (.bool (x.truth && y.truth))
  | .or, x, y => some (.bool (x.truth || y.truth))
  | _, _, _ => none

namespace Memory

def set (m : Memory) (v : VarId) (d : Datum) : Memory :=
  { m with vars := fun w => if v = w then some (.single d) else m.vars w }

def operand (m : Memory) : Operand → Option Datum
  | .const c => some c.datum
  | .var v =>
    match m.vars v.id with
    | some (.single d) => some d
    | _ => none

def define (m : Memory) (target : Variable) (checked : Bool) (d : Datum) : Effect :=
  if checked && target.type.isUnsigned && decide (d.toInt < 0) then .blocked
  else .continues (m.set target.id d)

def giveBack (m : Memory) (d : Datum) : Memory :=
  match m.stack with
  | [] => { m with returned := some (.single d) }
  | frame :: _ =>
    match frame.target with
    | some target => m.set target.id d
    | none => m

def check (m : Memory) (loc : Location) (name : String) (holds : Bool) : Option Effect :=
  if name = "require" then
    some (.leaves (if holds then .goto loc.next else .throws) false m)
  else if name = "assert" then some (if holds then .continues m else .blocked)
  else none

noncomputable def exec (m : Memory) (loc : Location) : Instruction → Option Effect
  | .assignment target source => (m.operand source).map fun d => .continues (m.set target.id d)
  | .binary op left right target checked =>
    match m.operand left, m.operand right with
    | some x, some y => (op.apply x y).map (m.define target checked)
    | _, _ => none
  | .unary .not source target =>
    (m.operand source).map fun d => .continues (m.set target.id (.bool !d.truth))
  | .builtinCall function arguments _ =>
    if Machine.builtinName function = "revert" then some (.leaves .throws false m)
    else
      match arguments with
      | [] => none
      | o :: _ => (m.operand o).bind fun d => m.check loc (Machine.builtinName function) d.truth
  | .condition _ => some (.continues m)
  | .ret [] => some (.continues m)
  | .ret [o] => (m.operand o).map fun d => .continues (m.giveBack d)
  | _ => none

noncomputable def execAll : Memory → Location → List Instruction → Option Effect
  | m, _, [] => some (.continues m)
  | m, loc, i :: rest =>
    match m.exec loc i with
    | some (.continues after) => execAll after loc.next rest
    | other => other

def leave (m : Memory) (fn : FnId) (n : Node) : Option Effect :=
  match n.sons with
  | [] =>
    match m.stack with
    | [] => some (.leaves .finish false m)
    | frame :: rest => some (.leaves (.goto frame.returnTo) false { m with stack := rest })
  | [son] => some (.leaves (.goto (.start fn son)) false m)
  | [yes, no] =>
    match n.instructions.getLast? with
    | some (.condition o) =>
      (m.operand o).map fun d =>
        if d.truth then .leaves (.goto (.start fn (n.sonTrue.getD yes))) (n.kind == .ifLoop) m
        else .leaves (.goto (.start fn (n.sonFalse.getD no))) false m
    | _ => none
  | _ => none

noncomputable def runNode (m : Memory) (loc : Location) (n : Node) : Option Effect :=
  match m.execAll loc (n.instructions.drop loc.offset) with
  | some (.continues after) => after.leave loc.function n
  | other => other

end Memory

mutual

noncomputable def Value.content (E : Env) : Value → Content
  | .term t => .single (t.eval E)
  | .tuple items => .tuple (Value.contents E items)

noncomputable def Value.contents (E : Env) : List Value → List Content
  | [] => []
  | v :: rest => v.content E :: Value.contents E rest

end

noncomputable def Returned.content (E : Env) : Returned → Content
  | .constant c => .single c.datum
  | .symbolic v => v.content E

noncomputable def Path.memory (E : Env) (p : Path) : Memory where
  vars v := (p.bindings.get? v).map (Value.content E)
  stack := p.stack
  returned := p.returned.map (Returned.content E)

def Env.Holds (E : Env) (t : Term) : Prop := (t.eval E).toBool = true

def Env.Satisfies (E : Env) (log : ConstraintLog) : Prop := ∀ t ∈ log.terms, E.Holds t

noncomputable def Successor.isOpen (E : Env) (way : Successor) : Bool :=
  match way.constraint? with
  | none => true
  | some t => (t.eval E).toBool

def Successor.exit : Successor → Exit
  | .goto next _ => .goto next
  | .throws _ => .throws
  | .finish => .finish

/-- Where the ways lead that an environment leaves open. -/
noncomputable def openExits (E : Env) (ways : List Successor) : List Exit :=
  (ways.filter (Successor.isOpen E)).map Successor.exit

theorem Env.satisfies_push {E : Env} {log : ConstraintLog} {t : Term} :
    E.Satisfies (log.push t) ↔ E.Satisfies log ∧ E.Holds t := by
  unfold Satisfies
  rw [ConstraintLog.terms_push]
  split
  · rename_i literal
    have holds : E.Holds (.bool true) := rfl
    rw [literal]
    exact ⟨fun log => ⟨log, holds⟩, fun both => both.1⟩
  · simp only [List.mem_append, List.mem_singleton]
    constructor
    · intro all
      exact ⟨fun u member => all u (.inl member), all t (.inr rfl)⟩
    · rintro ⟨log, last⟩ u (member | rfl)
      · exact log u member
      · exact last

@[simp] theorem Path.memory_bind {E : Env} {p : Path} {v : VarId} {t : Term} :
    (p.bind v (.term t)).memory E = (p.memory E).set v (t.eval E) := by
  simp only [memory, bind, Memory.set, Memory.mk.injEq, and_self, and_true]
  funext w
  rw [Table.get?_insert]
  split <;> rfl

theorem Constant.eval_term {E : Env} (c : Constant) : c.term.eval E = c.datum := by
  cases c <;> rfl

end TokenAudit
