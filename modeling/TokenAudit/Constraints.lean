import TokenAudit.Term.Basic

/-!
# Path constraints

The assertions of one path, the literal `true` never among them.  Where logs are copied and pushed onto, a pool keeps
their entries as links on one heap, each pointing at the link before it: a log is a pointer to its latest link and a
count, a copy is the same pointer and count, and logs with a common latest entry can be told from logs that look alike.
-/

namespace TokenAudit

structure ConstraintLog where
  latestFirst : List Term
  deriving DecidableEq, Repr, Inhabited

namespace ConstraintLog

def empty : ConstraintLog := ⟨[]⟩

def push (log : ConstraintLog) (t : Term) : ConstraintLog :=
  if t = .bool true then log else ⟨t :: log.latestFirst⟩

def terms (log : ConstraintLog) : List Term := log.latestFirst.reverse

def extended (log : ConstraintLog) (extra : List Term) : List Term := log.terms ++ extra

@[simp] theorem terms_push (log : ConstraintLog) (t : Term) :
    (log.push t).terms = if t = .bool true then log.terms else log.terms ++ [t] := by
  unfold push terms
  split <;> simp

end ConstraintLog

structure Link where
  term : Term
  prev : Option Nat
  deriving DecidableEq, Repr

structure SharedLog where
  head : Option Nat
  len : Nat
  deriving DecidableEq, Repr, Inhabited

def SharedLog.isEmpty (l : SharedLog) : Bool := l.len == 0

/-- The newest link comes first on the heap, and a link's address is the number of links older than it. -/
structure LogPool where
  heap : List Link
  logs : List SharedLog
  deriving DecidableEq, Repr, Inhabited

namespace LogPool

/-- The entries met from a link on backwards; a link points at an older one, so the walk goes down the heap. -/
def walk : List Link → Option Nat → List Term
  | link :: older, some a => if a = older.length then link.term :: walk older link.prev else walk older (some a)
  | _, _ => []

def read (pool : LogPool) (l : SharedLog) : ConstraintLog := ⟨walk pool.heap l.head⟩

def initial : LogPool := ⟨[], [⟨none, 0⟩]⟩

def push (pool : LogPool) (i : Nat) (t : Term) : LogPool :=
  match pool.logs[i]? with
  | some l =>
    if t = .bool true then pool
    else ⟨⟨t, l.head⟩ :: pool.heap, pool.logs.set i ⟨some pool.heap.length, l.len + 1⟩⟩
  | none => pool

def clone (pool : LogPool) (i : Nat) : LogPool :=
  match pool.logs[i]? with
  | some l => { pool with logs := pool.logs ++ [l] }
  | none => pool

def sharesLatest (pool : LogPool) (i j : Nat) : Bool :=
  match pool.logs[i]?, pool.logs[j]? with
  | some a, some b => a.head == b.head
  | _, _ => false

end LogPool

end TokenAudit
