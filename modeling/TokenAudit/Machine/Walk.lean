import TokenAudit.Machine.Step

/-!
# Walks

One path followed through a function, the condition of each way assumed without asking whether it can hold.
-/

namespace TokenAudit

structure Stride where
  before : Path
  after : Path
  result : Except PathError (List Successor)

namespace Path

def assumeEdge (p : Path) (constraint : Option Term) : Path :=
  match constraint with
  | some t => p.assume t
  | none => p

def go (p : Path) (way : Successor) : Path := { p.assumeEdge way.constraint? with location := way.next? }

end Path

/-- The walk ends at a failure, at a choice that is not there, and where the path ends unless it is to go `beyond`. -/
def Machine.walk (M : Machine) (beyond : Bool) : (n : Nat) → (choices : List Nat) → Path → List Stride × Path
  | 0, _, p => ([], p)
  | n + 1, choices, p =>
    let (result, q) := M.stepOn p
    let stride : Stride := ⟨p, q, result⟩
    match result with
    | .error _ => ([stride], q)
    | .ok ways =>
      match ways[choices.headD 0]? with
      | none => ([stride], q)
      | some way =>
        let next := q.go way
        if next.location.isNone && !beyond then ([stride], next)
        else
          let (strides, last) := M.walk beyond n choices.tail next
          (stride :: strides, last)

end TokenAudit
