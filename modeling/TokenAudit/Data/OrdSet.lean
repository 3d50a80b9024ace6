/-!
# Ordered sets

A set kept as an increasing list, so that walking it visits the members in order.
-/

namespace TokenAudit

structure OrdSet (α : Type) where
  toList : List α
  deriving Repr, DecidableEq

namespace OrdSet

variable {α : Type}

def empty : OrdSet α := ⟨[]⟩

instance : Inhabited (OrdSet α) := ⟨empty⟩

def insertInto [Ord α] (a : α) : List α → List α
  | [] => [a]
  | b :: rest =>
    match compare a b with
    | .lt => a :: b :: rest
    | .eq => b :: rest
    | .gt => b :: insertInto a rest

def insert [Ord α] (s : OrdSet α) (a : α) : OrdSet α := ⟨insertInto a s.toList⟩

def insertAll [Ord α] (s : OrdSet α) (as : List α) : OrdSet α := as.foldl insert s

def ofList [Ord α] (as : List α) : OrdSet α := empty.insertAll as

def contains [DecidableEq α] (s : OrdSet α) (a : α) : Bool := decide (a ∈ s.toList)

def isEmpty (s : OrdSet α) : Bool := s.toList.isEmpty

def size (s : OrdSet α) : Nat := s.toList.length

theorem mem_insertInto [Ord α] [Std.LawfulEqOrd α] (a b : α) (as : List α) :
    b ∈ insertInto a as ↔ b = a ∨ b ∈ as := by
  induction as with
  | nil => simp [insertInto]
  | cons c rest ih =>
    simp only [insertInto]
    split
    · simp
    · rename_i same
      have : a = c := Std.LawfulEqOrd.eq_of_compare same
      subst this
      simp
    · simp only [List.mem_cons, ih]
      grind

end OrdSet

end TokenAudit
