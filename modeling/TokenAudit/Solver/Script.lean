import TokenAudit.Solver.Basic
import TokenAudit.Term.Smt

/-!
# Query scripts

The text of one query: a declaration for each symbol in order of name, then one `assert` for each
term.  A symbol that occurs with two sorts cannot be declared.
-/

namespace TokenAudit

namespace Term

mutual

def symbols : Term → List (String × SmtSort)
  | .var name sort => [(name, sort)]
  | .int _ => []
  | .bool _ => []
  | .str _ => []
  | .arith _ a b => symbols b ++ symbols a
  | .order _ a b => symbols b ++ symbols a
  | .eq a b => symbols b ++ symbols a
  | .not a => symbols a
  | .junction _ ts => symbolsAll ts
  | .ite c a b => symbols b ++ symbols a ++ symbols c
  | .select a k => symbols k ++ symbols a
  | .store a k v => symbols v ++ symbols k ++ symbols a

def symbolsAll : List Term → List (String × SmtSort)
  | [] => []
  | t :: ts => symbolsAll ts ++ symbols t

end

end Term

abbrev Declarations := List (String × SmtSort)

namespace Declarations

def declare (name : String) (sort : SmtSort) : Declarations → Except SolverError Declarations
  | [] => .ok [(name, sort)]
  | (n, s) :: rest =>
    match compare name n with
    | .lt => .ok ((name, sort) :: (n, s) :: rest)
    | .eq => if s = sort then .ok ((n, s) :: rest) else .error (.sortClash name)
    | .gt => (declare name sort rest).map ((n, s) :: ·)

def declareAll (decls : Declarations) : List (String × SmtSort) → Except SolverError Declarations
  | [] => .ok decls
  | (name, sort) :: rest =>
    match declare name sort decls with
    | .ok decls => declareAll decls rest
    | .error e => .error e

def ofTerms (ts : List Term) : Except SolverError Declarations :=
  declareAll [] (ts.flatMap Term.symbols)

end Declarations

structure Script where
  declarations : List String
  assertions : List String
  deriving DecidableEq, Repr

namespace Script

def declaration (d : String × SmtSort) : String :=
  "(declare-fun " ++ quoteSymbol d.1 ++ " () " ++ d.2.smt ++ ")"

def assertion (t : Term) : String := "(assert " ++ t.smt ++ ")"

def ofTerms (assertions extra : List Term) : Except SolverError Script :=
  match Declarations.ofTerms (assertions ++ extra) with
  | .ok decls => .ok ⟨decls.map declaration, assertions.map assertion⟩
  | .error e => .error e

def lines (s : Script) : List String := s.declarations ++ s.assertions

def render (s : Script) : String := String.join (s.lines.map (· ++ "\n"))

end Script

end TokenAudit
