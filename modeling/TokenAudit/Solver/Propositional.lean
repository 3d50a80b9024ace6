import TokenAudit.Data.Table
import TokenAudit.Term.Smt

/-!
# Propositional satisfiability

Only the boolean connectives have a meaning, and every other part is an unknown of its own, named by its text.
-/

namespace TokenAudit

inductive Formula where
  | literal (name : String) (positive : Bool)
  | all (parts : List Formula)
  | any (parts : List Formula)

namespace Formula

def constant (b : Bool) : Formula := if b then .all [] else .any []

def join (j : Junction) (positive : Bool) (parts : List Formula) : Formula :=
  match j, positive with
  | .all, true => .all parts
  | .all, false => .any parts
  | .any, true => .any parts
  | .any, false => .all parts

def equationName (a b : Term) : String :=
  let x := a.smt
  let y := b.smt
  if y < x then Term.applied "=" [y, x] else Term.applied "=" [x, y]

mutual

def ofTerm (positive : Bool) : Term → Formula
  | .bool b => constant (b == positive)
  | .not t => ofTerm (!positive) t
  | .junction j ts => join j positive (ofTerms positive ts)
  | .order .le a b => .literal (Term.order .gt a b).smt !positive
  | .order .ge a b => .literal (Term.order .lt a b).smt !positive
  | .eq a b => .literal (equationName a b) positive
  | t => .literal t.smt positive

def ofTerms (positive : Bool) : List Term → List Formula
  | [] => []
  | t :: rest => ofTerm positive t :: ofTerms positive rest

end

mutual

def size : Formula → Nat
  | .literal _ _ => 1
  | .all parts => 1 + sizes parts
  | .any parts => 1 + sizes parts

def sizes : List Formula → Nat
  | [] => 0
  | f :: rest => size f + sizes rest

end

/-- Whether some assignment that extends `known` makes true every formula and one of each list of
alternatives.  Alternatives are tried only when no formula is left. -/
def holdsSomewhere : Nat → List Formula → List (List Formula) → Table String Bool → Bool
  | 0, _, _, _ => false
  | _ + 1, [], [], _ => true
  | fuel + 1, [], parts :: choices, known => parts.any fun f => holdsSomewhere fuel [f] choices known
  | fuel + 1, .all parts :: rest, choices, known => holdsSomewhere fuel (parts ++ rest) choices known
  | fuel + 1, .any parts :: rest, choices, known => holdsSomewhere fuel rest (parts :: choices) known
  | fuel + 1, .literal name positive :: rest, choices, known =>
    match known.get? name with
    | some b => b == positive && holdsSomewhere fuel rest choices known
    | none => holdsSomewhere fuel rest choices (known.insert name positive)

end Formula

/-- A part of a formula is met at most twice, which bounds the search. -/
def propositionallySatisfiable (assertions : List Term) : Bool :=
  let formulas := Formula.ofTerms true assertions
  Formula.holdsSomewhere (2 * Formula.sizes formulas + 1) formulas [] .empty

end TokenAudit
