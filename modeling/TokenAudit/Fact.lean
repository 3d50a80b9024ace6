import TokenAudit.Term.Build

/-!
# Facts of a run

What a path records about its own history, each fact under a solver symbol of its own.
-/

namespace TokenAudit

inductive Fact where
  | written (var : String)
  | writtenCount (var : String)
  /-- The key that the `write`-th write used at mapping level `level`. -/
  | writtenKey (var : String) (write level : Nat)
  | postExec (var : String) (sort : SmtSort)
  | emitted (event : String)
  /-- Argument `index` of the `occurrence`-th emission, counted from one. -/
  | emittedArg (event : String) (occurrence index : Nat) (sort : SmtSort)
  | called (receiver function : String)
  | fnCalled (function : String)
  | callReturn (function : String) (sort : SmtSort)
  /-- Argument `index` of the `occurrence`-th call, counted from one. -/
  | callArg (function : String) (occurrence index : Nat) (sort : SmtSort)
  | threw
  | usedInCheck (name : String)
  deriving DecidableEq, Repr

namespace Fact

def symbol : Fact → String
  | .written var => var ++ "#written"
  | .writtenCount var => var ++ "#writtencnt"
  | .writtenKey var write level => var ++ "#" ++ toString write ++ "#" ++ toString level
  | .postExec var _ => var ++ "#postexec"
  | .emitted event => event ++ "#emitted"
  | .emittedArg event occurrence index _ => event ++ "#" ++ toString occurrence ++ "#" ++ toString index
  | .called receiver function => receiver ++ "." ++ function ++ "#called"
  | .fnCalled function => function ++ "#called"
  | .callReturn function _ => function ++ "#ret"
  | .callArg function occurrence index _ =>
    function ++ "#call#" ++ toString occurrence ++ "#" ++ toString index
  | .threw => "#throwed"
  | .usedInCheck name => name ++ "#check-used"

def sort : Fact → SmtSort
  | .written _ => .bool
  | .writtenCount _ => .int
  | .writtenKey _ _ _ => .int
  | .postExec _ s => s
  | .emitted _ => .bool
  | .emittedArg _ _ _ s => s
  | .called _ _ => .bool
  | .fnCalled _ => .bool
  | .callReturn _ s => s
  | .callArg _ _ _ s => s
  | .threw => .bool
  | .usedInCheck _ => .bool

def term (f : Fact) : Term := .var f.symbol f.sort

def denial (f : Fact) : Term := Term.mkNot f.term

end Fact

end TokenAudit
