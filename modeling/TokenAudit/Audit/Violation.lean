import TokenAudit.Rule.Document

/-!
# Violations

One rule that a contract fails.
-/

namespace TokenAudit

inductive Severity where
  | high
  | medium
  | low
  deriving DecidableEq, Repr

namespace Severity

def ofKind : RuleKind → Severity
  | .throw => .high
  | .call => .high
  | .assign => .high
  | .interface => .low
  | .emit => .medium
  | .ret => .medium
  | .order => .medium

def name : Severity → String
  | .high => "high"
  | .medium => "medium"
  | .low => "low"

def rank : Severity → Nat
  | .high => 0
  | .medium => 1
  | .low => 2

end Severity

def RuleKind.rank : RuleKind → Nat
  | .throw => 0
  | .emit => 1
  | .assign => 2
  | .call => 3
  | .ret => 4
  | .order => 5
  | .interface => 6

structure Violation where
  document : String
  ruleId : Nat
  kind : RuleKind
  rule : String
  contract : String
  interface : String
  function : Option String
  severity : Severity
  /-- In order. -/
  tags : List String
  deriving DecidableEq, Repr

namespace Violation

def compareOption : Option String → Option String → Ordering
  | none, none => .eq
  | none, some _ => .lt
  | some _, none => .gt
  | some a, some b => compare a b

def compareTags : List String → List String → Ordering
  | [], [] => .eq
  | [], _ :: _ => .lt
  | _ :: _, [] => .gt
  | a :: as, b :: bs => (compare a b).then (compareTags as bs)

def order (a b : Violation) : Ordering :=
  (compare a.document b.document).then <|
  (compare a.ruleId b.ruleId).then <|
  (compare a.kind.rank b.kind.rank).then <|
  (compare a.rule b.rule).then <|
  (compare a.contract b.contract).then <|
  (compare a.interface b.interface).then <|
  (compareOption a.function b.function).then <|
  (compare a.severity.rank b.severity.rank).then <|
  compareTags a.tags b.tags

def sort (vs : List Violation) : List Violation := vs.mergeSort fun a b => order a b != .gt

def toJson (v : Violation) : Json :=
  .obj ([("erc", .str v.document), ("rule_id", .ofNat v.ruleId), ("kind", .str v.kind.name),
      ("rule", .str v.rule), ("contract", .str v.contract), ("interface", .str v.interface)] ++
    (v.function.map fun f => ("function", Json.str f)).toList ++
    [("severity", .str v.severity.name), ("tags", .arr (v.tags.map Json.str))])

end Violation

end TokenAudit
