import TokenAudit.Check.Format
import TokenAudit.Rule.Signature

/-!
# Rule documents

The rules of one token standard with the interface it asks for.  A document is an object, or just the
array of its rules.
-/

namespace TokenAudit

open Json

inductive RuleKind where
  | throw
  | emit
  | assign
  | call
  | ret
  | order
  | interface
  deriving DecidableEq, Repr, Inhabited

def RuleKind.names : List (String × RuleKind) :=
  [("throw", .throw), ("emit", .emit), ("assign", .assign), ("call", .call), ("return", .ret),
    ("order", .order), ("interface", .interface)]

def RuleKind.name : RuleKind → String
  | .throw => "throw"
  | .emit => "emit"
  | .assign => "assign"
  | .call => "call"
  | .ret => "return"
  | .order => "order"
  | .interface => "interface"

structure Rule where
  text : String
  kind : RuleKind
  interface : String
  condition : Option String
  check : Option Json
  deriving Inhabited

structure RuleDocument where
  name : String
  functions : List String
  events : List String
  rules : List Rule
  deriving Inhabited

inductive RuleError where
  | unreadable (path detail : String)
  | notDecodable
  deriving DecidableEq, Repr

def RuleError.message : RuleError → String
  | .unreadable path detail => "cannot read " ++ path ++ ": " ++ detail
  | .notDecodable => "malformed rule document"

namespace Rule

def decodedCheck? (r : Rule) : Option (Except CheckError Check) := r.check.map Check.decode

def signature (r : Rule) : Except SignatureError Signature := Signature.read r.interface

def toJson (r : Rule) : Json :=
  .obj ([("rule", .str r.text), ("type", .str r.kind.name), ("interface", .str r.interface)] ++
    (r.condition.map fun c => ("if", Json.str c)).toList ++ (r.check.map fun c => ("sym", c)).toList)

def ofJson? (j : Json) : Option Rule := do
  let ms ← j.record? ["rule", "type", "interface", "if", "sym"]
  let text ← required ms "rule" string?
  let kind ← required ms "type" (oneOf .outer RuleKind.names)
  let interface ← defaulted ms "interface" "" string?
  let condition ← optional ms "if" string?
  let check ← optional ms "sym" some
  return ⟨text, kind, interface, condition, check.map Json.normal⟩

end Rule

namespace RuleDocument

def interfaceJson (text : String) : Json := .obj [("def", .str text)]

def toJson (d : RuleDocument) : Json :=
  .obj [("name", .str d.name), ("functions", .arr (d.functions.map interfaceJson)),
    ("events", .arr (d.events.map interfaceJson)), ("rules", .arr (d.rules.map Rule.toJson))]

def interface? (j : Json) : Option String := do
  let ms ← j.record? ["def"]
  required ms "def" string?

def whole? (j : Json) : Option RuleDocument := do
  let ms ← j.record? ["name", "functions", "events", "rules"]
  let name ← defaulted ms "name" "" string?
  let functions ← defaulted ms "functions" [] (list? interface?)
  let events ← defaulted ms "events" [] (list? interface?)
  let rules ← defaulted ms "rules" [] (list? Rule.ofJson?)
  return ⟨name, functions, events, rules⟩

def ofJson? (j : Json) : Option RuleDocument :=
  match list? Rule.ofJson? j with
  | some rules => some ⟨"", [], [], rules⟩
  | none => whole? j

def read (text : String) : Except RuleError RuleDocument :=
  match (Json.read text).bind ofJson? with
  | some d => .ok d
  | none => .error .notDecodable

/-- A document without a name takes the name of its file, extension left out. -/
def named (d : RuleDocument) (stem : String) : RuleDocument :=
  if d.name.isEmpty then { d with name := stem } else d

end RuleDocument

end TokenAudit
