import TokenAudit.ContractType.Reader
import TokenAudit.Json.Decode
import TokenAudit.Json.Reader
import TokenAudit.Program.Basic

/-!
# The program document

The JSON form in which a front end hands over a program.  What is told apart by its content, an instruction, a variable
or a constant, has to be usable throughout; the other records may hold unusable members that they do not ask for.
-/

namespace TokenAudit

open Json

/-! ## Names of the fixed choices -/

def ContractKind.names : List (String × ContractKind) :=
  [("contract", .contract), ("library", .library), ("interface", .interface)]

def ContractKind.name : ContractKind → String
  | .contract => "contract"
  | .library => "library"
  | .interface => "interface"

def Visibility.names : List (String × Visibility) :=
  [("public", .publicAccess), ("external", .externalAccess), ("internal", .internalAccess),
    ("private", .privateAccess)]

def Visibility.name : Visibility → String
  | .publicAccess => "public"
  | .externalAccess => "external"
  | .internalAccess => "internal"
  | .privateAccess => "private"

def Mutability.names : List (String × Mutability) :=
  [("pure", .pure), ("view", .view), ("payable", .payable), ("nonpayable", .nonpayable)]

def Mutability.name : Mutability → String
  | .pure => "pure"
  | .view => "view"
  | .payable => "payable"
  | .nonpayable => "nonpayable"

def NodeKind.names : List (String × NodeKind) :=
  [("entry", .entry), ("expression", .expression), ("variable", .declaration), ("if", .ifBranch),
    ("if_loop", .ifLoop), ("start_loop", .startLoop), ("end_loop", .endLoop), ("end_if", .endIf),
    ("return", .ret), ("throw", .throw), ("try", .tryCall), ("catch", .catchClause),
    ("placeholder", .placeholder), ("other", .other)]

def NodeKind.name : NodeKind → String
  | .entry => "entry"
  | .expression => "expression"
  | .declaration => "variable"
  | .ifBranch => "if"
  | .ifLoop => "if_loop"
  | .startLoop => "start_loop"
  | .endLoop => "end_loop"
  | .endIf => "end_if"
  | .ret => "return"
  | .throw => "throw"
  | .tryCall => "try"
  | .catchClause => "catch"
  | .placeholder => "placeholder"
  | .other => "other"

def UnaryOp.names : List (String × UnaryOp) := [("!", .not), ("~", .complement)]

def UnaryOp.name : UnaryOp → String
  | .not => "!"
  | .complement => "~"

def BinaryOp.names : List (String × BinaryOp) :=
  [("+", .add), ("-", .sub), ("*", .mul), ("/", .div), ("%", .mod), ("**", .pow), ("==", .eq),
    ("!=", .ne), ("<", .lt), (">", .gt), ("<=", .le), (">=", .ge), ("&&", .and), ("||", .or),
    ("&", .bitAnd), ("|", .bitOr), ("^", .bitXor), ("<<", .shiftLeft), (">>", .shiftRight)]

def BinaryOp.name : BinaryOp → String
  | .add => "+"
  | .sub => "-"
  | .mul => "*"
  | .div => "/"
  | .mod => "%"
  | .pow => "**"
  | .eq => "=="
  | .ne => "!="
  | .lt => "<"
  | .gt => ">"
  | .le => "<="
  | .ge => ">="
  | .and => "&&"
  | .or => "||"
  | .bitAnd => "&"
  | .bitOr => "|"
  | .bitXor => "^"
  | .shiftLeft => "<<"
  | .shiftRight => ">>"

/-! ## Encoding -/

def Json.ofOption {α : Type} (encode : α → Json) : Option α → Json
  | none => .null
  | some a => encode a

def Json.ofNat (n : Nat) : Json := .int n

def ContractType.toJson (t : ContractType) : Json := .str t.render

namespace Constant

def toJson : Constant → Json
  | .bool b => .bool b
  | .str s => .str s
  | .int i => if Number.fitsSigned i then .int i else .obj [("int", .str (toString i))]

end Constant

namespace Scope

def members : Scope → Members
  | .param f i => [("kind", .str "param"), ("function", .str f), ("index", .ofNat i)]
  | .localIn f => [("kind", .str "local"), ("function", .str f)]
  | .temporary f => [("kind", .str "temporary"), ("function", .str f)]
  | .reference f => [("kind", .str "reference"), ("function", .str f)]
  | .state => [("kind", .str "state")]
  | .builtin => [("kind", .str "solidity")]

end Scope

namespace Variable

def toJson (v : Variable) : Json :=
  .obj ([("name", .str v.name), ("type", v.type.toJson)] ++ v.scope.members)

end Variable

namespace Operand

def toJson : Operand → Json
  | .var v => v.toJson
  | .const c => c.toJson

end Operand

namespace CallSignature

def toJson (s : CallSignature) : Json :=
  .obj [("name", .str s.name), ("params", .arr (s.params.map ContractType.toJson)),
    ("returns", .arr (s.returns.map ContractType.toJson))]

end CallSignature

namespace Instruction

def operands (os : List Operand) : Json := .arr (os.map Operand.toJson)

def maybeTarget (t : Option Variable) : Json := .ofOption Variable.toJson t

def record (tag : String) (members : Members) : Json := .obj (("instruction", .str tag) :: members)

def toJson : Instruction → Json
  | .builtinCall function arguments target =>
    record "solidity_call"
      [("function", .str function), ("arguments", operands arguments), ("lvalue", maybeTarget target)]
  | .assignment target source =>
    record "assignment" [("lvalue", target.toJson), ("rvalue", source.toJson)]
  | .conversion target source =>
    record "type_conversion" [("lvalue", target.toJson), ("variable", source.toJson)]
  | .internalCall function arguments target =>
    record "internal_call"
      [("function", .str function), ("arguments", operands arguments), ("lvalue", maybeTarget target)]
  | .libraryCall library function arguments target =>
    record "library_call"
      [("library", .str library), ("function", .str function), ("arguments", operands arguments),
        ("lvalue", maybeTarget target)]
  | .highLevelCall destination callee arguments target =>
    record "high_level_call"
      [("destination", destination.toJson), ("function", callee.toJson), ("arguments", operands arguments),
        ("lvalue", maybeTarget target)]
  | .lowLevelCall destination function arguments target =>
    record "low_level_call"
      [("destination", destination.toJson), ("function_name", .str function),
        ("arguments", operands arguments), ("lvalue", maybeTarget target)]
  | .unary op source target =>
    record "unary" [("op", .str op.name), ("rvalue", source.toJson), ("lvalue", target.toJson)]
  | .binary op left right target checked =>
    record "binary"
      [("op", .str op.name), ("left", left.toJson), ("right", right.toJson), ("lvalue", target.toJson),
        ("checked", .bool checked)]
  | .length array target => record "length" [("value", array.toJson), ("lvalue", target.toJson)]
  | .eventCall name arguments => record "event_call" [("name", .str name), ("arguments", operands arguments)]
  | .index target base key =>
    record "index" [("lvalue", target.toJson), ("base", base.toJson), ("key", key.toJson)]
  | .delete target erased => record "delete" [("lvalue", target.toJson), ("variable", erased.toJson)]
  | .newElementary target => record "new_elementary_type" [("lvalue", target.toJson)]
  | .ret values => record "return" [("values", operands values)]
  | .unpack target tuple place =>
    record "unpack" [("lvalue", target.toJson), ("tuple", tuple.toJson), ("index", .ofNat place)]
  | .member target base field =>
    record "member" [("lvalue", target.toJson), ("base", base.toJson), ("member", .str field)]
  | .condition value => record "condition" [("value", value.toJson)]
  | .transfer destination amount =>
    record "transfer" [("destination", destination.toJson), ("amount", amount.toJson)]
  | .send destination amount target =>
    record "send"
      [("destination", destination.toJson), ("amount", amount.toJson), ("lvalue", maybeTarget target)]
  | .newArray target arguments =>
    record "new_array" [("lvalue", target.toJson), ("arguments", operands arguments)]
  | .initArray target values => record "init_array" [("lvalue", target.toJson), ("values", operands values)]
  | .codeSize target account => record "code_size" [("lvalue", target.toJson), ("value", account.toJson)]
  | .unsupported description target =>
    record "unsupported" [("description", .str description), ("lvalue", maybeTarget target)]

end Instruction

namespace Node

def toJson (n : Node) : Json :=
  .obj [("id", .ofNat n.id), ("kind", .str n.kind.name),
    ("instructions", .arr (n.instructions.map Instruction.toJson)), ("sons", .arr (n.sons.map .ofNat)),
    ("son_true", .ofOption .ofNat n.sonTrue), ("son_false", .ofOption .ofNat n.sonFalse),
    ("variable", .ofOption Variable.toJson n.declared)]

end Node

namespace StateVariable

def toJson (v : StateVariable) : Json :=
  .obj [("name", .str v.name), ("type", v.type.toJson), ("visibility", .str v.visibility.name),
    ("initializer", .ofOption Constant.toJson v.initializer)]

end StateVariable

namespace EventDecl

def paramJson (p : EventParam) : Json :=
  .obj [("name", .str p.name), ("type", p.type.toJson), ("indexed", .bool p.indexed)]

def toJson (e : EventDecl) : Json :=
  .obj [("name", .str e.name), ("params", .arr (e.params.map paramJson))]

end EventDecl

namespace Function

def paramJson (p : Param) : Json := .obj [("name", .str p.name), ("type", p.type.toJson)]

def toJson (f : Function) : Json :=
  .obj [("name", .str f.name), ("params", .arr (f.params.map paramJson)),
    ("returns", .arr (f.returns.map ContractType.toJson)), ("visibility", .str f.visibility.name),
    ("mutability", .str f.mutability.name), ("is_constructor", .bool f.isConstructor),
    ("entry", .ofNat f.entry), ("nodes", .arr (f.nodes.map Node.toJson)),
    ("source", .ofOption .str f.source)]

end Function

namespace Contract

def toJson (c : Contract) : Json :=
  .obj [("name", .str c.name), ("kind", .str c.kind.name),
    ("state_variables", .arr (c.stateVariables.map StateVariable.toJson)),
    ("functions", .arr (c.functions.map Function.toJson)), ("events", .arr (c.events.map EventDecl.toJson))]

end Contract

namespace Program

def toJson (p : Program) : Json := .obj [("contracts", .arr (p.contracts.map Contract.toJson))]

end Program

/-! ## Decoding -/

def ContractType.ofJson? (j : Json) : Option ContractType := j.string?.bind ContractType.read?

namespace Constant

def ofJson? : Json → Option Constant
  | .bool b => some (.bool b)
  | .int i => some (.int i)
  | .str s => some (.str s)
  | .obj ms => (required ms "int" string?).bind fun s => (Number.readLiteral s).map .int
  | _ => none

end Constant

namespace Scope

inductive Tag where
  | param
  | localIn
  | temporary
  | reference
  | state
  | builtin

def tags : List (String × Tag) :=
  [("param", .param), ("local", .localIn), ("temporary", .temporary), ("reference", .reference),
    ("state", .state), ("solidity", .builtin)]

def ofMembers? (ms : Members) : Option Scope := do
  match ← tagged .nested "kind" tags ms with
  | .param => return .param (← required ms "function" string?) (← required ms "index" nat?)
  | .localIn => return .localIn (← required ms "function" string?)
  | .temporary => return .temporary (← required ms "function" string?)
  | .reference => return .reference (← required ms "function" string?)
  | .state => return .state
  | .builtin => return .builtin

end Scope

namespace Variable

def ofJson? (j : Json) : Option Variable := do
  let ms ← j.members?
  let name ← required ms "name" string?
  let type ← required ms "type" ContractType.ofJson?
  let scope ← Scope.ofMembers? ms
  return ⟨name, scope, type⟩

end Variable

namespace Operand

def ofJson? (j : Json) : Option Operand :=
  ((Variable.ofJson? j).map .var).or ((Constant.ofJson? j).map .const)

end Operand

namespace CallSignature

def ofJson? (j : Json) : Option CallSignature := do
  let ms ← j.record? ["name", "params", "returns"]
  let name ← required ms "name" string?
  let params ← defaulted ms "params" [] (list? ContractType.ofJson?)
  let returns ← defaulted ms "returns" [] (list? ContractType.ofJson?)
  return ⟨name, params, returns⟩

end CallSignature

namespace Instruction

inductive Tag where
  | builtinCall
  | assignment
  | conversion
  | internalCall
  | libraryCall
  | highLevelCall
  | lowLevelCall
  | unary
  | binary
  | length
  | eventCall
  | index
  | delete
  | newElementary
  | ret
  | unpack
  | member
  | condition
  | transfer
  | send
  | newArray
  | initArray
  | codeSize
  | unsupported

def tags : List (String × Tag) :=
  [("solidity_call", .builtinCall), ("assignment", .assignment), ("type_conversion", .conversion),
    ("internal_call", .internalCall), ("library_call", .libraryCall), ("high_level_call", .highLevelCall),
    ("low_level_call", .lowLevelCall), ("unary", .unary), ("binary", .binary), ("length", .length),
    ("event_call", .eventCall), ("index", .index), ("delete", .delete),
    ("new_elementary_type", .newElementary), ("return", .ret), ("unpack", .unpack), ("member", .member),
    ("condition", .condition), ("transfer", .transfer), ("send", .send), ("new_array", .newArray),
    ("init_array", .initArray), ("code_size", .codeSize), ("unsupported", .unsupported)]

def Tag.members : Tag → List String
  | .builtinCall => ["function", "arguments", "lvalue"]
  | .assignment => ["lvalue", "rvalue"]
  | .conversion => ["lvalue", "variable"]
  | .internalCall => ["function", "arguments", "lvalue"]
  | .libraryCall => ["library", "function", "arguments", "lvalue"]
  | .highLevelCall => ["destination", "function", "arguments", "lvalue"]
  | .lowLevelCall => ["destination", "function_name", "arguments", "lvalue"]
  | .unary => ["op", "rvalue", "lvalue"]
  | .binary => ["op", "left", "right", "lvalue", "checked"]
  | .length => ["value", "lvalue"]
  | .eventCall => ["name", "arguments"]
  | .index => ["lvalue", "base", "key"]
  | .delete => ["lvalue", "variable"]
  | .newElementary => ["lvalue"]
  | .ret => ["values"]
  | .unpack => ["lvalue", "tuple", "index"]
  | .member => ["lvalue", "base", "member"]
  | .condition => ["value"]
  | .transfer => ["destination", "amount"]
  | .send => ["destination", "amount", "lvalue"]
  | .newArray => ["lvalue", "arguments"]
  | .initArray => ["lvalue", "values"]
  | .codeSize => ["lvalue", "value"]
  | .unsupported => ["description", "lvalue"]

def operand? (ms : Members) (name : String) : Option Operand := required ms name Operand.ofJson?

def operands? (ms : Members) (name : String) : Option (List Operand) :=
  defaulted ms name [] (list? Operand.ofJson?)

def varAt? (ms : Members) (name : String) : Option Variable := required ms name Variable.ofJson?

def maybeTarget? (ms : Members) : Option (Option Variable) := optional ms "lvalue" Variable.ofJson?

def ofMembers? (ms : Members) : Tag → Option Instruction
  | .builtinCall => do
    return .builtinCall (← required ms "function" string?) (← operands? ms "arguments") (← maybeTarget? ms)
  | .assignment => do return .assignment (← varAt? ms "lvalue") (← operand? ms "rvalue")
  | .conversion => do return .conversion (← varAt? ms "lvalue") (← operand? ms "variable")
  | .internalCall => do
    return .internalCall (← required ms "function" string?) (← operands? ms "arguments") (← maybeTarget? ms)
  | .libraryCall => do
    return .libraryCall (← required ms "library" string?) (← required ms "function" string?)
      (← operands? ms "arguments") (← maybeTarget? ms)
  | .highLevelCall => do
    return .highLevelCall (← operand? ms "destination") (← required ms "function" CallSignature.ofJson?)
      (← operands? ms "arguments") (← maybeTarget? ms)
  | .lowLevelCall => do
    return .lowLevelCall (← operand? ms "destination") (← required ms "function_name" string?)
      (← operands? ms "arguments") (← maybeTarget? ms)
  | .unary => do
    return .unary (← required ms "op" (oneOf .nested UnaryOp.names)) (← operand? ms "rvalue")
      (← varAt? ms "lvalue")
  | .binary => do
    return .binary (← required ms "op" (oneOf .nested BinaryOp.names)) (← operand? ms "left")
      (← operand? ms "right") (← varAt? ms "lvalue") (← defaulted ms "checked" false bool?)
  | .length => do return .length (← varAt? ms "value") (← varAt? ms "lvalue")
  | .eventCall => do return .eventCall (← required ms "name" string?) (← operands? ms "arguments")
  | .index => do return .index (← varAt? ms "lvalue") (← varAt? ms "base") (← operand? ms "key")
  | .delete => do return .delete (← varAt? ms "lvalue") (← varAt? ms "variable")
  | .newElementary => do return .newElementary (← varAt? ms "lvalue")
  | .ret => do return .ret (← operands? ms "values")
  | .unpack => do return .unpack (← varAt? ms "lvalue") (← varAt? ms "tuple") (← required ms "index" nat?)
  | .member => do
    return .member (← varAt? ms "lvalue") (← operand? ms "base") (← required ms "member" string?)
  | .condition => do return .condition (← operand? ms "value")
  | .transfer => do return .transfer (← operand? ms "destination") (← operand? ms "amount")
  | .send => do return .send (← operand? ms "destination") (← operand? ms "amount") (← maybeTarget? ms)
  | .newArray => do return .newArray (← varAt? ms "lvalue") (← operands? ms "arguments")
  | .initArray => do return .initArray (← varAt? ms "lvalue") (← operands? ms "values")
  | .codeSize => do return .codeSize (← varAt? ms "lvalue") (← operand? ms "value")
  | .unsupported => do
    return .unsupported (← defaulted ms "description" "" string?) (← maybeTarget? ms)

def ofJson? (j : Json) : Option Instruction :=
  (choice .outer "instruction" tags Tag.members j).bind fun (tag, ms) => ofMembers? ms tag

end Instruction

namespace Node

def ofJson? (j : Json) : Option Node := do
  let ms ← j.record? ["id", "kind", "instructions", "sons", "son_true", "son_false", "variable"]
  let id ← required ms "id" nat?
  let kind ← defaulted ms "kind" .expression (oneOf .outer NodeKind.names)
  let instructions ← defaulted ms "instructions" [] (list? (entire Instruction.ofJson?))
  let sons ← defaulted ms "sons" [] (list? nat?)
  let sonTrue ← optional ms "son_true" nat?
  let sonFalse ← optional ms "son_false" nat?
  let declared ← optional ms "variable" (entire Variable.ofJson?)
  return ⟨id, kind, instructions, sons, sonTrue, sonFalse, declared⟩

end Node

namespace StateVariable

def ofJson? (j : Json) : Option StateVariable := do
  let ms ← j.record? ["name", "type", "visibility", "initializer"]
  let name ← required ms "name" string?
  let type ← required ms "type" ContractType.ofJson?
  let visibility ← defaulted ms "visibility" .internalAccess (oneOf .outer Visibility.names)
  let initializer ← optional ms "initializer" (entire Constant.ofJson?)
  return ⟨name, type, visibility, initializer⟩

end StateVariable

namespace EventDecl

def param? (j : Json) : Option EventParam := do
  let ms ← j.record? ["name", "type", "indexed"]
  let name ← defaulted ms "name" "" string?
  let type ← required ms "type" ContractType.ofJson?
  let indexed ← defaulted ms "indexed" false bool?
  return ⟨name, type, indexed⟩

def ofJson? (j : Json) : Option EventDecl := do
  let ms ← j.record? ["name", "params"]
  let name ← required ms "name" string?
  let params ← defaulted ms "params" [] (list? param?)
  return ⟨name, params⟩

end EventDecl

namespace Function

def paramOfJson? (j : Json) : Option Param := do
  let ms ← j.record? ["name", "type"]
  let name ← required ms "name" string?
  let type ← required ms "type" ContractType.ofJson?
  return ⟨name, type⟩

def ofJson? (j : Json) : Option Function := do
  let ms ← j.record? ["name", "params", "returns", "visibility", "mutability", "is_constructor", "entry",
    "nodes", "source"]
  let name ← required ms "name" string?
  let params ← defaulted ms "params" [] (list? paramOfJson?)
  let returns ← defaulted ms "returns" [] (list? ContractType.ofJson?)
  let visibility ← defaulted ms "visibility" .publicAccess (oneOf .outer Visibility.names)
  let mutability ← defaulted ms "mutability" .nonpayable (oneOf .outer Mutability.names)
  let isConstructor ← defaulted ms "is_constructor" false bool?
  let entry ← defaulted ms "entry" 0 nat?
  let nodes ← defaulted ms "nodes" [] (list? Node.ofJson?)
  let source ← optional ms "source" string?
  return ⟨name, params, returns, visibility, mutability, isConstructor, entry, nodes, source⟩

end Function

namespace Contract

def ofJson? (j : Json) : Option Contract := do
  let ms ← j.record? ["name", "kind", "state_variables", "functions", "events"]
  let name ← required ms "name" string?
  let kind ← defaulted ms "kind" .contract (oneOf .outer ContractKind.names)
  let stateVariables ← defaulted ms "state_variables" [] (list? StateVariable.ofJson?)
  let functions ← defaulted ms "functions" [] (list? Function.ofJson?)
  let events ← defaulted ms "events" [] (list? EventDecl.ofJson?)
  return ⟨name, kind, stateVariables, functions, events⟩

end Contract

/-! ## Documents -/

inductive DocumentError where
  | unreadable (path detail : String)
  | notDecodable
  | malformed (contract function : String) (fault : Fault)
  deriving DecidableEq, Repr

def DocumentError.message : DocumentError → String
  | .unreadable path detail => "failed to read " ++ path ++ ": " ++ detail
  | .notDecodable => "malformed front-end document"
  | .malformed contract function fault => "function " ++ contract ++ "." ++ function ++ ": " ++ fault.message

namespace Program

def ofJson? (j : Json) : Option Program := do
  let ms ← j.record? ["contracts"]
  let contracts ← defaulted ms "contracts" [] (list? Contract.ofJson?)
  return ⟨contracts⟩

def ofJson (j : Json) : Except DocumentError Program :=
  match ofJson? j with
  | none => .error .notDecodable
  | some p =>
    match p.fault? with
    | some (contract, function, fault) => .error (.malformed contract function fault)
    | none => .ok p

def read (text : String) : Except DocumentError Program :=
  match Json.scan text with
  | some j => ofJson j
  | none => .error .notDecodable

end Program

end TokenAudit
