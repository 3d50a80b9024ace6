import TokenAudit.Check.Basic
import TokenAudit.Program.Format

/-!
# The JSON form of checks

A check is written as one object with its kind under `type`.  It is also read from an object whose
single member is named for the kind, and from an object with one member that holds a written check.
-/

namespace TokenAudit

open Json Selector

def CompOp.names : List (String × CompOp) :=
  [("eq", .eq), ("not_eq", .notEq), ("gt", .gt), ("lt", .lt), ("gte", .gte), ("lte", .lte)]

def CompOp.name : CompOp → String
  | .eq => "eq"
  | .notEq => "not_eq"
  | .gt => "gt"
  | .lt => "lt"
  | .gte => "gte"
  | .lte => "lte"

def Junction.names : List (String × Junction) := [("and", .all), ("or", .any)]

def Junction.name : Junction → String
  | .all => "and"
  | .any => "or"

def ChangeType.names : List (String × ChangeType) :=
  [("none", .unspecified), ("token_creation", .tokenCreation), ("token_burn", .tokenBurn)]

def ChangeType.name : ChangeType → String
  | .unspecified => "none"
  | .tokenCreation => "token_creation"
  | .tokenBurn => "token_burn"

def ThrowOp.names : List (String × ThrowOp) := [("throw", .throws), ("not_throw", .passes)]

def ThrowOp.name : ThrowOp → String
  | .throws => "throw"
  | .passes => "not_throw"

/-! ## Encoding -/

/-- A literal of a rule: integers beyond 64 bits are written as text. -/
def Constant.literalJson : Constant → Json
  | .bool b => .bool b
  | .int i => if Number.fitsSigned i then .int i else .str (toString i)
  | .str s => .str s

namespace Selector

mutual

def toJson : Selector → Json
  | .funcParam index => .obj [("type", .str "FuncParamSelector"), ("index", .ofNat index)]
  | .eventParam index => .obj [("type", .str "EventParamSelector"), ("index", .ofNat index)]
  | .callParam index => .obj [("type", .str "FnCallParamSelector"), ("index", .ofNat index)]
  | .stateVar anchor keys =>
    .obj [("type", .str "StateVarSelector"), ("anchor_fn", .str anchor), ("keys", .arr (allToJson keys))]
  | .constant value => .obj [("type", .str "ConstantSelector"), ("value", value.literalJson)]
  | .msgSender => .obj [("type", .str "MsgSenderSelector")]
  | .arrLength array => .obj [("type", .str "ArrLengthSelector"), ("value", toJson array)]
  | .callReturn function => .obj [("type", .str "FnCallRetSelector"), ("fn_name", .str function)]
  | .noneValue => .obj [("type", .str "NoneValueSelector")]

def allToJson : List Selector → List Json
  | [] => []
  | s :: rest => toJson s :: allToJson rest

end

end Selector

namespace Condition

mutual

def toJson : Condition → Json
  | .comparison left right op =>
    .obj [("type", .str "CompCondition"), ("left", left.toJson), ("right", right.toJson),
      ("op", .str op.name)]
  | .logic parts op =>
    .obj [("type", .str "LogicCondition"), ("cond", .arr (allToJson parts)), ("op", .str op.name)]
  | .written value change =>
    .obj [("type", .str "WrittenCondition"), ("value", value.toJson), ("change_type", .str change.name)]
  | .usedInCheck value => .obj [("type", .str "UsedInCheckCondition"), ("value", value.toJson)]

def allToJson : List Condition → List Json
  | [] => []
  | c :: rest => toJson c :: allToJson rest

end

end Condition

def ArgCheck.toJson (a : ArgCheck) : Json :=
  .obj [("arg_index", .ofNat a.index), ("value", .ofOption Selector.toJson a.value),
    ("cond", .ofOption Condition.toJson a.cond)]

def OrderTarget.toJson : OrderTarget → Json
  | .event name arg => .obj [("event", .str name), ("arg_idx", .ofNat arg)]
  | .written state level => .obj [("sv", state.toJson), ("arg_idx", .ofNat level)]

namespace Check

def kind : Check → String
  | .throws _ => "ThrowVerify"
  | .returns _ => "ReturnVerify"
  | .emits _ => "EmitVerify"
  | .assigns _ => "StateAssignVerify"
  | .calls _ => "CallVerify"
  | .orders _ => "OrderVerify"

def members : Check → Members
  | .throws c => [("cond", c.cond.toJson), ("op", .str c.op.name)]
  | .returns c =>
    [("ret_val", c.expected.toJson), ("cond", .ofOption Condition.toJson c.cond),
      ("at_least_one", .bool c.atLeastOne)]
  | .emits c =>
    [("event", .str c.event), ("sv_cond", .ofOption Condition.toJson c.stateCond),
      ("alternative_events", .arr (c.alternatives.map .str)), ("cond", .ofOption Condition.toJson c.cond),
      ("within_call_fn", .ofOption .str c.within), ("error_if_no_sv_cond", .bool c.needsStateCond),
      ("arg_verifiers", .arr (c.args.map ArgCheck.toJson))]
  | .assigns c =>
    [("state", c.state.toJson), ("value", c.value.toJson), ("op", .str c.op),
      ("event", .ofOption .str c.event)]
  | .calls c =>
    [("callee", .str c.callee), ("on", c.receiver.toJson), ("cond", .str c.cond),
      ("arg_verifiers", .arr (c.args.map ArgCheck.toJson)),
      ("alternative_callees", .arr (c.alternatives.map .str))]
  | .orders c => [("target", c.target.toJson), ("ordered_by", c.orderedBy.toJson)]

def toJson (c : Check) : Json := .obj (("type", .str c.kind) :: c.members)

end Check

/-! ## Decoding -/

namespace Json

mutual

def depth : Json → Nat
  | .arr items => itemsDepth items + 1
  | .obj members => membersDepth members + 1
  | _ => 0

def itemsDepth : List Json → Nat
  | [] => 0
  | j :: rest => max (depth j) (itemsDepth rest)

def membersDepth : Members → Nat
  | [] => 0
  | (_, v) :: rest => max (depth v) (membersDepth rest)

end

end Json

/-- A literal of a rule: text that reads as an integer is that integer. -/
def Constant.ofLiteral? : Json → Option Constant
  | .bool b => some (.bool b)
  | .int i => some (.int i)
  | .str s =>
    match Number.readLiteral s with
    | some i => some (.int i)
    | none => some (.str s)
  | _ => none

namespace Selector

inductive Tag where
  | funcParam
  | eventParam
  | callParam
  | stateVar
  | constant
  | msgSender
  | arrLength
  | callReturn
  | noneValue

def tags : List (String × Tag) :=
  [("FuncParamSelector", .funcParam), ("EventParamSelector", .eventParam),
    ("FnCallParamSelector", .callParam), ("StateVarSelector", .stateVar), ("ConstantSelector", .constant),
    ("MsgSenderSelector", .msgSender), ("ArrLengthSelector", .arrLength),
    ("FnCallRetSelector", .callReturn), ("NoneValueSelector", .noneValue)]

def Tag.members : Tag → List String
  | .funcParam => ["index"]
  | .eventParam => ["index"]
  | .callParam => ["index"]
  | .stateVar => ["anchor_fn", "keys"]
  | .constant => ["value"]
  | .msgSender => []
  | .arrLength => ["value"]
  | .callReturn => ["fn_name"]
  | .noneValue => []

def keyOf? (decode : Json → Option Selector) (j : Json) : Option Selector :=
  match decode j, j with
  | some s, _ => some s
  | none, .str s => if s == "msg.sender" then some .msgSender else none
  | none, _ => none

def decode? : Nat → Standing → Json → Option Selector
  | 0, _, _ => none
  | fuel + 1, standing, j => do
    let (tag, ms) ← choice standing "type" tags Tag.members j
    match tag with
    | .funcParam => return .funcParam (← required ms "index" nat?)
    | .eventParam => return .eventParam (← required ms "index" nat?)
    | .callParam => return .callParam (← required ms "index" nat?)
    | .stateVar =>
      return .stateVar (← required ms "anchor_fn" string?)
        (← lenient ms "keys" [] (list? (keyOf? (decode? fuel .nested))))
    | .constant => return .constant (← required ms "value" Constant.ofLiteral?)
    | .msgSender => return .msgSender
    | .arrLength => return .arrLength (← required ms "value" (decode? fuel .nested))
    | .callReturn => return .callReturn (← required ms "fn_name" string?)
    | .noneValue => return .noneValue

def ofJson? (standing : Standing) (j : Json) : Option Selector := decode? (j.depth + 1) standing j

def nested? (j : Json) : Option Selector := ofJson? .nested j

end Selector

namespace Condition

inductive Tag where
  | comparison
  | logic
  | written
  | usedInCheck

def tags : List (String × Tag) :=
  [("CompCondition", .comparison), ("LogicCondition", .logic), ("WrittenCondition", .written),
    ("UsedInCheckCondition", .usedInCheck)]

def Tag.members : Tag → List String
  | .comparison => ["left", "right", "op"]
  | .logic => ["cond", "op"]
  | .written => ["value", "change_type"]
  | .usedInCheck => ["value"]

def decode? : Nat → Standing → Json → Option Condition
  | 0, _, _ => none
  | fuel + 1, standing, j => do
    let (tag, ms) ← choice standing "type" tags Tag.members j
    match tag with
    | .comparison =>
      return .comparison (← required ms "left" nested?) (← required ms "right" nested?)
        (← required ms "op" (oneOf .nested CompOp.names))
    | .logic =>
      return .logic (← required ms "cond" (list? (decode? fuel .nested)))
        (← lenient ms "op" .any (oneOf .nested Junction.names))
    | .written =>
      return .written (← required ms "value" nested?)
        (← lenient ms "change_type" .unspecified (oneOf .nested ChangeType.names))
    | .usedInCheck => return .usedInCheck (← required ms "value" nested?)

def ofJson? (standing : Standing) (j : Json) : Option Condition := decode? (j.depth + 1) standing j

def nested? (j : Json) : Option Condition := ofJson? .nested j

end Condition

namespace ArgCheck

def ofJson? (j : Json) : Option ArgCheck := do
  let ms ← j.record? ["arg_index", "value", "cond"]
  let index ← requiredAs ms ["arg_index", "arg_idx"] nat?
  let value ← optional ms "value" nested?
  let cond ← optional ms "cond" Condition.nested?
  return ⟨index, value, cond⟩

end ArgCheck

namespace OrderTarget

def eventOf? (ms : Members) : Option OrderTarget := do
  return .event (← required ms "event" string?) (← required ms "arg_idx" nat?)

def writtenOf? (ms : Members) : Option OrderTarget := do
  return .written (← required ms "sv" nested?) (← required ms "arg_idx" nat?)

/-- An event argument if it decodes as one, else a written state variable. -/
def ofJson? (j : Json) : Option OrderTarget := j.members?.bind fun ms => (eventOf? ms).or (writtenOf? ms)

end OrderTarget

inductive CheckError where
  | unknownKind (text : String)
  | notDecodable
  deriving DecidableEq, Repr

def CheckError.message : CheckError → String
  | .unknownKind text => "unknown verify operation: " ++ text
  | .notDecodable => "malformed check"

namespace Check

inductive Kind where
  | throws
  | returns
  | emits
  | assigns
  | calls
  | orders

def kinds : List (String × Kind) :=
  [("ThrowVerify", .throws), ("ReturnVerify", .returns), ("EmitVerify", .emits),
    ("StateAssignVerify", .assigns), ("CallVerify", .calls), ("OrderVerify", .orders)]

def ofMembers? (ms : Members) : Kind → Option Check
  | .throws => do
    let cond ← required ms "cond" Condition.nested?
    let op ← lenient ms "op" .throws (oneOf .nested ThrowOp.names)
    return .throws ⟨cond, op⟩
  | .returns => do
    let expected ← required ms "ret_val" nested?
    let cond ← optional ms "cond" Condition.nested?
    let atLeastOne ← defaulted ms "at_least_one" true bool?
    return .returns ⟨expected, cond, atLeastOne⟩
  | .emits => do
    let event ← required ms "event" string?
    let stateCond ← optional ms "sv_cond" Condition.nested?
    let alternatives ← lenient ms "alternative_events" [] (list? string?)
    let cond ← optional ms "cond" Condition.nested?
    let within ← optional ms "within_call_fn" string?
    let needsStateCond ← defaulted ms "error_if_no_sv_cond" false bool?
    let args ← lenient ms "arg_verifiers" [] (list? ArgCheck.ofJson?)
    return .emits ⟨event, stateCond, alternatives, cond, within, needsStateCond, args⟩
  | .assigns => do
    let state ← required ms "state" nested?
    let value ← required ms "value" nested?
    let op ← defaulted ms "op" "overwrite" string?
    let event ← optional ms "event" string?
    return .assigns ⟨state, value, op, event⟩
  | .calls => do
    let callee ← required ms "callee" string?
    let receiver ← required ms "on" nested?
    let cond ← defaulted ms "cond" "is_contract" string?
    let args ← lenient ms "arg_verifiers" [] (list? ArgCheck.ofJson?)
    let alternatives ← lenient ms "alternative_callees" [] (list? string?)
    return .calls ⟨callee, receiver, cond, args, alternatives⟩
  | .orders => do
    let target ← required ms "target" OrderTarget.ofJson?
    let orderedBy ← required ms "ordered_by" nested?
    return .orders ⟨target, orderedBy⟩

def hasMember (name : String) (ms : Members) : Bool := ms.any fun m => m.1 == name

def wrapped? (ms : Members) : Option (String × Json) :=
  kinds.findSome? fun k => (Json.find? ms k.1).map fun inner => (k.1, inner)

def flatMembers (ms : Members) : Except CheckError Members :=
  let unknown : CheckError := .unknownKind (Json.compact (.obj ms))
  match wrapped? ms with
  | some (kind, .obj inner) =>
    .ok (if hasMember "type" inner then inner else inner ++ [("type", .str kind)])
  | some (kind, _) => .error (.unknownKind kind)
  | none =>
    if hasMember "type" ms then .ok ms
    else
      match ms with
      | [(_, .obj inner)] => if hasMember "type" inner then .ok inner else .error unknown
      | _ => .error unknown

def decode (j : Json) : Except CheckError Check :=
  match j with
  | .obj ms =>
    match flatMembers ms with
    | .error e => .error e
    | .ok ms =>
      let kind := ((Json.find? ms "type").bind string?).getD ""
      match Json.find? kinds kind with
      | none => .error (.unknownKind kind)
      | some k =>
        match ofMembers? ms k with
        | some c => .ok c
        | none => .error .notDecodable
  | j => .error (.unknownKind j.compact)

def ofJson (j : Json) : Except CheckError Check := decode j.normal

end Check

end TokenAudit
