import TokenAudit.Text.Blank

/-!
# Types of contract values

Value types and user-defined names are `named`; mappings, arrays (with or without a length) and tuples
are built from other types.  `render` writes a type the way contracts declare it.
-/

namespace TokenAudit

inductive ContractType where
  | named (name : String)
  | mapping (key value : ContractType)
  | array (item : ContractType) (length : Option Nat)
  | tuple (items : List ContractType)
  deriving Repr, Inhabited

namespace ContractType

mutual

def same : ContractType → ContractType → Bool
  | .named a, .named b => a == b
  | .mapping k v, .mapping k' v' => same k k' && same v v'
  | .array t n, .array t' n' => same t t' && n == n'
  | .tuple ts, .tuple ts' => sameAll ts ts'
  | _, _ => false

def sameAll : List ContractType → List ContractType → Bool
  | [], [] => true
  | t :: ts, t' :: ts' => same t t' && sameAll ts ts'
  | _, _ => false

end

mutual

theorem same_iff (a b : ContractType) : same a b = true ↔ a = b := by
  cases a <;> cases b <;> simp [same]
  case mapping.mapping k v k' v' => rw [same_iff k k', same_iff v v']
  case array.array t n t' n' => intro _; exact same_iff t t'
  case tuple.tuple ts ts' => exact sameAll_iff ts ts'

theorem sameAll_iff (as bs : List ContractType) : sameAll as bs = true ↔ as = bs := by
  cases as with
  | nil => cases bs <;> simp [sameAll]
  | cons a as =>
    cases bs with
    | nil => simp [sameAll]
    | cons b bs => simp [sameAll, same_iff a b, sameAll_iff as bs]

end

instance : DecidableEq ContractType := fun a b => decidable_of_iff _ (same_iff a b)

def address : ContractType := .named "address"

def uint256 : ContractType := .named "uint256"

def isBool (t : ContractType) : Bool := t == .named "bool"

def isString (t : ContractType) : Bool := t == .named "string"

def isAddress (t : ContractType) : Bool := t == .named "address"

def isUnsigned : ContractType → Bool
  | .named n => Text.startsWith n.toList "uint"
  | _ => false

def isMapping : ContractType → Bool
  | .mapping _ _ => true
  | _ => false

def isArray : ContractType → Bool
  | .array _ _ => true
  | _ => false

def mappingKeys : ContractType → List ContractType
  | .mapping key value => key :: mappingKeys value
  | _ => []

def mappingLeaf : ContractType → ContractType
  | .mapping _ value => mappingLeaf value
  | t => t

mutual

def mentionsUnsigned : ContractType → Bool
  | .named n => isUnsigned (.named n) || isAddress (.named n)
  | .mapping key value => mentionsUnsigned key || mentionsUnsigned value
  | .array item _ => mentionsUnsigned item
  | .tuple items => anyMentionsUnsigned items

def anyMentionsUnsigned : List ContractType → Bool
  | [] => false
  | t :: rest => mentionsUnsigned t || anyMentionsUnsigned rest

end

mutual

def render : ContractType → String
  | .named n => n
  | .mapping key value => "mapping(" ++ render key ++ " => " ++ render value ++ ")"
  | .array item none => render item ++ "[]"
  | .array item (some n) => render item ++ "[" ++ toString n ++ "]"
  | .tuple items => "(" ++ ",".intercalate (renderAll items) ++ ")"

def renderAll : List ContractType → List String
  | [] => []
  | t :: rest => render t :: renderAll rest

end

end ContractType

end TokenAudit
