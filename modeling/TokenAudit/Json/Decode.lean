import TokenAudit.Json.Basic

/-!
# Decoding JSON values

Members that nobody asks for are ignored, usable or not; a member that is asked for and stands twice is refused.  A
record may also be an array of its members' values in order, the last ones left out.
-/

namespace TokenAudit.Json

variable {α : Type}

def members? : Json → Option Members
  | .obj ms => some ms
  | _ => none

def positional (names : List String) (items : List Json) : Option Members :=
  if items.length ≤ names.length then some (names.zip items) else none

def record? (names : List String) : Json → Option Members
  | .obj ms => some ms
  | .arr items => positional names items
  | _ => none

def string? : Json → Option String
  | .str s => some s
  | _ => none

def bool? : Json → Option Bool
  | .bool b => some b
  | _ => none

def nat? : Json → Option Nat
  | .int (.ofNat n) => some n
  | _ => none

def decodeItems (decode : Json → Option α) : List Json → Option (List α)
  | [] => some []
  | j :: rest =>
    match decode j, decodeItems decode rest with
    | some a, some as => some (a :: as)
    | _, _ => none

def list? (decode : Json → Option α) : Json → Option (List α)
  | .arr items => decodeItems decode items
  | _ => none

def nullable? (decode : Json → Option α) : Json → Option (Option α)
  | .null => some none
  | j => (decode j).map some

/-- Decodes a value that is usable throughout, also where the decoder does not look. -/
def entire (decode : Json → Option α) (j : Json) : Option α := if j.usable then decode j else none

def valuesOf (names : List String) : Members → List Json
  | [] => []
  | (n, v) :: rest => if n ∈ names then v :: valuesOf names rest else valuesOf names rest

def member (ms : Members) (names : List String) : Option (Option Json) :=
  match valuesOf names ms with
  | [] => some none
  | [v] => some (some v)
  | _ => none

def requiredAs (ms : Members) (names : List String) (decode : Json → Option α) : Option α :=
  match member ms names with
  | some (some v) => decode v
  | _ => none

def required (ms : Members) (name : String) (decode : Json → Option α) : Option α :=
  requiredAs ms [name] decode

/-- A missing member takes the default; `null` is decoded like any value. -/
def defaulted (ms : Members) (name : String) (dflt : α) (decode : Json → Option α) : Option α :=
  match member ms [name] with
  | some none => some dflt
  | some (some v) => decode v
  | none => none

def lenient (ms : Members) (name : String) (dflt : α) (decode : Json → Option α) : Option α :=
  (defaulted ms name none (nullable? decode)).map fun o => o.getD dflt

def optional (ms : Members) (name : String) (decode : Json → Option α) : Option (Option α) :=
  defaulted ms name none (nullable? decode)

def find? (table : List (String × α)) (name : String) : Option α :=
  (table.find? fun e => e.1 == name).map Prod.snd

/-- Where a value stands decides how a choice may be spelled: on its own by name only, inside another
choice also by the position of its name. -/
inductive Standing where
  | outer
  | nested
  deriving DecidableEq, Repr

def oneOf (standing : Standing) (table : List (String × α)) : Json → Option α
  | .str s => find? table s
  | .obj [(s, .null)] => find? table s
  | .obj [(s, .obj [])] => if standing = .nested then find? table s else none
  | _ => none

def tagOf (standing : Standing) (table : List (String × α)) : Json → Option α
  | .str s => find? table s
  | .int (.ofNat n) => if standing = .nested then (table[n]?).map Prod.snd else none
  | _ => none

def tagged (standing : Standing) (tag : String) (table : List (String × α)) (ms : Members) : Option α :=
  required ms tag (tagOf standing table)

/-- An object with the choice under `tag`, or an array that starts with the choice. -/
def choice (standing : Standing) (tag : String) (table : List (String × α)) (names : α → List String) :
    Json → Option (α × Members)
  | .obj ms => (tagged standing tag table ms).map fun a => (a, ms)
  | .arr (t :: items) =>
    match tagOf standing table t with
    | some a => (positional (names a) items).map fun ms => (a, ms)
    | none => none
  | _ => none

end TokenAudit.Json
