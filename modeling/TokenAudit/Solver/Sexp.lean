import TokenAudit.Text.Blank
import TokenAudit.Text.Quoted

/-!
# S-expressions

The shape of a solver's answers.  An atom may be quoted between bars.
-/

namespace TokenAudit

inductive Sexp where
  | atom (text : String)
  | list (items : List Sexp)
  deriving Repr

namespace Sexp

mutual

def describe : Sexp → String
  | .atom text => "Atom(" ++ Text.quoted text ++ ")"
  | .list items => "List(" ++ describeList items ++ ")"

def describeList (items : List Sexp) : String := "[" ++ ", ".intercalate (describeAll items) ++ "]"

def describeAll : List Sexp → List String
  | [] => []
  | s :: rest => describe s :: describeAll rest

end

inductive Token where
  | opening
  | closing
  | atom (text : String)
  deriving DecidableEq, Repr

inductive Mode where
  | between
  | plain (read : List Char)
  | quoted (read : List Char)

def atomOf (read : List Char) : Token := .atom (String.ofList read.reverse)

def begin (c : Char) : List Token × Mode :=
  if c == '(' then ([.opening], .between)
  else if c == ')' then ([.closing], .between)
  else if c == '|' then ([], .quoted [c])
  else if Text.isBlank c then ([], .between)
  else ([], .plain [c])

def tokensFrom : Mode → List Char → List Token
  | .between, [] => []
  | .plain read, [] => [atomOf read]
  | .quoted read, [] => [atomOf read]
  | .between, c :: cs =>
    let (now, mode) := begin c
    now ++ tokensFrom mode cs
  | .plain read, c :: cs =>
    if c == '(' || c == ')' || Text.isBlank c then
      let (now, mode) := begin c
      atomOf read :: (now ++ tokensFrom mode cs)
    else tokensFrom (.plain (c :: read)) cs
  | .quoted read, c :: cs =>
    if c == '|' then atomOf (c :: read) :: tokensFrom .between cs else tokensFrom (.quoted (c :: read)) cs

structure Assembly where
  opened : List (List Sexp)
  done : Option Sexp

def Assembly.give (a : Assembly) (s : Sexp) : Assembly :=
  match a.opened with
  | items :: outer => { a with opened := (s :: items) :: outer }
  | [] => { a with done := some s }

def Assembly.feed (a : Assembly) (t : Token) : Option Assembly :=
  match t with
  | .opening => some { a with opened := [] :: a.opened }
  | .atom text => some (a.give (.atom text))
  | .closing =>
    match a.opened with
    | items :: outer => some (Assembly.give { a with opened := outer } (.list items.reverse))
    | [] => none

/-- The last complete expression of a text; what is left open is ignored. -/
def read (text : String) : Option Sexp := do
  let a ← (tokensFrom .between text.toList).foldlM Assembly.feed ⟨[], none⟩
  a.done

end Sexp

end TokenAudit
