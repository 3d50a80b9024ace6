import TokenAudit.Text.Blank

/-!
# File names

The last part of a path, with and without its extension.  An extension starts at the last dot, unless
that dot is the first character.
-/

namespace TokenAudit.Text

def pathParts : List Char → List (List Char)
  | [] => [[]]
  | c :: cs =>
    match pathParts cs with
    | [] => [[]]
    | part :: rest => if c == '/' then [] :: part :: rest else (c :: part) :: rest

def fileName? (path : String) : Option (List Char) :=
  let parts := (pathParts path.toList).filter fun part => !part.isEmpty && part != ['.']
  match parts.getLast? with
  | some name => if name == ['.', '.'] then none else some name
  | none => none

def dropExtension (name : List Char) : List Char :=
  match name.reverse.dropWhile (· != '.') with
  | [] => name
  | _ :: before => if before.isEmpty then name else before.reverse

def fileStem (path : String) : String := String.ofList ((fileName? path).map dropExtension |>.getD [])

end TokenAudit.Text
