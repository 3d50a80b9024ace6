import TokenAudit.Config
import TokenAudit.Rule.Document
import TokenAudit.Text.FileName

/-!
# Loading documents

How a file is read is left to the caller.
-/

namespace TokenAudit

structure FileReader (m : Type → Type) where
  read : String → m (Except String String)

variable {m : Type → Type} [Monad m]

def Program.load (files : FileReader m) (path : String) : m (Except DocumentError Program) := do
  match ← files.read path with
  | .ok text => pure (Program.read text)
  | .error detail => pure (.error (.unreadable path detail))

def Config.load (files : FileReader m) (path : String) : m (Except DocumentError Config) := do
  match ← files.read path with
  | .ok text => pure (Config.read text)
  | .error detail => pure (.error (.unreadable path detail))

def RuleDocument.load (files : FileReader m) (path : String) : m (Except RuleError RuleDocument) := do
  match ← files.read path with
  | .ok text => pure ((RuleDocument.read text).map (·.named (Text.fileStem path)))
  | .error detail => pure (.error (.unreadable path detail))

end TokenAudit
