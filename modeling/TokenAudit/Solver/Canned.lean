import TokenAudit.Solver.Dialogue

/-!
# Canned processes

A solver process that prints the next prepared answer when it is asked to echo the end mark.
-/

namespace TokenAudit

inductive CannedReply where
  | lines (text : List String)
  | close
  deriving DecidableEq, Repr

structure CannedProcess where
  replies : List CannedReply
  /-- The reply once the prepared ones are used up. -/
  rest : CannedReply
  /-- Whether a process can be started at all. -/
  startable : Bool
  alive : Bool
  printed : List String
  /-- Starts and lines received, latest first. -/
  transcript : List String

namespace CannedProcess

def initial (replies : List CannedReply) (rest : CannedReply) (startable : Bool) : CannedProcess :=
  ⟨replies, rest, startable, false, [], []⟩

def echoLine : String := "(echo \"" ++ Dialogue.endMarker ++ "\")"

def hear (p : CannedProcess) (line : String) : CannedProcess :=
  let p := { p with transcript := line :: p.transcript }
  if line == echoLine then
    let reply := p.replies.headD p.rest
    let p := { p with replies := p.replies.drop 1 }
    match reply with
    | .lines text => { p with printed := p.printed ++ text.flatMap (·.splitOn "\n") ++ [Dialogue.endMarker] }
    | .close => { p with alive := false }
  else p

def linesOf (text : String) : List String :=
  match (text.splitOn "\n").reverse with
  | "" :: rest => rest.reverse
  | rest => rest.reverse

def started (p : CannedProcess) (arguments : List String) : CannedProcess :=
  { p with
    alive := true
    printed := []
    transcript := ("start " ++ " ".intercalate arguments) :: p.transcript }

end CannedProcess

def cannedChannel (command : String) : Channel (StateM CannedProcess) where
  start arguments := do
    if (← get).startable then
      modify (·.started arguments)
      pure (.ok ())
    else pure (.error (.spawn command "no such file"))
  send text := do
    if (← get).alive then
      modify fun p => (CannedProcess.linesOf text).foldl CannedProcess.hear p
      pure (.ok ())
    else pure (.error (.transport "broken pipe"))
  receive isLast := do
    let p ← get
    match p.printed.dropWhile fun l => !isLast l with
    | _ :: rest =>
      set { p with printed := rest }
      pure (.ok (some (p.printed.takeWhile fun l => !isLast l)))
    | [] =>
      set { p with printed := [] }
      pure (.ok none)

end TokenAudit
