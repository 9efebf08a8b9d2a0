import GeminiCpp.Apps.Console

/-! The interactive chat (`cmd_chat`): the loop over the lines of the user. -/
namespace GeminiCpp.Apps
open Traced Traced.Prog

variable {ω : Type}

/-- The session of a chat. The library is that of a world without the console. -/
def chatSession (c : Client (Bool × ω)) (options : ChatOptions)
    (tools : Option (ToolRegistry (Bool × ω))) : ChatSession (Console ω) :=
  { client := (c.beside Screen).forChat
    options
    tools := tools.map (ToolRegistry.beside Screen)
    toolObserver := some (toolPrinter c.text)
    text := c.text }

/-- `find_first_not_of(" \t") == npos`. -/
def blankLine (line : Bytes) : Bool := line.all fun b => b = space ∨ b = 0x09

/-- A line of `/history`. -/
def historyLine (c : Content) : Bytes :=
  c.role.toString ++ ascii ": " ++ c.text ++ (if c.text = [] then ascii "<tool data>" else []) ++
    [lf]

/-- What is written about a message that failed. -/
def failureLine (e : Error) : Bytes :=
  if e.code = .cancelled then ascii "[cancelled]\n"
  else ascii "error: " ++ e.describe ++ [lf]

section Loop
variable (s : ChatSession (Console ω)) (tty : Bool)

/-- The prompt for a line, or for a reply. -/
def prompt (t : Bytes) : Program (ChatState × Console ω) Unit :=
  if tty then Prog.lift (note t) else return ()

/-- A line that is sent to the model. -/
def chatMessage (line : Bytes) : Program (ChatState × Console ω) Unit := do
  Prog.lift clearInterrupted
  prompt tty (ascii "\x1b[1mgemini>\x1b[0m ")
  let reply ← s.send line (some stdoutPrinter)
  Prog.lift (print [lf])
  match reply with
  | .ok _ => return ()
  | .error e => Prog.lift (note (failureLine e))

/-- A line of the user; false if it ends the chat. -/
def chatLine (line : Bytes) : Program (ChatState × Console ω) Bool := do
  if blankLine line then return true
  else if line = ascii "/exit" ∨ line = ascii "/quit" then return false
  else if line = ascii "/reset" then
    ChatSession.reset
    Prog.lift (note (ascii "[history cleared]\n"))
    return true
  else if line = ascii "/usage" then
    let (x, _) ← Prog.get
    Prog.lift (note (usageLine x.usage))
    return true
  else if line = ascii "/history" then
    let (x, _) ← Prog.get
    Prog.lift (note (x.history.flatMap historyLine))
    return true
  else
    chatMessage s tty line
    return true

/-- The loop over the lines that `getline` gives, up to the end of the input. -/
def chatLoop : List Bytes → Program (ChatState × Console ω) Unit
  | [] => prompt tty (ascii "\x1b[1myou>\x1b[0m ")
  | line :: lines => do
    prompt tty (ascii "\x1b[1myou>\x1b[0m ")
    if ← chatLine s tty line then chatLoop lines else return ()

end Loop

end GeminiCpp.Apps
