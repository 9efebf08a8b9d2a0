import GeminiCpp.Apps.Chat
import GeminiCpp.Cli.Numbers
import GeminiCpp.Client.Environment
import GeminiCpp.Lib.TextLines
import GeminiCpp.Tools.Builtin

/-! The commands of the program (`main.cpp`): what each reads, asks of the library and prints, and
its exit status. -/
namespace GeminiCpp.Apps
open Traced Traced.Prog

/-- What the program uses of the machine it runs on. -/
structure Machine (ω : Type) where
  getenv : Bytes → Option Bytes
  /-- All of the standard input. A signal may come while it is read. -/
  stdin : Bool × ω → Bytes × Bool × ω
  /-- Whether the standard input is a terminal. -/
  tty : Bool
  transport : Transport (Bool × ω)
  host : Host (Bool × ω)
  text : JsonText
  clock : BuiltinTools.UtcClock (Bool × ω)
  arith : Arith UInt64

def exitOk : ℤ := 0
def exitFailure : ℤ := 1
def exitUsage : ℤ := 2

/-- The help, for a version of the program. -/
def usage (version : Bytes) : Bytes :=
  ascii "gemini-cpp " ++ version ++
    ascii " - C++ client and coding-agent eval harness for Google Gemini

Usage:
  gemini-cpp ask [options] [PROMPT...]     one-shot prompt (reads stdin if PROMPT is empty or -)
  gemini-cpp chat [options]                interactive multi-turn chat
  gemini-cpp tokens [options] [PROMPT...]  count tokens for a prompt
  gemini-cpp models                        list models available to your API key
  gemini-cpp eval [options]                have Gemini solve C++ tasks; compile & test the results

Common options:
  --model NAME            model to use (default: $GEMINI_MODEL or gemini-2.5-flash)
  --system TEXT           system instruction
  --temperature X         sampling temperature
  --max-tokens N          maximum output tokens
  --thinking-budget N     thinking token budget (0 disables thinking where supported)
  --log-level LEVEL       debug | info | warn | error | off   (default: warn)
  --log-json              emit logs as JSON lines on stderr

ask:
  --no-stream             wait for the full response instead of streaming
  --json                  ask for a JSON response (responseMimeType=application/json)
  --usage                 print token usage to stderr

chat:
  --tools                 enable built-in tools (get_current_time, evaluate_expression)
  In-chat commands: /reset  /usage  /history  /exit

eval:
  --tasks DIR             task directory (default: ./tasks)
  --task ID               only run this task (repeatable)
  --jobs N                tasks to evaluate in parallel (default: 1)
  --repair N              feed failures back to the model up to N times (default: 0)
  --sanitize              build tests with AddressSanitizer + UBSan
  --reference             evaluate each task's reference.hpp instead of calling the model
  --compiler PATH         C++ compiler (default: $CXX or c++)
  --std FLAG              language standard flag (default: -std=c++20)
  --work-dir DIR          where per-task build directories are created
  --keep                  keep build directories for inspection
  --report-json FILE      write the full JSON report (includes sources and logs)
  --report-md FILE        write a Markdown summary
  --min-pass RATIO        exit 0 if the final pass rate is >= RATIO (default: 1.0)

Environment:
  GEMINI_API_KEY          API key (https://aistudio.google.com/apikey); GOOGLE_API_KEY also works
  GEMINI_MODEL            default model
  GEMINI_BASE_URL         API base URL (default: https://generativelanguage.googleapis.com/v1beta)
"

def commonValues : Finset Bytes :=
  {ascii "model", ascii "system", ascii "temperature", ascii "max-tokens",
    ascii "thinking-budget", ascii "log-level"}

def commonFlags : Finset Bytes := {ascii "log-json", ascii "help"}

def makeSpec (values flags : Finset Bytes) : Cli.Spec :=
  { valueOptions := values ∪ commonValues, flags := flags ∪ commonFlags }

variable {ω : Type}

def usageError (message : Bytes) : Program (Console ω) ℤ := do
  note (ascii "gemini-cpp: " ++ message ++ ascii "\nRun 'gemini-cpp --help' for usage.\n")
  return exitUsage

def apiError (e : Error) : Program (Console ω) ℤ := do
  note (ascii "gemini-cpp: " ++ e.describe ++ [lf])
  return exitFailure

/-- `std::getline` up to the end of a text. -/
def getlines : Bytes → List Bytes
  | [] => []
  | b :: s => if b = lf then [] :: getlines s else TextLines.consLine b (getlines s)

/-- The words of a prompt, with a space before each one behind a text that is not empty. -/
def joinWords (words : List Bytes) : Bytes :=
  words.foldl (fun prompt w => (if prompt = [] then [] else prompt ++ [space]) ++ w) []

/-- `find_first_not_of(" \t\r\n") == npos`. -/
def blankPrompt (prompt : Bytes) : Bool := prompt.all fun b => b ∈ ascii " \t\r\n"

/-- A C string, as `%s` reads it. -/
def cString (s : Bytes) : Bytes := s.takeWhile (· ≠ 0)

/-- `%-Ns`. -/
def padRight (n : ℕ) (s : Bytes) : Bytes := s ++ List.replicate (n - s.length) space

/-- A line of `models`. -/
def modelLine (m : ModelInfo) : Bytes :=
  let name := if startsWith m.name (ascii "models/") then m.name.drop 7 else m.name
  padRight 40 (cString name) ++ ascii " in=" ++ padRight 8 (toDecimal m.inputTokenLimit.toInt) ++
    ascii " out=" ++ padRight 7 (toDecimal m.outputTokenLimit.toInt) ++ [space] ++
    cString m.displayName ++ [lf]

/-- The models that are listed; those that do not generate only on request. -/
def listedModels (all : Bool) (models : List ModelInfo) : List ModelInfo :=
  models.filter fun m => ascii "generateContent" ∈ m.supportedMethods || all

/-- The words of a command and the options that the commands share, or what is wrong with them. -/
def parseCommand (argv : List Bytes) (values flags : Finset Bytes) :
    Except Bytes (Cli.Args × GenerationConfig) :=
  match Cli.Args.init.parse argv 2 (makeSpec values flags) with
  | (some err, _) => .error err
  | (none, args) =>
    match args.applyCommon .unset with
    | .error err => .error err
    | .ok (_, config) => .ok (args, config)

namespace Machine
variable (m : Machine ω)

/-- The client of the options in the environment, with the model of the command line. -/
def makeClient (args : Cli.Args) : Result (Client (Bool × ω)) :=
  match ClientOptions.fromEnv m.getenv with
  | .error e => .error e
  | .ok options =>
    .ok (Client.create { options with model := args.getOr (ascii "model") options.model }
      m.transport m.host m.text)

def readStdin : Program (Console ω) Bytes := Prog.lift (Prog.ask m.stdin)

def promptFrom (args : Cli.Args) : Program (Console ω) Bytes :=
  if args.positional = [] ∨ args.positional = [ascii "-"] then m.readStdin
  else return joinWords args.positional

end Machine

/-- The request of a prompt. -/
def requestOf (args : Cli.Args) (config : GenerationConfig) (prompt : Bytes) : GenerateRequest :=
  { contents := [.user prompt]
    systemInstruction := (args.get (ascii "system")).map Content.user
    tools := [], config, safetySettings := [] }

section Ask
variable (c : Client (Console ω)) (args : Cli.Args)

/-- Prints a reply that was not streamed. -/
def printReply (response : Result GenerateResponse) : Program (Console ω) Unit :=
  match response with
  | .ok reply => print reply.text
  | .error _ => return ()

/-- The reply to `ask`, as it is printed. -/
def askReply (request : GenerateRequest) : Program (Console ω) (Result GenerateResponse) :=
  if args.flag (ascii "no-stream") then do
    let response ← c.generate request
    printReply response
    return response
  else c.stream request (some stdoutPrinter)

/-- What is said about a reply. -/
def askNotes (interrupted : Bool) (reply : GenerateResponse) : Bytes :=
  (if interrupted then ascii "[interrupted]\n" else []) ++
    (if reply.finishReason = ascii "MAX_TOKENS" then ascii "[truncated: hit max output tokens]\n"
      else []) ++
    (if args.flag (ascii "usage") then usageLine reply.usage else [])

/-- `ask` when there is a client. -/
def askModel (request : GenerateRequest) : Program (Console ω) ℤ := do
  let response ← askReply c args request
  print [lf]
  match response with
  | .error e => apiError e
  | .ok reply =>
    let (_, interrupted, _) ← Prog.get
    note (askNotes args interrupted reply)
    return exitOk

end Ask

section Commands
variable (m : Machine ω)

def askFlags : Finset Bytes := {ascii "no-stream", ascii "json", ascii "usage"}

/-- The configuration of `ask`. -/
def askConfig (args : Cli.Args) (config : GenerationConfig) : GenerationConfig :=
  if args.flag (ascii "json") then
    { config with responseMimeType := some (ascii "application/json") }
  else config

def cmdAsk (argv : List Bytes) : Program (Console ω) ℤ :=
  match parseCommand argv ∅ askFlags with
  | .error err => usageError err
  | .ok (args, config) => do
    let prompt ← m.promptFrom args
    if blankPrompt prompt then usageError (ascii "empty prompt")
    else
      match m.makeClient args with
      | .error e => apiError e
      | .ok c => askModel (c.beside Screen) args (requestOf args (askConfig args config) prompt)

def chatFlags : Finset Bytes := {ascii "tools"}

/-- The session of `chat`. -/
def chatOf (args : Cli.Args) (config : GenerationConfig) (c : Client (Bool × ω)) :
    ChatSession (Console ω) :=
  chatSession c { systemInstruction := args.get (ascii "system"), config, maxToolRounds := 8 }
    (if args.flag (ascii "tools") then some (BuiltinTools.registerDefaults m.clock m.arith [])
      else none)

/-- The first line of a chat at a terminal. -/
def chatGreeting (args : Cli.Args) (model : Bytes) : Bytes :=
  ascii "gemini-cpp chat with " ++ model ++
    (if args.flag (ascii "tools") then ascii " (tools enabled)" else []) ++
    ascii ". Ctrl-C cancels a reply, Ctrl-D or /exit quits.\n"

/-- `chat` when there is a client. -/
def chatModel (args : Cli.Args) (config : GenerationConfig) (c : Client (Bool × ω)) :
    Program (Console ω) ℤ := do
  note (if m.tty then chatGreeting args c.options.model else [])
  let input ← m.readStdin
  Prog.withLocals .init (chatLoop (chatOf m args config c) m.tty (getlines input))
  return exitOk

def cmdChat (argv : List Bytes) : Program (Console ω) ℤ :=
  match parseCommand argv ∅ chatFlags with
  | .error err => usageError err
  | .ok (args, config) =>
    match m.makeClient args with
    | .error e => apiError e
    | .ok c => chatModel m args config c

/-- `tokens` when there is a client. -/
def tokensModel (c : Client (Console ω)) (request : GenerateRequest) : Program (Console ω) ℤ := do
  match ← c.countTokens request with
  | .error e => apiError e
  | .ok count =>
    print (toDecimal count.toInt ++ [lf])
    return exitOk

def cmdTokens (argv : List Bytes) : Program (Console ω) ℤ :=
  match parseCommand argv ∅ ∅ with
  | .error err => usageError err
  | .ok (args, _) => do
    let prompt ← m.promptFrom args
    match m.makeClient args with
    | .error e => apiError e
    | .ok c => tokensModel (c.beside Screen) (requestOf args .unset prompt)

def modelsFlags : Finset Bytes := {ascii "all"}

/-- `models` when there is a client, for at most `fuel` pages; none if there are more. -/
def modelsModel (fuel : ℕ) (args : Cli.Args) (c : Client (Console ω)) :
    Program (Console ω) (Option ℤ) := do
  match ← c.listModels fuel with
  | none => return none
  | some (.error e) => some <$> apiError e
  | some (.ok models) =>
    print ((listedModels (args.flag (ascii "all")) models).flatMap modelLine)
    return some exitOk

def cmdModels (fuel : ℕ) (argv : List Bytes) : Program (Console ω) (Option ℤ) :=
  match parseCommand argv ∅ modelsFlags with
  | .error err => some <$> usageError err
  | .ok (args, _) =>
    match m.makeClient args with
    | .error e => some <$> apiError e
    | .ok c => modelsModel fuel args (c.beside Screen)

/-- `main`, with `eval` given. The first word of `argv` is the name of the program. -/
def main (version : Bytes) (eval : List Bytes → Program (Console ω) ℤ) (fuel : ℕ)
    (argv : List Bytes) : Program (Console ω) (Option ℤ) :=
  match argv[1]? with
  | none => do
    note (usage version)
    return some exitUsage
  | some command =>
    if command = ascii "--help" ∨ command = ascii "-h" ∨ command = ascii "help" then do
      print (usage version)
      return some exitOk
    else if command = ascii "--version" ∨ command = ascii "version" then do
      print (ascii "gemini-cpp " ++ version ++ [lf])
      return some exitOk
    else if ascii "--help" ∈ argv.drop 2 then do
      print (usage version)
      return some exitOk
    else if command = ascii "ask" then some <$> cmdAsk m argv
    else if command = ascii "chat" then some <$> cmdChat m argv
    else if command = ascii "tokens" then some <$> cmdTokens m argv
    else if command = ascii "models" then cmdModels m fuel argv
    else if command = ascii "eval" then some <$> eval argv
    else some <$> usageError (ascii "unknown command '" ++ command ++ ascii "'")

end Commands

end GeminiCpp.Apps
