import TypedL5.CommandLine.Outcome

/-!
The command line: arguments, files and the standard streams around the outcome of a run.
-/
namespace TypedL5.Main

/-- Why a file cannot be read, and whether it is admitted all the same. -/
def reason : IO.Error → String × Bool
  | .noFileOrDirectory _ _ details | .inappropriateType _ _ details
  | .permissionDenied _ _ details => (details.capitalize, false)
  | e => (toString e, true)

/-- The files that arguments or a line of a session can ask for, which is one at most. -/
def filesFor : Option String → IO Files
  | none => return { read := fun _ => .error "" }
  | some path => do
    try
      let bytes ← IO.FS.readBinFile path
      return { read := fun _ => .ok bytes }
    catch e =>
      let (text, admitted) := reason e
      return { read := fun _ => .error text, admits := fun _ => admitted }

/-- The file that a line of a session names. -/
def fileOf? (line : String) : Option String :=
  match Command.ofLine? line with
  | some (.load file?) => file?
  | _ => none

/-- Does one thing in a session and prints what comes of it. -/
def perform {α : Type} (m : ReplM α) (r : Repl) : IO (Except Abort α × Repl) := do
  let (result, r) := match m { r with events := [] } with
    | .ok a r => (Except.ok a, r)
    | .error a r => (Except.error a, r)
  IO.print (String.join (r.events.map Event.text))
  (← IO.getStdout).flush
  return (result, r)

/-- Takes lines until the session or its input ends. The lines waiting have been read and not
been taken. -/
partial def converse (input : IO.FS.Stream) (waiting : List String) (r : Repl) :
  IO UInt32 := do
  let (_, r) ← perform Repl.showPrompt r
  let waiting ← if waiting.isEmpty then Text.lines <$> input.getLine else pure waiting
  match waiting with
  | [] =>
    let _ ← perform Repl.leave r
    return 0
  | line :: waiting =>
    let files ← filesFor (fileOf? line)
    match ← perform (Repl.take files (.text line)) r with
    | (.ok true, r) => converse input waiting r
    | (.ok false, _) => return 0
    | (.error _, _) => return 1

def startSession : IO UInt32 := do
  let (_, r) ← perform Repl.greet {}
  converse (← IO.getStdin) [] r

/-- Prints an outcome. -/
def finish (o : Outcome) : IO UInt32 := do
  IO.print o.output
  IO.eprint o.errors
  return o.status.toUInt32

def run (inv : Invocation) : IO UInt32 := do
  if inv.isSession then startSession
  else finish (.ofInvocation (← filesFor inv.operands.head?) "" inv {})

end TypedL5.Main

def main (args : List String) : IO UInt32 :=
  match TypedL5.Invocation.ofArgs? args with
  | some inv => TypedL5.Main.run inv
  | none => TypedL5.Main.finish (TypedL5.Outcome.usage {})
