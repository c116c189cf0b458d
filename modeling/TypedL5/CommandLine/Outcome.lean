import TypedL5.CommandLine.Invocation
import TypedL5.Session.Repl

/-!
Runs of the command line: one program file, one expression, or a session on the standard input.
-/
namespace TypedL5

/-- What a run leaves: its exit status, what it wrote, and the trace for the run after it. -/
structure Outcome where
  status : Nat
  output : String := ""
  errors : String := ""
  abort? : Option Abort := none
  trace : Trace := {}
deriving DecidableEq, Repr

namespace Outcome

def helpText : String :=
"Usage: main [OPTIONS] [FILENAME]

  l5 - type checker for the fully annotated L5 language.

  If FILENAME is provided, type check the program (L5 <form> ...) it contains.
  With -e, type check a single expression. Otherwise, start an interactive REPL.

  Examples:

    l5 program.l5                       # Type of a program

    l5 -e \"(if #t 1 2)\"                 # Type of an expression

    l5 -v program.l5                    # Show derivation trace

Options:
  -e, --expression TEXT  Type check a single expression instead of a program
                         file
  -v, --verbose          Show the type derivation trace
  --no-color             Disable colored output
  --version              Show version information
  --help                 Show this message and exit.
"

def versionText : String := "l5 version 0.1.0"

/-- The first words of the answer to arguments that ask for something that cannot be done. -/
def usageText : String :=
"Usage: main [OPTIONS] [FILENAME]
Try 'main --help' for help.
"

def usage (trace : Trace) : Outcome :=
  { status := 2, errors := usageText, trace := trace }

def aborted (a : Abort) (output : String) (trace : Trace) : Outcome :=
  { status := 1, output := output, abort? := some a, trace := trace }

/-- What is said of a file that turns out not to be readable. -/
def unreadable (file reason : String) (trace : Trace) : Outcome :=
  let text := "Error: cannot read '" ++ file ++ "': " ++ reason
  { status := 1, errors := Text.printed text, trace := trace }

/-- The outcome of a check: the type found, and the steps to it where they are asked for. -/
def ofCheck (verbose : Bool) (check : Trace → Except Abort Checked)
    (trace : Trace) : Outcome :=
  match check trace with
  | .error a => aborted a "" trace
  | .ok c =>
    match c.result with
    | .error f => { status := 1, errors := Text.printed (f.report c.trace), trace := c.trace }
    | .ok text =>
      let steps := if verbose then Text.printed c.trace.text else ""
      { status := 0, output := Text.printed text ++ steps, trace := c.trace }

/-- The outcome of the program in a file. -/
def ofFile (files : Files) (verbose : Bool) (file : String) (trace : Trace) : Outcome :=
  match files.read file with
  | .error reason => unreadable file reason trace
  | .ok bytes =>
    match Text.decode? bytes with
    | none => aborted .notText "" trace
    | some source => ofCheck verbose (Checked.ofProgram source ·) trace

/-- Does something with the trace enabled, if it is asked for. Whatever comes of it, the trace
is left disabled and empty. -/
def observing (verbose : Bool) (act : Trace → Outcome) (trace : Trace) : Outcome :=
  let o := act (if verbose then trace.enable else trace)
  { o with trace := o.trace.disable.clear }

/-- The outcome of a session on the lines of the standard input. -/
def ofSession (files : Files) (input : String) (trace : Trace) : Outcome :=
  let transcript (r : Repl) := String.join (r.events.map Event.text)
  match Repl.run files ((Text.lines input).map Line.text) (.ofTrace trace) with
  | .ok _ r => { status := 0, output := transcript r, trace := r.session.state.trace }
  | .error a r => aborted a (transcript r) r.session.state.trace

/-- The outcome of an invocation with the file that it names, if it names one. A file is not
opened if there is an expression. -/
def ofCommand (files : Files) (input : String) (inv : Invocation) (file? : Option String)
    (trace : Trace) : Outcome :=
  if inv.version then { status := 0, output := Text.printed versionText, trace := trace } else
    match inv.expression?, file? with
    | some source, _ =>
      observing inv.verbose (ofCheck inv.verbose (Checked.ofExp source ·)) trace
    | none, some file => observing inv.verbose (ofFile files inv.verbose file) trace
    | none, none => ofSession files input trace

/-- The outcome of an invocation. At most one file may be named, and it has to be admitted. -/
def ofInvocation (files : Files) (input : String) (inv : Invocation)
    (trace : Trace) : Outcome :=
  if inv.help then { status := 0, output := helpText, trace := trace } else
    match inv.operands with
    | [] => ofCommand files input inv none trace
    | [file] =>
      if files.admits file then ofCommand files input inv (some file) trace else usage trace
    | _ => usage trace

/-- The outcome of a command line. -/
def ofArgs (files : Files) (input : String) (args : List String)
    (trace : Trace := {}) : Outcome :=
  match Invocation.ofArgs? args with
  | some inv => ofInvocation files input inv trace
  | none => usage trace

end Outcome

end TypedL5
