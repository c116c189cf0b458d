import TypedL5.Report.Hint
import TypedL5.Session.Basic
import TypedL5.Text.Console
import TypedL5.Text.Space

/-!
The dialogue of a session: lines in, prompts and printed text out.

A word or a file name that a command is given is printed as it stands. This holds of a console
that looks for marks in what it prints (a tag in square brackets, the name of a picture between
colons) only as long as the word has no such mark in it.
-/
namespace TypedL5

/-- What a user sees. -/
inductive Event where
  | prompt (text : String)
  | printed (text : String)
deriving DecidableEq, Repr

def Event.text : Event → String
  | .prompt text | .printed text => text

/-- The files that can be named. -/
structure Files where
  /-- The bytes of a file, or why it cannot be read. -/
  read : String → Except String ByteArray
  /-- Whether a file may be named as an argument. This is asked before the file is opened:
  there has to be one, and it may be neither a directory nor closed to the user. -/
  admits : String → Bool := fun file => (read file).isOk

instance : Coe (String → Except String ByteArray) Files := ⟨fun read => { read := read }⟩

structure Repl where
  session : Session := {}
  /-- The lines of a form that is not complete yet. -/
  pending : List String := []
  events : List Event := []
deriving Repr

abbrev ReplM := EStateM Abort Repl

/-- What a user enters. -/
inductive Line where
  | text (line : String)
  | interrupt
deriving DecidableEq, Repr

/-- The commands, each begun with a colon. -/
inductive Command where
  | quit
  | help
  | showType (name? : Option String)
  | showAll
  | clear
  | load (file? : Option String)
  | unknown (word : String)
deriving DecidableEq, Repr

/-- The command of a line, if the line has a word. -/
def Command.ofLine? (line : String) : Option Command :=
  match Text.words line with
  | [] => none
  | word :: args =>
    if word = ":quit" ∨ word = ":q" then some .quit
    else if word = ":help" ∨ word = ":h" then some .help
    else if word = ":type" ∨ word = ":t" then some (.showType args.head?)
    else if word = ":env" ∨ word = ":e" then some .showAll
    else if word = ":clear" ∨ word = ":c" then some .clear
    else if word = ":load" then some (.load args.head?)
    else some (.unknown word)

namespace Repl

/-- A session about to begin. -/
def ofTrace (trace : Trace) : Repl :=
  { session := { state := { trace := trace } } }

def promptText : String := "l5> "

/-- The prompt for the rest of a form. -/
def continuationText : String := "... "

def helpText : String :=
"
L5 REPL Commands:

  :help, :h           Show this help message
  :quit, :q           Exit the REPL
  :type, :t <name>    Show the type of a defined name
  :env, :e            List all definitions
  :clear, :c          Forget all definitions
  :load <file>        Check the forms of a file

Forms:

  5  #t  \"hi\"                           Literals
  (lambda ((x : number)) : number x)    Procedure
  (let (((x : number) 1)) x)            Let
  (letrec (((f : (number -> number))
            (lambda ((n : number)) : number (f n)))) f)
  (define (x : number) 5)               Definition for later inputs
  '(1 . #t)                             Quoted data

Types:

  number  boolean  string  void  literal
  (number * number -> boolean)          Procedure type
  (Empty -> void)                       No arguments
  (Pair number string)                  Pair type
"

def emit (e : Event) : ReplM Unit :=
  modify fun r => { r with events := r.events ++ [e] }

def say (text : String) : ReplM Unit :=
  emit (.printed (Text.printed text))

def setSession (s : Session) : ReplM Unit :=
  modify fun r => { r with session := s }

def setPending (lines : List String) : ReplM Unit :=
  modify fun r => { r with pending := lines }

/-- Checks forms until one fails, and prints what each of them is. -/
def checkForms : List Exp → ReplM Unit
  | [] => return ()
  | form :: forms => do
    match Session.add form (← get).session with
    | .error f s =>
      setSession s
      say (f.report s.state.trace)
    | .ok t? s =>
      setSession s
      match t? with
      | some t => say (s.state.store.text t)
      | none => say ("Defined: " ++ ((Session.defined form).map Decl.name).headD "")
      checkForms forms

/-- Checks the forms of a text. The answer is false if the text merely stops early. All forms
are read before any is checked. -/
def process (source : String) : ReplM Bool := do
  if Text.isBlank source then return true
  match Session.read source (← get).session with
  | .error e s =>
    setSession s
    if e.isFatal then throw .numeralTooLong
    if e.isIncomplete then return false
    say ("Parse error: " ++ e.message)
    return true
  | .ok forms s =>
    setSession s
    checkForms forms
    return true

/-- Checks the forms of a file. -/
def load (files : Files) (file : String) : ReplM Unit := do
  match files.read file with
  | .error reason => say ("Cannot read " ++ file ++ ": " ++ reason)
  | .ok bytes =>
    match Text.decode? bytes with
    | none => throw .notText
    | some source =>
      if ← process source then say ("Loaded " ++ file)
      else say ("Parse error: Unexpected end of input in " ++ file)

def showType (name : String) : ReplM Unit := do
  match (← get).session.typeOf? name with
  | some text => say (name ++ " : " ++ text)
  | none => say ("Unknown name: " ++ name)

def sayAll : List String → ReplM Unit
  | [] => return ()
  | text :: texts => do
    say text
    sayAll texts

def showAll : ReplM Unit := do
  let listing := (← get).session.listing
  if listing.isEmpty then say "No definitions"
  else sayAll ("Definitions:" :: listing.map fun (name, text) => "  " ++ name ++ " : " ++ text)

/-- Obeys a command. The answer is whether the session goes on. -/
def obey (files : Files) : Command → ReplM Bool
  | .quit => do say "Goodbye!"; return false
  | .help => do say helpText; return true
  | .showType none => do say "Usage: :type <name>"; return true
  | .showType (some name) => do showType name; return true
  | .showAll => do showAll; return true
  | .clear => do setSession (← get).session.restart; say "State cleared"; return true
  | .load none => do say "Usage: :load <filename>"; return true
  | .load (some file) => do load files file; return true
  | .unknown word =>
    do sayAll ["Unknown command: " ++ word, "Type :help for help"]; return true

/-- Obeys the command of a line. -/
def obeyLine (files : Files) (line : String) : ReplM Bool :=
  match Command.ofLine? line with
  | some command => obey files command
  | none => throw .blankCommand

/-- Takes what a user enters. Lines are held back until they make complete forms, and a command
is one only where no lines are held back. The answer is whether the session goes on. -/
def take (files : Files) : Line → ReplM Bool
  | .interrupt => do
    say "\nUse :quit to exit"
    setPending []
    return true
  | .text line => do
    let pending := (← get).pending
    if pending.isEmpty && line.toList.head? == some ':' then obeyLine files line
    else
      let pending := pending ++ [line]
      setPending pending
      if ← process ("\n".intercalate pending) then setPending []
      return true

def showPrompt : ReplM Unit := do
  emit (.prompt (if (← get).pending.isEmpty then promptText else continuationText))

/-- Takes leave of a user whose input has ended. -/
def leave : ReplM Unit :=
  say "\nGoodbye!"

/-- Takes lines until the session or its input ends. -/
def takeAll (files : Files) : List Line → ReplM Unit
  | [] => do
    showPrompt
    leave
  | line :: lines => do
    showPrompt
    if ← take files line then takeAll files lines

def greet : ReplM Unit :=
  sayAll ["L5 type checker REPL", "Type :help for help, :quit to exit", ""]

/-- A whole session. -/
def run (files : Files) (lines : List Line) : ReplM Unit := do
  greet
  takeAll files lines

end Repl

end TypedL5
