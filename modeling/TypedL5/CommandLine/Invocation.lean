/-!
Invocations: what the arguments of a command line ask for.

Options and the file name may come in any order. Short options may be written together, and a
value may be written together with its option. Two dashes end the options.
-/
namespace TypedL5

structure Invocation where
  expression? : Option String := none
  verbose : Bool := false
  noColor : Bool := false
  version : Bool := false
  help : Bool := false
  /-- What is neither an option nor the value of one. -/
  operands : List String := []
deriving DecidableEq, Repr

namespace Invocation

/-- What an option does: it is a flag, or it takes a value. -/
inductive Opt where
  | flag (set : Invocation → Invocation)
  | value (set : String → Invocation → Invocation)

def expressionOpt : Opt := .value fun text inv => { inv with expression? := some text }

def verboseOpt : Opt := .flag fun inv => { inv with verbose := true }

/-- An option with a long name. -/
def long? (name : String) : Option Opt :=
  if name = "--expression" then some expressionOpt
  else if name = "--verbose" then some verboseOpt
  else if name = "--no-color" then some (.flag fun inv => { inv with noColor := true })
  else if name = "--version" then some (.flag fun inv => { inv with version := true })
  else if name = "--help" then some (.flag fun inv => { inv with help := true })
  else none

/-- An option with a short name. -/
def short? (name : Char) : Option Opt :=
  if name = 'e' then some expressionOpt else if name = 'v' then some verboseOpt else none

/-- An argument cut at its first equals sign. -/
def cutValue (arg : String) : String × Option String :=
  let cs := arg.toList
  let name := cs.takeWhile (· ≠ '=')
  (String.ofList name, if cs.length = name.length then none
    else some (String.ofList (cs.drop (name.length + 1))))

/-- What short options written together leave open: nothing, or an option that takes the next
argument. -/
inductive Cluster where
  | done (inv : Invocation)
  | needsValue (set : String → Invocation → Invocation) (inv : Invocation)

/-- Takes short options written together. The first one that takes a value takes all that
follows it. -/
def takeShort (inv : Invocation) : List Char → Option Cluster
  | [] => some (.done inv)
  | c :: cs =>
    match short? c with
    | none => none
    | some (.flag set) => takeShort (set inv) cs
    | some (.value set) =>
      if cs.isEmpty then some (.needsValue set inv)
        else some (.done (set (String.ofList cs) inv))

/-- Takes one argument that is an option. -/
def takeOption (inv : Invocation) (arg : String) : Option Cluster :=
  let (name, value?) := cutValue arg
  match long? name, value? with
  | some (.flag set), none => some (.done (set inv))
  | some (.flag _), some _ => none
  | some (.value set), none => some (.needsValue set inv)
  | some (.value set), some value => some (.done (set value inv))
  | none, _ =>
    if arg.toList.take 2 == ['-', '-'] then none else takeShort inv (arg.toList.drop 1)

/-- Whether a session is asked for: nothing to show and nothing to check. -/
def isSession (inv : Invocation) : Bool :=
  !inv.help && !inv.version && inv.expression?.isNone && inv.operands.isEmpty

def addOperands (inv : Invocation) (args : List String) : Invocation :=
  { inv with operands := inv.operands ++ args }

/-- Whether an argument is written as an option. A single dash is not. -/
def looksLikeOption (arg : String) : Bool :=
  match arg.toList with
  | '-' :: _ :: _ => true
  | _ => false

/-- Takes arguments from left to right, unless an option is unknown or lacks its value. -/
def takeArgs (inv : Invocation) : List String → Option Invocation
  | [] => some inv
  | arg :: args =>
    if arg = "--" then some (inv.addOperands args)
    else if looksLikeOption arg then
      match inv.takeOption arg with
      | none => none
      | some (.done inv) => takeArgs inv args
      | some (.needsValue set inv) =>
        match args with
        | [] => none
        | value :: args => takeArgs (set value inv) args
    else takeArgs (inv.addOperands [arg]) args

/-- What arguments ask for, unless their options are at fault. -/
def ofArgs? (args : List String) : Option Invocation :=
  takeArgs {} args

end Invocation

end TypedL5
