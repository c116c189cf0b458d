import TypedL5.Check.Source

/-!
Sessions: the forms of one running program, checked as they come. A definition is seen by every
later form.
-/
namespace TypedL5

structure Session where
  state : CheckState := {}
  env : Env := {}
  /-- What has been defined, in order. -/
  definitions : List Decl := []
deriving Repr, DecidableEq

namespace Session

/-- Reads forms, with new variables from the session. -/
def read (source : String) : EStateM ParseError Session (List Exp) := fun s =>
  match Exp.readTopLevel source s.state.supply with
  | .ok forms supply => .ok forms { s with state := { s.state with supply := supply } }
  | .error e supply => .error e { s with state := { s.state with supply := supply } }

/-- The declaration that a definition adds. -/
def defined : Exp → List Decl
  | .define d _ => [d]
  | _ => []

/-- Checks a form. The answer is its type, unless it is a definition. A form that fails leaves
environment and definitions as they are. -/
def add (form : Exp) : EStateM Failure Session (Option Ty) := fun s =>
  match form.checkForm s.env s.state with
  | .ok (env, t?) state => .ok t? ⟨state, env, s.definitions ++ defined form⟩
  | .error c state => .error (c.failure state.store) { s with state := state }

/-- A session that starts anew. Only the trace goes on. -/
def restart (s : Session) : Session :=
  { state := { trace := s.state.trace } }

/-- The written type of a defined name. -/
def typeOf? (s : Session) (name : String) : Option String :=
  (s.env.lookup? name).map s.state.store.text

/-- The definitions with their written types. -/
def listing (s : Session) : List (String × String) :=
  s.definitions.map fun d => (d.name, s.state.store.text d.ty)

/-- Words that are offered for completion beside the defined names. -/
def completionWords : List String :=
  ["define", "lambda", "let", "letrec", "if", "quote", "number", "boolean", "string"]

/-- The names and words that begin with a text. -/
def completions (s : Session) (text : String) : List String :=
  (s.env.names ++ completionWords).filter fun name => text.toList.isPrefixOf name.toList

end Session

end TypedL5
