import TypedL5.Exp.Basic
import TypedL5.Exp.Keyword
import TypedL5.Ty.Parser

/-!
Reading expressions and programs from data. A declaration without a type gets a numbered
variable.
-/
namespace TypedL5

/-- A numbered variable that has not been used before, as a type. -/
def ParseM.numbered : ParseM Ty := do
  return .var (← modifyGet Supply.numbered)

namespace Decl

/-- A name that may be declared. -/
def declarable (name : String) : ParseM String :=
  if isReserved name then throw (.reservedName name) else return name

/-- Reads `x` or `(x : type)`. -/
def ofDatum : Datum → ParseM Decl
  | .sym x => do
    let name ← declarable x
    return ⟨name, ← ParseM.numbered⟩
  | .list [.sym x, colon, annotation] => do
    unless colon.isSym ":"
      do throw (.badDeclaration (Datum.list [.sym x, colon, annotation]).write)
    let name ← declarable x
    return ⟨name, ← Ty.ofWritten annotation⟩
  | d => throw (.badDeclaration d.write)

def ofData : List Datum → ParseM (List Decl)
  | [] => return []
  | d :: ds => do
    let decl ← ofDatum d
    return decl :: (← ofData ds)

end Decl

namespace Exp

/-- The expression that a symbol stands for. -/
def ofName (name : String) : ParseM Exp :=
  if isPrimitive name then return .prim name
  else if (Keyword.ofName? name).isSome then throw (.keywordAsVariable name)
  else return .var name

/-- The keyword at the head of a form. -/
def keyword? : Datum → Option Keyword
  | .sym name => Keyword.ofName? name
  | _ => none

mutual

/-- The expression that a datum stands for. -/
def ofDatum : Datum → ParseM Exp
  | .atom a => return .const a
  | .sym name => ofName name
  | .dotted items tail => throw (.notForm (Datum.dotted items tail).write)
  | .list [] => throw .emptyCombination
  | .list (head :: args) =>
    match keyword? head with
    | some keyword => ofKeyword (Datum.list (head :: args)).write keyword args
    | none => do
      let rator ← ofDatum head
      return .app rator (← ofData args)

/-- The expression that a form with a keyword at its head stands for. -/
def ofKeyword (form : String) : Keyword → List Datum → ParseM Exp
  | .ite, [c, t, e] => do
    let c ← ofDatum c
    let t ← ofDatum t
    let e ← ofDatum e
    return .ite c t e
  | .ite, _ => throw (.badIf form)
  | .lambda, .list params :: rest => do
    if rest.isEmpty then throw (.badLambda form)
    let params ← Decl.ofData params
    let (result, body) ← ofResultAndBody form rest
    return .lambda params result body
  | .lambda, _ => throw (.badLambda form)
  | .letIn, .list bindings :: body => do
    if body.isEmpty then throw (.badLet "let" form)
    let bindings ← ofBindings "let" bindings
    return .letIn bindings (← ofData body)
  | .letIn, _ => throw (.badLet "let" form)
  | .letrec, .list bindings :: body => do
    if body.isEmpty then throw (.badLet "letrec" form)
    let bindings ← ofBindings "letrec" bindings
    return .letrec bindings (← ofData body)
  | .letrec, _ => throw (.badLet "letrec" form)
  | .assign, [.sym x, e] => do return .assign x (← ofDatum e)
  | .assign, _ => throw (.badAssignment form)
  | .quote, [d] => return .quote (.ofDatum d)
  | .quote, _ => throw (.badQuote form)
  | .define, _ => throw (.innerDefine form)
  | .program, _ => throw .innerProgram

def ofData : List Datum → ParseM (List Exp)
  | [] => return []
  | d :: ds => do
    let e ← ofDatum d
    return e :: (← ofData ds)

/-- What follows the parameters of `form`: a colon and the type of the result, if they are
there, and the body. -/
def ofResultAndBody (form : String) : List Datum → ParseM (Ty × List Exp)
  | [] => throw (.emptyBody form)
  | d :: ds =>
    if d.isSym ":" then
      match ds with
      | [] => throw (.missingResult form)
      | annotation :: body => do
        let result ← Ty.ofWritten annotation
        if body.isEmpty then throw (.emptyBody form)
        return (result, ← ofData body)
    else do
      let result ← ParseM.numbered
      let e ← ofDatum d
      return (result, e :: (← ofData ds))

def ofBindings (keyword : String) : List Datum → ParseM (List (Decl × Exp))
  | [] => return []
  | .list [decl, value] :: ds => do
    let decl ← Decl.ofDatum decl
    let value ← ofDatum value
    return (decl, value) :: (← ofBindings keyword ds)
  | d :: _ => throw (.badBinding keyword d.write)

end

/-- Reads a form of a program: a definition or an expression. -/
def ofForm (d : Datum) : ParseM Exp :=
  match d with
  | .list (head :: args) =>
    if head.isSym Keyword.define.text then
      match args with
      | [decl, value] => do
        let decl ← Decl.ofDatum decl
        return .define decl (← ofDatum value)
      | _ => throw (.badDefine d.write)
    else ofDatum d
  | _ => ofDatum d

def ofForms : List Datum → ParseM (List Exp)
  | [] => return []
  | d :: ds => do
    let e ← ofForm d
    return e :: (← ofForms ds)

/-- The forms of a program `(L5 form ...)`, if a datum is one. -/
def programForms? : Datum → Option (List Datum)
  | .list (head :: forms) => if head.isSym Keyword.program.text then some forms else none
  | _ => none

/-- Reads a program. -/
def ofProgram (d : Datum) : ParseM Exp :=
  match programForms? d with
  | some forms => return .program (← ofForms forms)
  | none => throw (.notProgram d.write)

/-- Reads what stands for forms: a form for itself, a program for the forms in it. -/
def ofFormOrProgram (d : Datum) : ParseM (List Exp) :=
  match programForms? d with
  | some forms => ofForms forms
  | none => do return [← ofForm d]

/-- Reads forms and programs one after the other. -/
def ofTopLevel : List Datum → ParseM (List Exp)
  | [] => return []
  | d :: ds => do
    let es ← ofFormOrProgram d
    return es ++ (← ofTopLevel ds)

/-- The only datum of a text. -/
def datumOf (source : String) : ParseM Datum :=
  match Datum.read source with
  | .ok d => return d
  | .error e => throw (.unreadable e)

/-- Reads a text that holds one expression. -/
def read (source : String) : ParseM Exp := do
  ofDatum (← datumOf source)

/-- Reads a text that holds one form. -/
def readForm (source : String) : ParseM Exp := do
  ofForm (← datumOf source)

/-- Reads a text that holds one program. -/
def readProgram (source : String) : ParseM Exp := do
  ofProgram (← datumOf source)

/-- Reads a text that holds any number of forms. -/
def readTopLevel (source : String) : ParseM (List Exp) :=
  match Datum.readAll source with
  | .ok ds => ofTopLevel ds
  | .error e => throw (.unreadable e)

end Exp

end TypedL5
