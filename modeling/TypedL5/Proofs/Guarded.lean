import TypedL5.Check.Source
import TypedL5.Proofs.Unify

/-!
Checks that make sure of what they rely on.

A check relies on several things. A variable that it binds is not bound yet. A frame has as
many types as names, so that there is a type at the place of each name. What it writes is a
type of a form that it knows. Comparing and writing types comes to an end. A guarded check
looks whether each of these holds at the moment when it needs it, and stops with a fault
otherwise. In a store without cycles it never does, so it gives the answers of the plain check.
-/
namespace TypedL5

namespace Guarded

/-- Something that a check relies on does not hold. -/
inductive Fault where
  | rebound (v : TyVar)
  /-- A frame with more names than types, or with fewer. -/
  | uneven (names : List String) (types : List Ty)
  /-- A frame without a type at the place of a name. -/
  | untyped (name : String)
  /-- A type of none of the forms that are written. -/
  | unwritable (t : Ty)
  | endless

/-- What ends a guarded check early. -/
inductive Stop where
  | failure (f : Failure)
  | fault (f : Fault)

abbrev GuardedM := EStateM Stop CheckState

/-- Goes on if nothing is wrong. -/
def ensure {α : Type} : Except Fault α → GuardedM α
  | .ok a => return a
  | .error f => throw (.fault f)

/-- Writes a type, at most `n` levels deep. The forms are tried one after the other. -/
def textUpTo (s : Store) : Nat → Ty → Except Fault String
  | 0, _ => .error .endless
  | n + 1, t =>
    let t := s.deref t
    if let .base b := t then return b.name
    else if let .var v := t then return v.name
    else if let .pair l r := t then
      return Text.parens (Text.spaced ["Pair", ← textUpTo s n l, ← textUpTo s n r])
    else if let .proc ps r := t then
      return Text.parens
        (Text.spaced [Ty.paramsText (← ps.mapM (textUpTo s n)), "->", ← textUpTo s n r])
    else .error (.unwritable t)

def text (s : Store) (t : Ty) : Except Fault String := textUpTo s (s.resolve t).size t

def declText (s : Store) (d : Decl) : Except Fault String :=
  return Text.parens (Text.spaced [d.name, ":", ← text s d.ty])

mutual

/-- Writes an expression, with the types in it. -/
def expText (s : Store) : Exp → Except Fault String
  | .const a => return a.write
  | .prim op => return op
  | .var x => return x
  | .ite c t e =>
    return Text.parens (Text.spaced ["if", ← expText s c, ← expText s t, ← expText s e])
  | .lambda ps r body =>
    return Text.parens (Text.spaced
      ["lambda", Text.parens (Text.spaced (← ps.mapM (declText s))), ":", ← text s r,
      Text.spaced (← expTexts s body)])
  | .app f es => return Text.parens (Text.spaced ((← expText s f) :: (← expTexts s es)))
  | .letIn bs body =>
    return Text.parens (Text.spaced ["let", Text.parens (Text.spaced (← bindingTexts s bs)),
      Text.spaced (← expTexts s body)])
  | .letrec bs body =>
    return Text.parens (Text.spaced ["letrec", Text.parens (Text.spaced (← bindingTexts s bs)),
      Text.spaced (← expTexts s body)])
  | .assign x e => return Text.parens (Text.spaced ["set!", x, ← expText s e])
  | .quote v => return Text.parens (Text.spaced ["quote", v.write])
  | .define d e => return Text.parens (Text.spaced ["define", ← declText s d, ← expText s e])
  | .program es => return Text.parens (Text.spaced ("L5" :: (← expTexts s es)))

def expTexts (s : Store) : List Exp → Except Fault (List String)
  | [] => return []
  | e :: es => return (← expText s e) :: (← expTexts s es)

def bindingTexts (s : Store) : List (Decl × Exp) → Except Fault (List String)
  | [] => return []
  | (d, e) :: bs =>
    return Text.parens (Text.spaced [← declText s d, ← expText s e]) :: (← bindingTexts s bs)

end

def clashReport (s : Store) (e : Exp) : Clash → Except Fault Failure
  | .mismatch t u =>
    return {
      kind := .typeMismatch
      message := "Incompatible types: " ++ (← text s t) ++ " and " ++ (← text s u) ++ " in " ++
        (← expText s e) }
  | .cycle v t =>
    return { kind := .occursCheck, message := "Occurs check failed: " ++ v.name ++ " in " ++
      (← text s t) }
  | .endless t u =>
    return { kind := .occursCheck, message := "Occurs check failed: " ++ (← text s t) ++
      " in " ++ (← text s u) }

/-- Writes the report of a failure. -/
def report (s : Store) : Cause → Except Fault Failure
  | .unbound name similar =>
    return ⟨.unboundVariable, "Unbound variable: " ++ name, some name, similar⟩
  | .unknownPrimitive op =>
    return { kind := .unknownPrimitive, message := "Primitive not yet implemented: " ++ op }
  | .notProcedure t e =>
    return {
      kind := .typeMismatch
      message := "Application of non-procedure: " ++ (← text s t) ++ " in " ++
        (← expText s e) }
  | .wrongArity e =>
    return { kind := .arityMismatch, message := "Wrong parameter numbers passed to proc: " ++
      (← expText s e) }
  | .notLambda e =>
    return {
      kind := .arityMismatch
      message := "letrec - only support binding of procedures - " ++ (← expText s e) }
  | .clash c e => clashReport s e c
  | .unsupported e =>
    return { kind := .unsupportedForm, message := "Unsupported form: " ++ (← expText s e) }
  | .emptyBody =>
    return { kind := .unsupportedForm, message := "Unexpected empty list of expressions" }
  | .emptyProgram => return { kind := .emptyProgram, message := "No expressions in program" }

def fail {α : Type} (c : Cause) : GuardedM α := do
  throw (.failure (← ensure (report (← get).store c)))

/-- Binds a variable, and notes what it is bound to. -/
def bindVar (e : Exp) (v : TyVar) (t : Ty) : GuardedM Unit := do
  let st ← get
  if st.store.occurs v t then fail (.clash (.cycle v t) e)
  else match st.store.assign? v t with
    | some s =>
      let written ← ensure (text s t)
      set { st with store := s, trace := st.trace.add [⟨"bind " ++ v.name, some written⟩] }
    | none => throw (.fault (.rebound v))

/-- Makes two types equal that are no bound variables, while checking `e`, with `unify` for
their parts. -/
def unifyMet (e : Exp) (unify : Ty → Ty → GuardedM Unit) (t u : Ty) : GuardedM Unit :=
  match t.meet u with
  | .bind v w => bindVar e v w
  | .parts eqs => forM eqs fun eq => unify eq.1 eq.2
  | .clash => fail (.clash (.mismatch t u) e)

/-- Makes two types equal, looking at most `n` levels deep. -/
def unifyUpTo (e : Exp) : Nat → Ty → Ty → GuardedM Unit
  | 0, _, _ => throw (.fault .endless)
  | n + 1, t, u => do
    let s := (← get).store
    unifyMet e (unifyUpTo e n) (s.deref t) (s.deref u)

def unify (t u : Ty) (e : Exp) : GuardedM Unit := do
  unifyUpTo e ((← get).store.levels t u) t u

/-- The type `t`, noted as that of `e`. -/
def derived (e : Exp) (t : Ty) : GuardedM Ty := do
  let st ← get
  if st.trace.enabled then
    let form ← ensure (expText st.store e)
    let written ← ensure (text st.store t)
    set { st with trace := st.trace.add [⟨e.formName ++ ": " ++ form, some written⟩] }
  return t

/-- A frame as names and types that belong together by their places. -/
structure Frame where
  names : List String
  types : List Ty

def extend (fs : List Frame) (names : List String) (types : List Ty) : GuardedM (List Frame) :=
  match Env.frame? names types with
  | some _ => return ⟨names, types⟩ :: fs
  | none => throw (.fault (.uneven names types))

def extendBy (fs : List Frame) (ds : List Decl) : GuardedM (List Frame) :=
  extend fs (ds.map Decl.name) (ds.map Decl.ty)

/-- The type at the place of a name, in the innermost frame that has the name. -/
def lookup? (x : String) : List Frame → Except Fault (Option Ty)
  | [] => .ok none
  | f :: fs =>
    if x ∈ f.names then
      match f.types[f.names.idxOf x]? with
      | some t => .ok (some t)
      | none => .error (.untyped x)
    else lookup? x fs

def lookup (fs : List Frame) (x : String) : GuardedM Ty := do
  match ← ensure (lookup? x fs) with
  | some t => return t
  | none => fail (.unbound x (Name.similar x (fs.flatMap Frame.names).eraseDups))

def primitive (op : String) : GuardedM Ty :=
  match Primitive.signature? op with
  | some σ => modifyGet fun st =>
    let (t, supply) := σ.instantiate st.supply
    (t, { st with supply := supply })
  | none => fail (.unknownPrimitive op)

mutual

/-- The type of an expression. -/
def typeOf (fs : List Frame) : Exp → GuardedM Ty
  | .const a => derived (.const a) a.ty
  | .prim op => do derived (.prim op) (← primitive op)
  | .var x => do derived (.var x) (← lookup fs x)
  | .ite c t e => do
    let tc ← typeOf fs c
    let tt ← typeOf fs t
    let te ← typeOf fs e
    unify tc .boolean (.ite c t e)
    unify tt te (.ite c t e)
    derived (.ite c t e) tt
  | .lambda ps r body => do
    let inner ← extendBy fs ps
    let t ← typeOfBody inner body
    unify t r (.lambda ps r body)
    derived (.lambda ps r body) (.proc (ps.map Decl.ty) r)
  | .app f es => do
    let tf ← typeOf fs f
    match (← get).store.deref tf with
    | .proc ps r =>
      if es.length = ps.length then do
        checkArgs fs (.app f es) es ps
        derived (.app f es) r
      else fail (.wrongArity (.app f es))
    | t => fail (.notProcedure t (.app f es))
  | .letIn bs body => do
    checkBindings fs (.letIn bs body) bs
    let inner ← extendBy fs (bs.map Prod.fst)
    let t ← typeOfBody inner body
    derived (.letIn bs body) t
  | .letrec bs body =>
    if bs.all (·.2.isLambda) then do
      let inner ← extendBy fs (bs.map Exp.procDecl)
      checkProcs inner (.letrec bs body) bs
      let t ← typeOfBody inner body
      derived (.letrec bs body) t
    else fail (.notLambda (.letrec bs body))
  | .assign x e => fail (.unsupported (.assign x e))
  | .quote v => derived (.quote v) (v.ty false)
  | .define d e => do
    let t ← typeOf fs e
    unify d.ty t (.define d e)
    derived (.define d e) .void
  | .program es => do
    let t ← typeOfForms fs none es
    derived (.program es) t

def typeOfBody (fs : List Frame) : List Exp → GuardedM Ty
  | [] => fail .emptyBody
  | [e] => typeOf fs e
  | e :: es => do
    let _ ← typeOf fs e
    typeOfBody fs es

def checkArgs (fs : List Frame) (whole : Exp) : List Exp → List Ty → GuardedM Unit
  | e :: es, p :: ps => do
    let t ← typeOf fs e
    unify t p whole
    checkArgs fs whole es ps
  | _, _ => return ()

def checkBindings (fs : List Frame) (whole : Exp) : List (Decl × Exp) → GuardedM Unit
  | [] => return ()
  | (d, e) :: bs => do
    let t ← typeOf fs e
    unify d.ty t whole
    checkBindings fs whole bs

def checkProcs (fs : List Frame) (whole : Exp) : List (Decl × Exp) → GuardedM Unit
  | [] => return ()
  | (_, .lambda ps r body) :: bs => do
    let inner ← extendBy fs ps
    let t ← typeOfBody inner body
    unify t r whole
    checkProcs fs whole bs
  | _ :: bs => checkProcs fs whole bs

def typeOfForms (fs : List Frame) (last : Option Ty) : List Exp → GuardedM Ty
  | [] =>
    match last with
    | some t => return t
    | none => fail .emptyProgram
  | .define d e :: es => do
    let t ← typeOf fs e
    unify d.ty t (.define d e)
    let inner ← extendBy fs [d]
    typeOfForms inner last es
  | e :: es => do
    let t ← typeOf fs e
    typeOfForms fs (some t) es

end

def typeOfProgram (fs : List Frame) : Exp → GuardedM Ty
  | .program es => typeOfForms fs none es
  | e => typeOf fs e

/-- Checks an expression, and writes its type. -/
def written (typeOf : Exp → GuardedM Ty) (e : Exp) : GuardedM String := do
  let t ← typeOf e
  ensure (text (← get).store t)

/-- The answer that a check ends with, unless that is a fault. -/
def answer : EStateM.Result Stop CheckState String → Except (Abort ⊕ Fault) Checked
  | .ok text st => .ok ⟨.ok text, st.trace⟩
  | .error (.failure f) st => .ok ⟨.error f, st.trace⟩
  | .error (.fault f) _ => .error (.inr f)

/-- Checks what has been read. -/
def ofRead (read : ParseM Exp) (typeOf : Exp → GuardedM Ty) (trace : Trace) :
    Except (Abort ⊕ Fault) Checked :=
  match read {} with
  | .error e _ =>
    if e.isFatal then .error (.inl .numeralTooLong) else .ok ⟨.error (.ofParseError e), trace⟩
  | .ok e supply => answer (written typeOf e { supply := supply, trace := trace })

def ofExp (source : String) (trace : Trace) : Except (Abort ⊕ Fault) Checked :=
  ofRead (Exp.read source) (typeOf []) trace

def ofProgram (source : String) (trace : Trace) : Except (Abort ⊕ Fault) Checked :=
  ofRead (Exp.readProgram source) (typeOfProgram []) trace

end Guarded

end TypedL5
