import TypedL5.Check.Failure
import TypedL5.Check.Trace
import TypedL5.Ty.Basic

/-!
Computations that check. They bind variables, take new ones, and note what they find out.
-/
namespace TypedL5

structure CheckState where
  supply : Supply := {}
  store : Store := {}
  trace : Trace := {}
deriving DecidableEq, Repr

/-- What a check did before it failed remains done. -/
abbrev CheckM := EStateM Cause CheckState

namespace CheckState

/-- The steps for bindings, each with the type as it stood right after it was bound. -/
def bindingSteps (bindings : List (TyVar × Ty × Store)) : List Step :=
  bindings.map fun (v, t, s) => ⟨"bind " ++ v.name, some (s.text t)⟩

/-- Goes on with a store that holds further bindings, and notes them. -/
def withStore (st : CheckState) (store : Store) : CheckState :=
  { st with
    store := store
    trace := if st.trace.enabled then st.trace.add (bindingSteps (store.since st.store))
      else st.trace }

/-- Notes that an expression has a type. -/
def noteType (st : CheckState) (e : Exp) (t : Ty) : CheckState :=
  if st.trace.enabled then
    let step : Step := ⟨e.formName ++ ": " ++ e.text st.store, some (st.store.text t)⟩
    { st with trace := st.trace.add [step] }
  else st

end CheckState

namespace CheckM

/-- Makes two types equal, while checking `e`. -/
def unify (t u : Ty) (e : Exp) : CheckM Unit := fun st =>
  match Store.unify t u st.store with
  | .ok _ store => .ok () (st.withStore store)
  | .error c store => .error (.clash c e) (st.withStore store)

/-- The type `t`, noted as that of `e`. -/
def derived (e : Exp) (t : Ty) : CheckM Ty := do
  modify fun st => st.noteType e t
  return t

end CheckM

end TypedL5
