import TypedL5.Ty.Basic

/-!
Type environments: frames of declarations, the innermost first.
-/
namespace TypedL5

structure Env where
  frames : List (List Decl) := []
deriving Repr, DecidableEq

namespace Env

/-- Adds an innermost frame. -/
def extend (env : Env) (frame : List Decl) : Env :=
  ⟨frame :: env.frames⟩

/-- The type of a name: that of its first declaration in the innermost frame that declares
it. -/
def lookup? (env : Env) (name : String) : Option Ty :=
  env.frames.findSome? fun frame => (frame.find? (·.name == name)).map (·.ty)

theorem lookup?_extend (env : Env) (frame : List Decl) (x : String) :
    (env.extend frame).lookup? x =
      ((frame.find? (·.name == x)).map (·.ty)).or (env.lookup? x) := by
  cases h : frame.find? (·.name == x) <;> simp [lookup?, extend, h]

/-- The declared names, innermost first, each once. -/
def names (env : Env) : List String :=
  (env.frames.flatten.map Decl.name).eraseDups

/-- A frame from its names and their types, if there are as many of the one as of the other. -/
def frame? (names : List String) (types : List Ty) : Option (List Decl) :=
  if names.length = types.length then some (List.zipWith Decl.mk names types) else none

end Env

end TypedL5
