import TypedL5.Datum.Basic
import TypedL5.Token.Basic

/-!
Trees: the structure of source text, with the text of its leaves as written.

A tree is read by a machine with a stack that holds one frame for each form still open. A token
that no legal text can go on with is refused at once.
-/
namespace TypedL5

inductive Tree where
  | leaf (l : Leaf)
  | list (items : List Tree)
  | dotted (items : List Tree) (tail : Tree)
  /-- The form `'x`. -/
  | quoted (tree : Tree)
deriving Repr, Inhabited

namespace Tree

/-- A form that is still open. Items are kept latest first. -/
inductive Frame where
  | items (bracket : Bracket) (items : List Tree)
  /-- After the dot, before the tail. -/
  | beforeTail (items : List Tree)
  /-- After the tail: only the closing bracket may follow. -/
  | afterTail (items : List Tree) (tail : Tree)
  | quote
deriving Repr

/-- The open forms, innermost first, and the complete trees, latest first. -/
structure Stack where
  frames : List Frame := []
  trees : List Tree := []
deriving Repr

namespace Stack

/-- Adds a complete tree to the innermost open form. It completes each quote that it stands
under. -/
def push (trees : List Tree) (t : Tree) : List Frame → Stack
  | [] => ⟨[], t :: trees⟩
  | .items b ts :: frames => ⟨.items b (t :: ts) :: frames, trees⟩
  | .beforeTail ts :: frames => ⟨.afterTail ts t :: frames, trees⟩
  | .afterTail ts tail :: frames => ⟨.afterTail ts tail :: frames, trees⟩
  | .quote :: frames => push trees (.quoted t) frames

/-- Takes a token, unless no legal text goes on with it. -/
def step? (s : Stack) (token : Token) : Option Stack :=
  match s.frames, token with
  | .afterTail ts tail :: frames, .closing .round =>
    some (push s.trees (.dotted ts.reverse tail) frames)
  | .afterTail _ _ :: _, _ => none
  | frames, .leaf l => some (push s.trees (.leaf l) frames)
  | frames, .opening b => some { s with frames := .items b [] :: frames }
  | frames, .quote => some { s with frames := .quote :: frames }
  | .items .round ts :: frames, .dot => some { s with frames := .beforeTail ts :: frames }
  | .items b ts :: frames, .closing b' =>
    if b = b' then some (push s.trees (.list ts.reverse) frames) else none
  | _, _ => none

end Stack

end Tree

end TypedL5
