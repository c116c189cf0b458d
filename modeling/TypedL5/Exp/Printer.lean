import TypedL5.Exp.Basic
import TypedL5.Ty.Printer

/-!
Written expressions. Annotations are written as they stand in a store, and every declaration is
written with its type.
-/
namespace TypedL5.Exp

mutual

/-- The written form of an expression. -/
def text (s : Store) : Exp → String
  | .const a => a.write
  | .prim op => op
  | .var x => x
  | .ite c t e => Text.parens (Text.spaced ["if", c.text s, t.text s, e.text s])
  | .lambda ps r body =>
    Text.parens
      (Text.spaced ["lambda", Text.parens (Text.spaced (ps.map s.declText)), ":", s.text r,
      Text.spaced (texts s body)])
  | .app f es => Text.parens (Text.spaced (f.text s :: texts s es))
  | .letIn bs body =>
    Text.parens (Text.spaced ["let", Text.parens (Text.spaced (bindingTexts s bs)),
      Text.spaced (texts s body)])
  | .letrec bs body =>
    Text.parens (Text.spaced ["letrec", Text.parens (Text.spaced (bindingTexts s bs)),
      Text.spaced (texts s body)])
  | .assign x e => Text.parens (Text.spaced ["set!", x, e.text s])
  | .quote v => Text.parens (Text.spaced ["quote", v.write])
  | .define d e => Text.parens (Text.spaced ["define", s.declText d, e.text s])
  | .program es => Text.parens (Text.spaced ("L5" :: texts s es))

def texts (s : Store) : List Exp → List String
  | [] => []
  | e :: es => e.text s :: texts s es

def bindingTexts (s : Store) : List (Decl × Exp) → List String
  | [] => []
  | (d, e) :: bs => Text.parens (Text.spaced [s.declText d, e.text s]) :: bindingTexts s bs

end

theorem texts_eq_map (s : Store) (es : List Exp) : texts s es = es.map (text s) := by
  induction es with
  | nil => rfl
  | cons e es ih => simp [texts, ih]

end TypedL5.Exp
