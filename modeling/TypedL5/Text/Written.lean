/-!
Written forms: parts side by side, a form in round brackets, and string literals. Writing a
literal puts a backslash before a backslash and before a double quote and leaves all else as it
is.
-/
namespace TypedL5.Text

/-- Parts side by side, with a space between them. -/
def spaced (parts : List String) : String :=
  " ".intercalate parts

def parens (text : String) : String :=
  "(" ++ text ++ ")"

/-- The character that a backslash followed by `c` stands for. -/
def escaped (c : Char) : Char :=
  if c = 'n' then '\n' else if c = 'r' then '\r' else if c = 't' then '\t' else c

/-- Reads the body of a literal. A backslash at the very end stands for itself. -/
def unescape : List Char → List Char
  | [] => []
  | ['\\'] => ['\\']
  | '\\' :: c :: cs => escaped c :: unescape cs
  | c :: cs => c :: unescape cs

/-- Writes a text as the body of a literal. -/
def escape : List Char → List Char
  | [] => []
  | c :: cs => if c = '\\' ∨ c = '"' then '\\' :: c :: escape cs else c :: escape cs

/-- A text as a literal, in double quotes. -/
def quote (text : String) : String :=
  String.ofList ('"' :: escape text.toList ++ ['"'])

theorem unescape_cons_of_ne {c : Char} (h : c ≠ '\\') (cs : List Char) :
    unescape (c :: cs) = c :: unescape cs := by
  rw [unescape] <;> simp_all

/-- Reading the body of a written literal gives the text back. -/
theorem unescape_escape (cs : List Char) : unescape (escape cs) = cs := by
  induction cs with
  | nil => rfl
  | cons c cs ih =>
    by_cases h : c = '\\' ∨ c = '"'
    · obtain rfl | rfl := h <;> simp [escape, unescape, escaped, ih]
    · have hc : c ≠ '\\' := fun he => h (Or.inl he)
      simp [escape, h, unescape_cons_of_ne hc, ih]

end TypedL5.Text
