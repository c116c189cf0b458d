import TypedL5.Number.Numeral
import TypedL5.Text.Space
import TypedL5.Token.Basic

/-!
Scanning: source text to tokens, one character at a time. The state after a text is all that
the characters after it can see, so scanning a text piece by piece is scanning it as a whole.
-/
namespace TypedL5

/-- What the characters since the last token are. Characters are kept latest first. -/
inductive Scan.Mode where
  | between
  | comment
  /-- A number, a boolean, a symbol or a dot: which one shows at its end. -/
  | word (start : Position) (letters : List Char)
  | string (start : Position) (letters : List Char)
  /-- In a string, right after a backslash. -/
  | escape (start : Position) (letters : List Char)
  /-- No token begins as the text goes on at `place`. Nothing after it is looked at. -/
  | stuck (place : Position)
deriving DecidableEq, Repr

/-- The state of a scan: the place of the next character and the tokens so far, latest
first. -/
structure Scan where
  position : Position := {}
  mode : Scan.Mode := .between
  tokens : List Located := []
deriving DecidableEq, Repr

namespace Scan

/-- White space that may stand between tokens. Other white space ends a token and begins
none. -/
def isSkipped (c : Char) : Bool :=
  c = ' ' || c = '\t' || c = '\x0c' || c = '\r' || c = '\n'

/-- The character ends a number, a boolean or a dot, and every symbol. -/
def isDelimiter (c : Char) : Bool :=
  Text.isSpace c || c = '(' || c = ')' || c = '[' || c = ']' || c = '\'' || c = ';'

def emit (s : Scan) (token : Token) (position : Position) : Scan :=
  { s with mode := .between, tokens := ⟨token, position⟩ :: s.tokens }

/-- Whether a lone point is the dot of a dotted list here and not a symbol. It is, right after
an opening round bracket and after a complete datum. -/
def dotFollows (s : Scan) : Bool :=
  match s.tokens with
  | [] => false
  | t :: _ =>
    match t.token with
    | .opening .square | .quote | .dot => false
    | _ => true

def isBoolean (letters : List Char) : Bool :=
  [['#', 't'], ['#', 'f'], ['#', 't', 'r', 'u', 'e'],
    ['#', 'f', 'a', 'l', 's', 'e']].contains letters

/-- Ends the word under way. Only a delimiter (or the end of the text) makes it anything but a
symbol. -/
def endWord (s : Scan) (start : Position) (letters : List Char) (delimited : Bool) : Scan :=
  let word := letters.reverse
  let text := String.ofList word
  if delimited && word == ['.'] then
    s.emit (if s.dotFollows then .dot else .leaf (.symbol text)) start
  else if delimited && (Numeral.ofChars? word).isSome then
    s.emit (.leaf (.number text)) start
  else if delimited && isBoolean word then
    s.emit (.leaf (.boolean text)) start
  else if word.head? == some '#' then
    { s with mode := .stuck start }
  else
    s.emit (.leaf (.symbol text)) start

/-- Takes a character that stands between tokens or begins one. -/
def begin (s : Scan) (c : Char) : Scan :=
  if isSkipped c then { s with mode := .between }
  else if c = ';' then { s with mode := .comment }
  else if c = '(' then s.emit (.opening .round) s.position
  else if c = ')' then s.emit (.closing .round) s.position
  else if c = '[' then s.emit (.opening .square) s.position
  else if c = ']' then s.emit (.closing .square) s.position
  else if c = '\'' then s.emit .quote s.position
  else if c = '"' then { s with mode := .string s.position [c] }
  else if Text.isSpace c then { s with mode := .stuck s.position }
  else { s with mode := .word s.position [c] }

/-- Takes a character, leaving the place as it is. -/
def take (s : Scan) (c : Char) : Scan :=
  match s.mode with
  | .between => s.begin c
  | .comment => if c = '\n' then { s with mode := .between } else s
  | .word start letters =>
    if isDelimiter c || c = '"' then
      let ended := s.endWord start letters (c != '"')
      match ended.mode with
      | .stuck _ => ended
      | _ => ended.begin c
    else { s with mode := .word start (c :: letters) }
  | .string start letters =>
    if c = '"' then s.emit (.leaf (.string (String.ofList (c :: letters).reverse))) start
    else if c = '\\' then { s with mode := .escape start (c :: letters) }
    else { s with mode := .string start (c :: letters) }
  | .escape start letters =>
    if c = '\n' then { s with mode := .stuck start }
    else { s with mode := .string start (c :: letters) }
  | .stuck _ => s

/-- One step of the scan. -/
def step (s : Scan) (c : Char) : Scan :=
  { s.take c with position := s.position.next c }

/-- The end of the text. A string cannot end here. -/
def finish (s : Scan) : Scan :=
  match s.mode with
  | .word start letters => s.endWord start letters true
  | .string start _ | .escape start _ => { s with mode := .stuck start }
  | _ => s

/-- The place at which no token begins, if there is one. -/
def stuck? (s : Scan) : Option Position :=
  match s.mode with
  | .stuck place => some place
  | _ => none

/-- Scans a text to its end, or to the first place where no token begins. -/
def ofChars (cs : List Char) : Scan :=
  (cs.foldl step {}).finish

end Scan

end TypedL5
