import TypedL5.Datum.Tree
import TypedL5.Token.Scan

/-!
Reading data from source text. Faults of structure are found token by token, in order. What the
tokens stand for is looked at afterwards, from left to right and inner data first.
-/
namespace TypedL5

/-- Why a text cannot be read. -/
inductive ReadError where
  | unexpectedToken (text : String) (place : Position)
  | unexpectedCharacter (place : Position)
  /-- The text stops in the middle of a datum. -/
  | endOfInput
  /-- A dotted list without an item before the dot. -/
  | headless
  | wrongCount (found : Nat)
  /-- A whole number with more digits than the limit. -/
  | numeralTooLong
deriving DecidableEq, Repr

namespace Tree

/-- The trees of a row of tokens, ended by the place where scanning got stuck, if it did. -/
def ofTokens (stuck? : Option Position) : List Located → Stack → Except ReadError (List Tree)
  | [], s =>
    match stuck?, s.frames with
    | some place, _ => .error (.unexpectedCharacter place)
    | none, [] => .ok s.trees.reverse
    | none, _ => .error .endOfInput
  | t :: ts, s =>
    match s.step? t.token with
    | some s => ofTokens stuck? ts s
    | none => .error (.unexpectedToken t.token.text t.position)

/-- The trees of a text. -/
def readAll (cs : List Char) : Except ReadError (List Tree) :=
  let scan := Scan.ofChars cs
  ofTokens scan.stuck? scan.tokens.reverse {}

end Tree

/-- The text between the quotes of a string token. -/
def Leaf.body (text : String) : List Char :=
  text.toList.tail.dropLast

/-- What a leaf stands for. -/
def Leaf.datum : Leaf → Except ReadError Datum
  | .number text =>
    match (Numeral.ofChars? text.toList).bind Numeral.value? with
    | some n => .ok (.atom (.num n))
    | none => .error .numeralTooLong
  | .boolean text => .ok (.atom (.bool (text == "#t" || text == "#true")))
  | .string text => .ok (.atom (.str (String.ofList (Text.unescape (body text)))))
  | .symbol text => .ok (.sym text)

namespace Tree

mutual

/-- The datum that a tree stands for. -/
def datum : Tree → Except ReadError Datum
  | .leaf l => l.datum
  | .list items => do return .list (← data items)
  | .dotted items tail => do
    let items ← data items
    let tail ← tail.datum
    if items.isEmpty then throw .headless else return .dotted items tail
  | .quoted t => do return .list [.sym "quote", ← t.datum]

def data : List Tree → Except ReadError (List Datum)
  | [] => return []
  | t :: ts => do
    let d ← t.datum
    return d :: (← data ts)

end

end Tree

namespace Datum

/-- Every datum of a text. -/
def readAll (source : String) : Except ReadError (List Datum) := do
  Tree.data (← Tree.readAll source.toList)

/-- The datum of a text that holds exactly one. -/
def read (source : String) : Except ReadError Datum := do
  match ← readAll source with
  | [d] => return d
  | ds => throw (.wrongCount ds.length)

end Datum

end TypedL5
