import TypedL5.ParseError
import TypedL5.Ty.Basic

/-!
Reading types. Every occurrence of a variable's name is a new variable: occurrences are tied
together by unification only.
-/
namespace TypedL5

/-- Computations that read forms, taking new variables as they go. Variables taken before a
fault stay taken. -/
abbrev ParseM := EStateM ParseError Supply

/-- Whether a datum is the symbol of a given name. -/
def Datum.isSym (name : String) : Datum → Bool
  | .sym x => x == name
  | _ => false

namespace Ty

/-- The words that have a meaning of their own in types. -/
def typeWords : List String := ["->", "*", "Empty", "Pair"]

/-- Whether data are separated by stars, as parameters are. -/
def starred : List Datum → Bool
  | [] => false
  | [_] => true
  | _ :: star :: ds => star.isSym "*" && starred ds

/-- Whether the parameters before an arrow are none, as nothing or as one word. -/
def noParams : List Datum → Bool
  | [] => true
  | [d] => d.isSym "Empty"
  | _ => false

mutual

/-- The type that a datum stands for. -/
def ofDatum : Datum → ParseM Ty
  | .sym name =>
    match BaseTy.ofName? name with
    | some b => return .base b
    | none =>
      if typeWords.contains name then throw (.wordAsType name)
      else return .var (← modifyGet (·.named name))
  | .list items => do
    let form := (Datum.list items).write
    match items.findIdx? (·.isSym "->") with
    | some i =>
      if i + 2 ≠ items.length then throw (.arrowPlace form)
      let result ← ofLast items
      if noParams (items.take i) then return .proc [] result
      unless starred (items.take i) do throw (.separators form)
      return .proc (← ofEverySecond items) result
    | none =>
      match items with
      | [head, left, right] =>
        unless head.isSym "Pair" do throw (.badType form)
        let left ← ofDatum left
        let right ← ofDatum right
        return .pair left right
      | _ => throw (.badType form)
  | d => throw (.badType d.write)

/-- The type that the last of the data stands for. -/
def ofLast : List Datum → ParseM Ty
  | [] => throw (.badType (Datum.list []).write)
  | [d] => ofDatum d
  | _ :: ds => ofLast ds

/-- The types that the first, the third and so on of the data stand for, up to the last but
one. -/
def ofEverySecond : List Datum → ParseM (List Ty)
  | d :: _ :: ds => do
    let t ← ofDatum d
    return t :: (← ofEverySecond ds)
  | _ => return []

end

/-- Reads a type from text that holds nothing else. -/
def read (source : String) : ParseM Ty :=
  match Datum.read source with
  | .ok d => ofDatum d
  | .error e => throw (.unreadable e)

/-- The type that an annotation stands for. A string is read as the text of a type. -/
def ofWritten : Datum → ParseM Ty
  | .atom (.str source) => read source
  | d => ofDatum d

end Ty

end TypedL5
