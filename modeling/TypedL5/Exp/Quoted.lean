import TypedL5.Datum.Basic
import TypedL5.Ty.Basic

/-!
Quoted data, built of pairs, and their types.
-/
namespace TypedL5

inductive Quoted where
  | atom (a : Atom)
  | sym (name : String)
  | nil
  | cons (first rest : Quoted)
deriving DecidableEq, Repr

namespace Quoted

mutual

/-- The value that a quoted datum stands for. A list is a chain of pairs. -/
def ofDatum : Datum → Quoted
  | .atom a => .atom a
  | .sym name => .sym name
  | .list items => ofItems .nil items
  | .dotted items tail => ofItems (ofDatum tail) items

/-- A chain of pairs that ends in `last`. -/
def ofItems (last : Quoted) : List Datum → Quoted
  | [] => last
  | d :: ds => .cons (ofDatum d) (ofItems last ds)

end

mutual

/-- The written form of a value. -/
def write : Quoted → String
  | .atom a => a.write
  | .sym name => name
  | .nil => "()"
  | .cons first rest => "(" ++ first.write ++ rest.writeRest

/-- What follows the first item of a chain of pairs. -/
def writeRest : Quoted → String
  | .atom a => " . " ++ a.write ++ ")"
  | .sym name => " . " ++ name ++ ")"
  | .nil => ")"
  | .cons first rest => " " ++ first.write ++ rest.writeRest

end

/-- The type of a value. Numbers and booleans have their own type inside a pair only. -/
def ty (inPair : Bool) : Quoted → Ty
  | .cons first rest => .pair (first.ty true) (rest.ty true)
  | .nil => .void
  | .atom (.bool _) => if inPair then .boolean else .literal
  | .atom (.num _) => if inPair then .number else .literal
  | .atom (.str _) | .sym _ => .literal

end Quoted

end TypedL5
