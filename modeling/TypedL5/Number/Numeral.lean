import TypedL5.Number.Notation

/-!
Numerals of source text: a sign, digits of any script, and a point with more digits. The digits
of one script are ten neighbouring code points.
-/
namespace TypedL5

namespace Text

/-- The code points of the digit zero, in ascending order. -/
def zeros : List Nat :=
  [0x0030, 0x0660, 0x06F0, 0x07C0, 0x0966, 0x09E6, 0x0A66, 0x0AE6, 0x0B66, 0x0BE6, 0x0C66,
    0x0CE6, 0x0D66, 0x0DE6, 0x0E50, 0x0ED0, 0x0F20, 0x1040, 0x1090, 0x17E0, 0x1810, 0x1946,
    0x19D0, 0x1A80, 0x1A90, 0x1B50, 0x1BB0, 0x1C40, 0x1C50, 0xA620, 0xA8D0, 0xA900, 0xA9D0,
    0xA9F0, 0xAA50, 0xABF0, 0xFF10, 0x104A0, 0x10D30, 0x11066, 0x110F0, 0x11136, 0x111D0,
    0x112F0, 0x11450, 0x114D0, 0x11650, 0x116C0, 0x11730, 0x118E0, 0x11950, 0x11C50, 0x11D50,
    0x11DA0, 0x11F50, 0x16A60, 0x16AC0, 0x16B50, 0x1D7CE, 0x1D7D8, 0x1D7E2, 0x1D7EC, 0x1D7F6,
    0x1E140, 0x1E2F0, 0x1E4F0, 0x1E950, 0x1FBF0]

/-- The value of a decimal digit of any script. -/
def digit? (c : Char) : Option Nat :=
  zeros.findSome? fun first =>
    if first ≤ c.toNat ∧ c.toNat < first + 10 then some (c.toNat - first) else none

/-- The leading digits of a text, by value, and what follows them. -/
def takeDigits : List Char → List Nat × List Char
  | [] => ([], [])
  | c :: cs =>
    match digit? c with
    | some d => let (ds, rest) := takeDigits cs; (d :: ds, rest)
    | none => ([], c :: cs)

/-- The number that a row of decimal digits stands for, the first one being the most
significant. -/
def ofDigits (ds : List Nat) : Nat :=
  ds.foldl (fun n d => 10 * n + d) 0

end Text

/-- A numeral as it is written. A numeral without a point has no `fraction`. -/
structure Numeral where
  negative : Bool
  whole : List Nat
  fraction : Option (List Nat)
deriving DecidableEq, Repr

/-- The value of a numeral: whole if it was written without a point. -/
inductive Number where
  | int (n : Int)
  | float (x : Double)
deriving DecidableEq, Repr

namespace Numeral

/-- Reads a numeral without its sign. A point needs a digit on one side of it. -/
def ofUnsigned? (negative : Bool) (cs : List Char) : Option Numeral :=
  match Text.takeDigits cs with
  | (whole, []) => if whole.isEmpty then none else some ⟨negative, whole, none⟩
  | (whole, '.' :: rest) =>
    match Text.takeDigits rest with
    | (fraction, []) =>
      if whole.isEmpty && fraction.isEmpty then none else some ⟨negative, whole, some fraction⟩
    | _ => none
  | _ => none

/-- Reads a text that is a numeral from end to end. -/
def ofChars? : List Char → Option Numeral
  | '+' :: cs => ofUnsigned? false cs
  | '-' :: cs => ofUnsigned? true cs
  | cs => ofUnsigned? false cs

/-- A whole number is written with at most this many digits. -/
def digitLimit : Nat := 4300

/-- The value of a numeral, or nothing if it is a whole number beyond the limit of digits. -/
def value? (n : Numeral) : Option Number :=
  match n.fraction with
  | none =>
    if digitLimit < n.whole.length then none else
      let size : Int := Text.ofDigits n.whole
      some (.int (if n.negative then -size else size))
  | some fraction =>
    some (.float
      (.ofScientific n.negative (Text.ofDigits (n.whole ++ fraction)) (-fraction.length)))

end Numeral

/-- The text of a number. -/
def Number.text : Number → String
  | .int n => toString n
  | .float x => x.text

end TypedL5
