/-!
Double-precision numbers, kept by their sixty-four bits, and the exact rational that such a
number is.
-/
namespace TypedL5

/-- A double-precision number: one bit of sign, eleven of exponent, fifty-two of fraction. -/
structure Double where
  bits : UInt64
deriving DecidableEq, Repr

namespace Double

/-- The double nearest to `m * 10 ^ e`, negated if asked. Too large a number becomes
infinite. -/
def ofScientific (negative : Bool) (m : Nat) (e : Int) : Double :=
  let x := Float.ofScientific m (e < 0) e.natAbs
  ⟨(if negative then -x else x).toBits⟩

def infinity (negative : Bool) : Double :=
  ⟨if negative then 0xFFF0000000000000 else 0x7FF0000000000000⟩

def nan : Double :=
  ⟨0x7FF8000000000000⟩

def negative (x : Double) : Bool :=
  x.bits.toNat / Nat.pow 2 63 = 1

/-- The exponent field. Its largest value marks infinities and what is not a number. -/
def exponent (x : Double) : Nat :=
  x.bits.toNat / Nat.pow 2 52 % Nat.pow 2 11

/-- The fraction field. -/
def fraction (x : Double) : Nat :=
  x.bits.toNat % Nat.pow 2 52

/-- The whole number of units that the size of a finite double counts. -/
def significand (x : Double) : Nat :=
  if x.exponent = 0 then x.fraction else x.fraction + Nat.pow 2 52

/-- A finite double counts units of `2 ^ (x.scale - 1075)`. -/
def scale (x : Double) : Nat :=
  max x.exponent 1

end Double

end TypedL5
