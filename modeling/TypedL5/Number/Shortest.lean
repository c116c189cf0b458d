import TypedL5.Number.Double

/-!
The shortest decimal that reads back as a given double.

A double stands for every real number that rounds to it. Of the decimals in that interval the
shortest is wanted, and of two equally short ones the nearer. If some decimal with `n` digits
lies in the interval then so does one of the two neighbours of the double itself among the
decimals with `n` digits, so only these are tried.
-/
namespace TypedL5.Double

/-- A positive rational, by numerator and denominator. -/
structure Ratio where
  num : Nat
  den : Nat

namespace Ratio

/-- The number `n * 2 ^ (e - 1077)`. -/
def ofBinary (n e : Nat) : Ratio :=
  if 1077 ≤ e then ⟨n * Nat.pow 2 (e - 1077), 1⟩ else ⟨n, Nat.pow 2 (1077 - e)⟩

/-- The number `r / 10 ^ k`. -/
def scale (r : Ratio) (k : Int) : Ratio :=
  if 0 ≤ k then ⟨r.num, r.den * Nat.pow 10 k.toNat⟩ else ⟨r.num * Nat.pow 10 (-k).toNat, r.den⟩

def floor (r : Ratio) : Nat :=
  r.num / r.den

/-- Whether `n < r`, or `n ≤ r` where ends are included. -/
def above (r : Ratio) (closed : Bool) (n : Nat) : Bool :=
  if closed then n * r.den ≤ r.num else n * r.den < r.num

/-- Whether `r < n`, or `r ≤ n` where ends are included. -/
def below (r : Ratio) (closed : Bool) (n : Nat) : Bool :=
  if closed then r.num ≤ n * r.den else r.num < n * r.den

/-- The power of ten of the leading digit. No finite double is smaller than `10 ^ (-350)`. -/
def magnitude (r : Ratio) : Int :=
  ((Nat.toDigits 10 (r.scale (-350)).floor).length : Int) - 351

end Ratio

/-- The size of a finite double, in quarters of its unit. -/
def quarters (x : Double) : Nat :=
  4 * x.significand

def size (x : Double) : Ratio :=
  .ofBinary x.quarters x.scale

/-- The lower end of the interval. Just above a power of two the neighbour below is closer by
half. -/
def lower (x : Double) : Ratio :=
  .ofBinary (x.quarters - if x.fraction = 0 ∧ 1 < x.exponent then 1 else 2) x.scale

def upper (x : Double) : Ratio :=
  .ofBinary (x.quarters + 2) x.scale

/-- Whether `n * 10 ^ k` reads back as the double. Ends belong to the double with the even
significand. -/
def readsBack (x : Double) (k : Int) (n : Nat) : Bool :=
  let closed := x.significand % 2 = 0
  (x.lower.scale k).below closed n && (x.upper.scale k).above closed n

/-- The digits nearest to the double among those at the power of ten `k` that read back. An
exact tie goes to the even neighbour. -/
def nearest? (x : Double) (k : Int) : Option Nat :=
  let r := x.size.scale k
  let n := r.floor
  match x.readsBack k n, x.readsBack k (n + 1) with
  | false, false => none
  | true, false => some n
  | false, true => some (n + 1)
  | true, true =>
    let twice := 2 * (r.num % r.den)
    if twice < r.den ∨ twice = r.den ∧ n % 2 = 0 then some n else some (n + 1)

/-- The fewest digits that read back as a positive finite double, with the power of ten of the
last one. -/
def shortest (x : Double) : Nat × Int :=
  let top := x.size.magnitude
  let tries := (List.range 17).filterMap fun (i : Nat) =>
    (x.nearest? (top - i)).map fun n => (n, top - i)
  tries.headD (x.size.scale (top - 16) |>.floor, top - 16)

end TypedL5.Double
