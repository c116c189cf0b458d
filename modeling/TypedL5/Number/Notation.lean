import TypedL5.Number.Shortest

/-!
How a double is written: its shortest digits, positionally while the leading digit stands
between the fourth place after the point and the sixteenth before it, and with an exponent of
at least two digits elsewhere.
-/
namespace TypedL5.Double

/-- Digits without the zeros at their end, and how many those were. -/
def dropZeros (digits : List Char) : List Char × Nat :=
  let kept := (digits.reverse.dropWhile (· = '0')).reverse
  (kept, digits.length - kept.length)

/-- Digits with a point after the first `places` of them. Each side of the point has a digit at
least. -/
def positional (digits : List Char) (places : Int) : List Char :=
  if places ≤ 0 then
    '0' :: '.' :: List.replicate (-places).toNat '0' ++ digits
  else
    let n := places.toNat
    let after := digits.drop n
    digits.take n ++ List.replicate (n - digits.length) '0' ++ '.' ::
      (if after.isEmpty then ['0'] else after)

/-- An exponent with its sign, in two digits at least. -/
def exponentText (e : Int) : List Char :=
  let digits := Nat.toDigits 10 e.natAbs
  (if e < 0 then '-' else '+') :: List.replicate (2 - digits.length) '0' ++ digits

def scientific (digits : List Char) (e : Int) : List Char :=
  let mantissa := match digits with
    | [] => []
    | [d] => [d]
    | d :: ds => d :: '.' :: ds
  mantissa ++ 'e' :: exponentText e

/-- The text of the size of a finite double. -/
def sizeText (x : Double) : List Char :=
  if x.significand = 0 then ['0', '.', '0'] else
    let (n, k) := x.shortest
    let all := Nat.toDigits 10 n
    let digits := (dropZeros all).1
    let e : Int := k + all.length - 1
    if -4 ≤ e ∧ e < 16 then positional digits (e + 1) else scientific digits e

/-- The text of a double. -/
def text (x : Double) : String :=
  let sign := if x.negative then ['-'] else []
  if x.exponent = 2047 then
    if x.fraction = 0 then String.ofList (sign ++ ['i', 'n', 'f']) else "nan"
  else String.ofList (sign ++ x.sizeText)

end TypedL5.Double
