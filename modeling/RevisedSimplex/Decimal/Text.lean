import RevisedSimplex.Decimal.Shortest

/-!
# Decimal texts

Three ways to write a double.  `positional` writes the shortest decimal that reads back, without
an exponent however large or small it is.  `scientific` writes the same digits with an exponent.
`fixed` writes a given number of places of the exact value, a tie going to the even neighbour,
and fills the text up from the left.  Zeros keep their sign in all three.
-/

namespace RevisedSimplex

namespace Decimal

/-- A text of `count` zeros. -/
def zeros (count : Nat) : String :=
  String.ofList (List.replicate count '0')

/-- The text with a minus sign in front of it if the number is negative. -/
def signed (negative : Bool) (text : String) : String :=
  if negative then "-" ++ text else text

/-- The digits of the number before and after a point, without an exponent. -/
def positionalText (number : Decimal) : String :=
  let digits := toString number.digits
  if 0 ≤ number.exponent then digits ++ zeros number.exponent.toNat
  else
    let places := (-number.exponent).toNat
    let padded := zeros (places + 1 - digits.length) ++ digits
    let whole := padded.length - places
    String.ofList (padded.toList.take whole) ++ "." ++ String.ofList (padded.toList.drop whole)

/-- One digit, the other digits after a point if there are any, and an exponent. -/
def scientificText (number : Decimal) : String :=
  let digits := (toString number.digits).toList
  let exponent := number.exponent + (digits.length - 1 : Nat)
  let fraction := match digits.drop 1 with
    | [] => ""
    | rest => "." ++ String.ofList rest
  String.ofList (digits.take 1) ++ fraction ++ "e" ++ toString exponent

/-- The quotient rounded to the nearest natural number, from the middle to the even one. -/
def roundQuotient (numerator denominator : Nat) : Nat :=
  let quotient := numerator / denominator
  let twice := 2 * (numerator % denominator)
  if twice < denominator then quotient
  else if denominator < twice then quotient + 1
  else quotient + quotient % 2

/-- The number `mantissa * 2 ^ exponent` with a given number of places after the point. -/
def fixedText (places mantissa : Nat) (exponent : Int) : String :=
  let unit := Nat.pow 10 places
  let units := roundQuotient (mantissa * unit * powerAbove 2 exponent) (powerBelow 2 exponent)
  let fraction := toString (units % unit)
  toString (units / unit) ++ "." ++ zeros (places - fraction.length) ++ fraction

/-- The text filled up from the left with blanks to a given width. -/
def padLeft (width : Nat) (text : String) : String :=
  String.ofList (List.replicate (width - text.length) ' ') ++ text

/-- Writes a double, given a way to write nonnegative finite numbers. -/
def write (finite : Nat → Int → String) (x : Float) : String :=
  match BinaryNumber.ofFloat x with
  | .undefined => "NaN"
  | .infinite negative => signed negative "inf"
  | .finite negative mantissa exponent => signed negative (finite mantissa exponent)

/-- The shortest text of a double that reads back, without an exponent. -/
def positional : Float → String :=
  write fun mantissa exponent =>
    if mantissa = 0 then "0" else (shortest mantissa exponent).positionalText

/-- The shortest text of a double that reads back, with an exponent. -/
def scientific : Float → String :=
  write fun mantissa exponent =>
    if mantissa = 0 then "0e0" else (shortest mantissa exponent).scientificText

/-- A double with a given number of places after the point, at least `width` characters wide. -/
def fixed (places width : Nat) (x : Float) : String :=
  padLeft width (write (fixedText places) x)

end Decimal

end RevisedSimplex
