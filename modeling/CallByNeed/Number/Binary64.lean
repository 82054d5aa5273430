/-!
# Double-precision numbers

A finite double is a sign, a mantissa below `2 ^ 53` and a power of two.
`ofDecimal` rounds a decimal to the nearest double, a tie to the even
mantissa, and `shortest` finds the fewest digits that round back.
-/

namespace CallByNeed.Number

inductive Binary64 where
  | finite (negative : Bool) (mantissa : Nat) (exponent : Int)
  | infinite (negative : Bool)
  | notANumber
deriving DecidableEq, Repr

/-- A positive fraction scaled by a power of the base. -/
def scaled (base : Nat) (numerator denominator : Nat) (exponent : Int) : Nat × Nat :=
  if exponent < 0 then (numerator, denominator * Nat.pow base exponent.natAbs)
  else (numerator * Nat.pow base exponent.toNat, denominator)

/-- The natural number nearest to a fraction, a tie going to the even one. -/
def roundToEven (numerator denominator : Nat) : Nat :=
  let quotient := numerator / denominator
  let twice := 2 * (numerator % denominator)
  if twice < denominator then quotient
  else if denominator < twice then quotient + 1
  else quotient + quotient % 2

/-- The exponent of the double nearest to a positive fraction: the one that
brings the mantissa to 53 bits, or the least one. -/
def binaryExponent (numerator denominator : Nat) : Int :=
  let guess : Int := (Nat.log2 numerator : Int) - Nat.log2 denominator - 52
  let (scaledNumerator, scaledDenominator) := scaled 2 numerator denominator (-guess)
  let exponent :=
    if scaledNumerator < scaledDenominator * Nat.pow 2 52 then guess - 1 else guess
  max exponent (-1074)

/-- The double nearest to `numerator / denominator`. -/
def Binary64.ofFraction (negative : Bool) (numerator denominator : Nat) : Binary64 :=
  if numerator = 0 then .finite negative 0 0
  else
    let exponent := binaryExponent numerator denominator
    let (scaledNumerator, scaledDenominator) :=
      scaled 2 numerator denominator (-exponent)
    let mantissa := roundToEven scaledNumerator scaledDenominator
    let (mantissa, exponent) :=
      if mantissa = Nat.pow 2 53 then (Nat.pow 2 52, exponent + 1) else (mantissa, exponent)
    if 971 < exponent then .infinite negative
    else if mantissa = 0 then .finite negative 0 0
    else .finite negative mantissa exponent

/-- The double nearest to `digits * 10 ^ exponent`. -/
def Binary64.ofDecimal (negative : Bool) (digits : Nat) (exponent : Int) : Binary64 :=
  let (numerator, denominator) := scaled 10 digits 1 exponent
  .ofFraction negative numerator denominator

/-- The least `n` with `numerator / denominator < 10 ^ n`, looked for from a
lower bound. -/
def decimalPoint (numerator denominator : Nat) : Nat → Int → Int
  | 0, point => point
  | fuel + 1, point =>
    let (bound, unit) := scaled 10 denominator 1 point
    if numerator * unit < bound then point
    else decimalPoint numerator denominator fuel (point + 1)

/-- Of the two neighbours of a fraction with the given number of digits, the
nearer one that rounds to the double, if one does. -/
def candidate? (target : Binary64) (numerator denominator : Nat) (point : Int)
    (count : Nat) : Option (Nat × Int) :=
  let exponent := point - count
  let (scaledNumerator, scaledDenominator) :=
    scaled 10 numerator denominator (-exponent)
  let below := scaledNumerator / scaledDenominator
  let nearest := roundToEven scaledNumerator scaledDenominator
  let other := if nearest = below then below + 1 else below
  let rounds (digits : Nat) := Binary64.ofDecimal false digits exponent == target
  if rounds nearest then some (nearest, exponent)
  else if rounds other then some (other, exponent)
  else none

/-- The shortest decimal that rounds to a positive finite double. -/
def shortest (mantissa : Nat) (exponent : Int) : Nat × Int :=
  let (numerator, denominator) := scaled 2 mantissa 1 exponent
  let point := decimalPoint numerator denominator 700 (-330)
  let target := Binary64.finite false mantissa exponent
  ((List.range' 1 17).findSome? (candidate? target numerator denominator point)).getD
    (0, 0)

/-- The digits of a decimal without the zeros at its end. -/
def significant (digits : Nat) : List Char :=
  ((Nat.toDigits 10 digits).reverse.dropWhile (· = '0')).reverse

/-- A positive decimal `0.digits * 10 ^ point`: positional when the point lies
within 16 digits to the right or 3 zeros to the left, else with an exponent of
at least two digits. -/
def decimalText (digits : List Char) (point : Int) : String :=
  if -4 < point && point ≤ 16 then
    if point ≤ 0 then
      String.ofList (['0', '.'] ++ List.replicate point.natAbs '0' ++ digits)
    else
      let whole := digits.take point.toNat
      let padded := whole ++ List.replicate (point.toNat - whole.length) '0'
      let fraction := digits.drop point.toNat
      String.ofList (padded ++ ['.'] ++ if fraction.isEmpty then ['0'] else fraction)
  else
    let power := point - 1
    let fraction := digits.drop 1
    let body := digits.take 1 ++ if fraction.isEmpty then [] else '.' :: fraction
    let size := Nat.toDigits 10 power.natAbs
    let sign := if power < 0 then '-' else '+'
    String.ofList (body ++ ['e', sign] ++ List.replicate (2 - size.length) '0' ++ size)

def Binary64.text : Binary64 → String
  | .notANumber => "nan"
  | .infinite negative => if negative then "-inf" else "inf"
  | .finite negative mantissa exponent =>
    let sign := if negative then "-" else ""
    if mantissa = 0 then sign ++ "0.0"
    else
      let (digits, power) := shortest mantissa exponent
      let point := power + (Nat.toDigits 10 digits).length
      sign ++ decimalText (significant digits) point

def Binary64.isInt (number : Binary64) (integer : Int) : Bool :=
  match number with
  | .notANumber => false
  | .infinite _ => false
  | .finite negative mantissa exponent =>
    let (numerator, denominator) := scaled 2 mantissa 1 exponent
    let signed : Int := if negative then -numerator else numerator
    signed == integer * denominator

/-- Whether two doubles are the same number; zero has no sign, and what is not
a number is the same as nothing. -/
def Binary64.same : Binary64 → Binary64 → Bool
  | .notANumber, _ => false
  | .finite _ 0 _, .finite _ 0 _ => true
  | left, right => left == right

end CallByNeed.Number
