/-!
# Decimal text of floating point numbers

A finite floating point number is written with the fewest decimal digits that read back as the same
number; of those decimals the nearest is taken.

The value `m * 2 ^ q` is compared exactly: decimals are fractions of natural numbers, and so are the
ends of the interval of reals that round to the value. The decimals with `n` digits form a grid, and
if any point of the grid lies in the interval then one of the two neighbours of the value does, so
only these two are tested.
-/

namespace TensorDiagram.Decimal

/-- A decimal number `digits * 10 ^ exponent`. -/
structure Numeral where
  /-- The significant digits, as one number. -/
  digits : Nat
  /-- The power of ten of the last digit. -/
  exponent : Int
deriving DecidableEq, Repr

/-- A positive binary number `significand * 2 ^ exponent`, with the reals that round to it. -/
structure Binary where
  /-- The significand. -/
  significand : Nat
  /-- The power of two of the last digit. -/
  exponent : Int
  /-- Whether the next smaller number is only half as far away as the next larger one. -/
  narrowBelow : Bool
deriving DecidableEq, Repr

/-- A non-negative fraction, as numerator and denominator. -/
abbrev Fraction := Nat × Nat

/-- The fraction `n * 2 ^ e`. -/
def scaledByTwo (n : Nat) (e : Int) : Fraction :=
  (n * Nat.pow 2 e.toNat, Nat.pow 2 (-e).toNat)

/-- The fraction `n * 10 ^ e`. -/
def scaledByTen (n : Nat) (e : Int) : Fraction :=
  (n * Nat.pow 10 e.toNat, Nat.pow 10 (-e).toNat)

/-- Whether a fraction is less than another. -/
def Fraction.lt (a b : Fraction) : Bool :=
  a.1 * b.2 < b.1 * a.2

/-- Whether a fraction is at most another. -/
def Fraction.le (a b : Fraction) : Bool :=
  a.1 * b.2 ≤ b.1 * a.2

namespace Binary

/-- The value of the number. -/
def value (b : Binary) : Fraction :=
  scaledByTwo (4 * b.significand) (b.exponent - 2)

/-- The lower end of the reals that round to the number. -/
def lower (b : Binary) : Fraction :=
  scaledByTwo (4 * b.significand - if b.narrowBelow then 1 else 2) (b.exponent - 2)

/-- The upper end of the reals that round to the number. -/
def upper (b : Binary) : Fraction :=
  scaledByTwo (4 * b.significand + 2) (b.exponent - 2)

/-- Whether a real rounds to the number. The ends do if the significand is even. -/
def covers (b : Binary) (x : Fraction) : Bool :=
  if b.significand % 2 = 0 then b.lower.le x && x.le b.upper
  else b.lower.lt x && x.lt b.upper

end Binary

/-- The number of decimal digits of a natural number, at least one. -/
def digitCount (n : Nat) : Nat :=
  (Nat.toDigits 10 n).length

/-- The power of ten of the first digit of a positive fraction. -/
def magnitude (x : Fraction) : Int :=
  if x.2 ≤ x.1 then digitCount (x.1 / x.2) - 1
  else
    let d := digitCount (x.2 / x.1)
    if x.2 ≤ x.1 * Nat.pow 10 (d - 1) then -((d : Int) - 1) else -(d : Int)

/-- The decimal of the grid `10 ^ e` that rounds to the number, if there is one. Of two the nearer
is taken, and at equal distance the even one. -/
def gridDecimal? (b : Binary) (e : Int) : Option Numeral :=
  let unit := scaledByTen 1 e
  let below := (b.value.1 * unit.2) / (b.value.2 * unit.1)
  let above := below + 1
  match b.covers (scaledByTen below e), b.covers (scaledByTen above e) with
  | false, false => none
  | true, false => some ⟨below, e⟩
  | false, true => some ⟨above, e⟩
  | true, true =>
    let twice := 2 * b.value.1 * unit.2
    let middle := (2 * below + 1) * (b.value.2 * unit.1)
    if twice < middle then some ⟨below, e⟩
    else if middle < twice then some ⟨above, e⟩
    else some ⟨if below % 2 = 0 then below else above, e⟩

/-- The decimal with the fewest digits, from `n` upwards, that rounds to the number. Seventeen
digits are always enough, so `fuel` grids are tried at most. -/
def shortestFrom (b : Binary) (first : Int) : (fuel n : Nat) → Numeral
  | 0, _ => ⟨0, 0⟩
  | fuel + 1, n =>
    match gridDecimal? b (first + 1 - n) with
    | some d => d
    | none => shortestFrom b first fuel (n + 1)

/-- The decimal without a zero as its last digit. The upper neighbour of a value may have one more
digit than the value, and then it ends with a zero. -/
def Numeral.withoutLastZero (d : Numeral) : Numeral :=
  if d.digits % 10 = 0 then ⟨d.digits / 10, d.exponent + 1⟩ else d

/-- The shortest decimal that rounds to a positive binary number. -/
def shortest (b : Binary) : Numeral :=
  (shortestFrom b (magnitude b.value) 17 1).withoutLastZero

/-- The parts of a floating point number. -/
inductive FloatParts where
  | nan
  | infinity (negative : Bool)
  | zero (negative : Bool)
  | finite (negative : Bool) (value : Binary)

/-- The parts of a floating point number, read off its bits. -/
def floatParts (x : Float) : FloatParts :=
  let bits : Nat := x.toBits.toNat
  let negative : Bool := bits / Nat.pow 2 63 = 1
  let exponent : Nat := bits / Nat.pow 2 52 % Nat.pow 2 11
  let fraction : Nat := bits % Nat.pow 2 52
  if exponent = 2047 then if fraction = 0 then .infinity negative else .nan
  else if exponent = 0 then
    if fraction = 0 then .zero negative else .finite negative ⟨fraction, -1074, false⟩
  else
    .finite negative
      ⟨Nat.pow 2 52 + fraction, (exponent : Int) - 1075, fraction = 0 && exponent ≠ 1⟩

/-- How decimals are laid out. -/
structure Layout where
  /-- The least power of ten of the first digit that is written without an exponent. -/
  leastPositional : Int
  /-- The least power of ten of the first digit above those written without an exponent. -/
  endPositional : Int
  /-- Whether a whole number keeps a point and a zero. -/
  wholeWithPoint : Bool

/-- A run of `n` zeros. -/
def zeros (n : Nat) : List Char :=
  List.replicate n '0'

/-- A power of ten behind its mark, with a sign and at least two digits. -/
def exponentText (e : Int) : List Char :=
  let digits := Nat.toDigits 10 e.natAbs
  'e' :: (if e < 0 then '-' else '+') :: (if digits.length < 2 then '0' :: digits else digits)

/-- The text of a decimal. -/
def layOut (layout : Layout) (d : Numeral) : List Char :=
  let digits := Nat.toDigits 10 d.digits
  let first := d.exponent + (digits.length : Int) - 1
  if layout.leastPositional ≤ first ∧ first < layout.endPositional then
    if 0 ≤ d.exponent then
      digits ++ zeros d.exponent.toNat ++ if layout.wholeWithPoint then ['.', '0'] else []
    else if 0 ≤ first then
      digits.take (first.toNat + 1) ++ '.' :: digits.drop (first.toNat + 1)
    else '0' :: '.' :: (zeros ((-first).toNat - 1) ++ digits)
  else
    match digits with
    | [digit] => digit :: exponentText first
    | digit :: rest => digit :: '.' :: (rest ++ exponentText first)
    | [] => []

/-- A text behind a minus sign, if it is negative. -/
def signed (negative : Bool) (text : List Char) : String :=
  String.ofList (if negative then '-' :: text else text)

/-- The text of a floating point number. -/
def floatText (layout : Layout) (x : Float) : String :=
  match floatParts x with
  | .nan => "nan"
  | .infinity negative => signed negative ['i', 'n', 'f']
  | .zero negative => signed negative (layOut layout ⟨0, 0⟩)
  | .finite negative value => signed negative (layOut layout (shortest value))

/-! ## Reading -/

/-- The number that a run of digits stands for, if there is at least one and nothing else. -/
def digitsValue? (cs : List Char) : Option Nat :=
  if cs.isEmpty || !cs.all Char.isDigit then none
  else some (cs.foldl (fun n c => 10 * n + (c.toNat - '0'.toNat)) 0)

/-- An integer with an optional sign. -/
def integerValue? : List Char → Option Int
  | '-' :: cs => (digitsValue? cs).map fun n => -(n : Int)
  | '+' :: cs => (digitsValue? cs).map Int.ofNat
  | cs => (digitsValue? cs).map Int.ofNat

/-- The floating point number nearest to `n * 10 ^ e`. -/
def nearest (n : Nat) (e : Int) : Float :=
  Float.ofScientific n (e < 0) e.natAbs

/-- The number that an unsigned decimal text stands for. -/
def unsignedValue? (cs : List Char) : Option Float :=
  if cs = ['i', 'n', 'f'] then some (1.0 / 0.0)
  else if cs = ['n', 'a', 'n'] then some (0.0 / 0.0)
  else do
    let mantissa := cs.takeWhile fun c => c ≠ 'e' ∧ c ≠ 'E'
    let e ← match cs.drop mantissa.length with
      | [] => some 0
      | _ :: exponent => integerValue? exponent
    let whole := mantissa.takeWhile (· ≠ '.')
    let places := (mantissa.drop whole.length).drop 1
    let n ← digitsValue? (whole ++ places)
    some (nearest n (e - places.length))

/-- The number that a decimal text stands for. -/
def floatOfText? (text : String) : Option Float :=
  match text.toList with
  | '-' :: cs => (unsignedValue? cs).map Float.neg
  | cs => unsignedValue? cs

end TensorDiagram.Decimal
