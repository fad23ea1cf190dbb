namespace TaskFlow

-- The decimal `digits * 10 ^ exponent`.
structure Decimal where
  digits : Nat
  exponent : Int

namespace Decimal

-- The positive number `significand * 2 ^ exponent`.
structure Binary where
  significand : Nat
  exponent : Int

namespace Binary

def ofFloat (x : Float) : Binary :=
  let bits := x.toBits.toNat
  let fraction : Nat := bits % Nat.pow 2 52
  let exponent : Nat := bits / Nat.pow 2 52 % Nat.pow 2 11
  if exponent = 0 then ⟨fraction, -1074⟩
  else ⟨Nat.pow 2 52 + fraction, (exponent : Int) - 1075⟩

-- Whether the next smaller number is only half as far away as the next greater one.
def hasCloserLower (b : Binary) : Bool :=
  b.significand == Nat.pow 2 52 && b.exponent != -1074

-- The natural number `n * base ^ exponent`, and the denominator it leaves when the exponent is
-- negative.
def scaled (n base : Nat) (exponent : Int) : Nat × Nat :=
  if exponent < 0 then (n, base.pow (-exponent).toNat) else (n * base.pow exponent.toNat, 1)

-- Whether the decimal rounds to the number. Both ends of the interval of such decimals belong to it
-- if the significand is even. Distances are counted in quarters of the last binary place.
def roundsFrom (b : Binary) (d : Decimal) : Bool :=
  let (num, den) := scaled d.digits 10 d.exponent
  let (unit, unitDen) := scaled 1 2 (b.exponent - 2)
  let here := num * unitDen
  let low := (4 * b.significand - (if b.hasCloserLower then 1 else 2)) * unit * den
  let high := (4 * b.significand + 2) * unit * den
  if b.significand % 2 = 0 then low ≤ here && here ≤ high else low < here && here < high

-- The exponent `k` with `10 ^ (k - 1) ≤ b < 10 ^ k`.
def magnitude (b : Binary) : Int :=
  let (num, den) := scaled b.significand 2 b.exponent
  (Nat.toDigits 10 (num * Nat.pow 10 340 / den)).length - 340

-- The nearest decimal of at most `count` digits that rounds to the number, if there is one. Of two
-- that are equally near the even one is chosen.
def withDigits? (b : Binary) (count : Nat) : Option Decimal :=
  let place := b.magnitude - count
  let (num, den) := scaled b.significand 2 b.exponent
  let (grid, gridDen) := scaled 1 10 place
  let top := num * gridDen
  let bottom := den * grid
  let below := top / bottom
  let twice := 2 * (top % bottom)
  let nearest := if twice < bottom || (twice == bottom && below % 2 == 0) then below else below + 1
  let other := if nearest = below then below + 1 else below
  [nearest, other].map (⟨·, place⟩) |>.find? b.roundsFrom

-- Of all decimals that round to the number it has the fewest digits, and of those it is the
-- nearest. Seventeen digits always suffice.
def shortest (b : Binary) : Decimal :=
  ((List.range 17).findSome? (b.withDigits? <| · + 1)).getD ⟨0, 0⟩

end Binary

-- How a decimal is laid out: positionally from `10 ^ low` up to below `10 ^ high`, otherwise with
-- an exponent of at least `exponentDigits` digits.
structure Layout where
  low : Int
  high : Int
  exponentDigits : Nat

namespace Layout

def zeros (n : Nat) : String :=
  String.ofList (List.replicate n '0')

def exponentText (l : Layout) (e : Int) : String :=
  let digits := toString e.natAbs
  (if e < 0 then "-" else "+") ++ zeros (l.exponentDigits - digits.length) ++ digits

def significant (digits : Nat) : List Char :=
  ((Nat.toDigits 10 digits).reverse.dropWhile (· == '0')).reverse

-- Positional notation always shows a decimal point.
def text (l : Layout) (d : Decimal) : String :=
  let digits := significant d.digits
  let point : Int := (Nat.toDigits 10 d.digits).length + d.exponent
  if l.low < point && point ≤ l.high then
    if point ≤ 0 then "0." ++ zeros (-point).toNat ++ String.ofList digits
    else if digits.length ≤ point.toNat then
      String.ofList digits ++ zeros (point.toNat - digits.length) ++ ".0"
    else String.ofList (digits.take point.toNat) ++ "." ++ String.ofList (digits.drop point.toNat)
  else
    String.ofList (digits.take 1)
      ++ (if digits.length ≤ 1 then "" else "." ++ String.ofList (digits.drop 1))
      ++ "e" ++ l.exponentText (point - 1)

end Layout

def layout : Layout :=
  ⟨-4, 16, 2⟩

def floatText (x : Float) : String :=
  if x.isNaN then "nan"
  else
    let sign := if x.toBits.toNat / Nat.pow 2 63 = 1 then "-" else ""
    let body :=
      if x.isInf then "inf"
      else if x == 0 then "0.0"
      else layout.text (Binary.ofFloat x).shortest
    sign ++ body

end Decimal

end TaskFlow
