import TaskFlow.Decimal.Shortest

namespace TaskFlow

-- The nearest floating-point number. Decimals far outside the range of those numbers are infinite
-- or zero without their power of ten being computed.
def Decimal.toFloat (d : Decimal) : Float :=
  let top : Int := (Nat.toDigits 10 d.digits).length + d.exponent
  if d.digits = 0 || top < -400 then 0
  else if 400 < top then 1 / 0
  else Float.ofScientific d.digits (d.exponent < 0) d.exponent.natAbs

end TaskFlow
