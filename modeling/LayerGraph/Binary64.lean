namespace LayerGraph

-- powers of numbers are the core library's, also where another library brings its own
attribute [instance (1100), default_instance 20000] instPowNat

/-- A finite double: `significand * 2 ^ exponent`, with a sign that zero has too. -/
structure Binary64 where
  negative : Bool
  significand : Nat
  exponent : Int
  deriving DecidableEq

namespace Binary64

def ofFloat? (x : Float) : Option Binary64 :=
  let bits := x.toBits.toNat
  let field := bits / 2 ^ 52 % 2 ^ 11
  let fraction := bits % 2 ^ 52
  if field = 2047 then none
  else some
    { negative := decide (2 ^ 63 ≤ bits)
      significand := if field = 0 then fraction else 2 ^ 52 + fraction
      exponent := Int.ofNat (max field 1) - 1075 }

def whole? (b : Binary64) : Option Nat :=
  let unit := 2 ^ (-b.exponent).toNat
  if b.significand % unit = 0 then some (b.significand * 2 ^ b.exponent.toNat / unit) else none

end Binary64

/-- The number as a natural number, when it is one; a zero of either sign is. -/
def wholeFloat? (x : Float) : Option Nat := do
  let b ← Binary64.ofFloat? x
  if b.negative && b.significand != 0 then none else b.whole?

end LayerGraph
