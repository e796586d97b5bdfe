import LayerGraph.Binary64

namespace LayerGraph

/-- The number `digits * 10 ^ exponent`. -/
structure Decimal where
  digits : Nat
  exponent : Int
  deriving DecidableEq

inductive Tie where
  | even
  | up
  deriving DecidableEq

namespace Decimal

def digitCount (n : Nat) : Nat := (Nat.toDigits 10 n).length

/-- The power of ten of the leading digit of `num / den`. -/
def leadingPlace (num den : Nat) : Int :=
  if den ≤ num then Int.ofNat (digitCount (num / den)) - 1
  else - Int.ofNat (digitCount ((den + num - 1) / num - 1))

def trim : Nat → Decimal → Decimal
  | 0, d => d
  | limit + 1, d =>
    if d.digits % 10 = 0 && d.digits != 0 then trim limit ⟨d.digits / 10, d.exponent + 1⟩ else d

/--
The multiple of `10 ^ place` nearest to `b` among those that round to `b`: the reals between the
midpoints to the neighbouring doubles do, and the midpoints themselves when the significand is even.
-/
def onGrid (tie : Tie) (b : Binary64) (place : Int) : Option Nat :=
  let up := 2 ^ (b.exponent - 2).toNat * 10 ^ (-place).toNat
  let unit := 2 ^ (2 - b.exponent).toNat * 10 ^ place.toNat
  let value := 4 * b.significand * up
  let high := value + 2 * up
  let low := value - (if b.significand = 2 ^ 52 && b.exponent != -1074 then 1 else 2) * up
  let inside (c : Nat) : Bool :=
    if b.significand % 2 = 0 then low ≤ c * unit && c * unit ≤ high
    else low < c * unit && c * unit < high
  let below := value / unit
  let above := below + 1
  match inside below, inside above with
  | false, false => none
  | true, false => some below
  | false, true => some above
  | true, true =>
    if value - below * unit < above * unit - value then some below
    else if above * unit - value < value - below * unit then some above
    else match tie with
      | .up => some above
      | .even => if below % 2 = 0 then some below else some above

/-- The shortest decimal that reads back as `b`, and of those the nearest. -/
def shortest (tie : Tie) (b : Binary64) : Decimal :=
  if b.significand = 0 then ⟨0, 0⟩
  else
    let lead := leadingPlace (b.significand * 2 ^ b.exponent.toNat) (2 ^ (-b.exponent).toNat)
    let found := (List.range 17).findSome? fun (k : Nat) =>
      (onGrid tie b (lead - k)).map (Decimal.mk · (lead - k))
    trim 17 (found.getD ⟨0, 0⟩)

def place (d : Decimal) : Int := d.exponent + Int.ofNat (digitCount d.digits) - 1

end Decimal

structure NumberLayout where
  tie : Tie
  /-- Whether a number whose leading digit has this power of ten is written without an exponent. -/
  positional : Int → Bool
  wholeMark : List Char
  notANumber : List Char
  infinity : List Char

namespace NumberLayout

def zeros (n : Nat) : List Char := List.replicate n '0'

def positionalChars (l : NumberLayout) (d : Decimal) : List Char :=
  let ds := Nat.toDigits 10 d.digits
  if 0 ≤ d.exponent then ds ++ zeros d.exponent.toNat ++ l.wholeMark
  else
    let places := (-d.exponent).toNat
    let ds := zeros (places + 1 - ds.length) ++ ds
    ds.take (ds.length - places) ++ '.' :: ds.drop (ds.length - places)

def scientificChars (d : Decimal) : List Char :=
  let mantissa := match Nat.toDigits 10 d.digits with
    | [] => []
    | [c] => [c]
    | c :: cs => c :: '.' :: cs
  mantissa ++ 'e' :: (if d.place < 0 then '-' else '+') :: Nat.toDigits 10 d.place.natAbs

def chars (l : NumberLayout) (x : Float) : List Char :=
  match Binary64.ofFloat? x with
  | none => if x.isNaN then l.notANumber else if x < 0 then '-' :: l.infinity else l.infinity
  | some b =>
    let d := Decimal.shortest l.tie b
    (if b.negative then ['-'] else []) ++
      if l.positional d.place then l.positionalChars d else scientificChars d

end NumberLayout

end LayerGraph
