namespace LayerGraph

def digitsValue? (cs : List Char) : Option Nat :=
  if !cs.isEmpty && cs.all Char.isDigit then
    some (cs.foldl (fun n c => n * 10 + (c.toNat - '0'.toNat)) 0)
  else none

/-- A number below `bound`; a plus sign may stand before it. -/
def natBelow? (bound : Nat) (cs : List Char) : Option Nat := do
  let n ← digitsValue? (match cs with
    | '+' :: r => r
    | r => r)
  if n < bound then some n else none

/-- An integer of 64 bits; either sign may stand before it. -/
def int64? (cs : List Char) : Option Int := do
  let n : Int ← match cs with
    | '-' :: r => (digitsValue? r).map fun n => -Int.ofNat n
    | '+' :: r => (digitsValue? r).map Int.ofNat
    | r => (digitsValue? r).map Int.ofNat
  if -2 ^ 63 ≤ n && n < 2 ^ 63 then some n else none

end LayerGraph
