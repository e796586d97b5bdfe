import LayerGraph.Decimal

namespace LayerGraph

inductive ParamValue where
  | bool (b : Bool)
  | int (n : UInt64)
  | float (x : Float)
  | text (s : String)
  | names (ns : List String)
  deriving DecidableEq, Inhabited

/-- Decimals in messages never have an exponent. -/
def messageLayout : NumberLayout where
  tie := .up
  positional _ := true
  wholeMark := []
  notANumber := ['N', 'a', 'N']
  infinity := ['i', 'n', 'f']

namespace ParamValue

def ofUInt32 (n : UInt32) : ParamValue := .int n.toUInt64

/-- A whole number of 32 bits; a decimal may be one. -/
def uint32? : ParamValue → Option UInt32
  | .int n => if n.toNat < 2 ^ 32 then some n.toUInt32 else none
  | .float x => do
    let n ← wholeFloat? x
    if n < 2 ^ 32 then some n.toUInt32 else none
  | _ => none

def float? : ParamValue → Option Float
  | .int n => some n.toFloat
  | .float x => some x
  | _ => none

def text? : ParamValue → Option String
  | .text s => some s
  | _ => none

def bool? : ParamValue → Option Bool
  | .bool b => some b
  | _ => none

def names? : ParamValue → Option (List String)
  | .names ns => some ns
  | _ => none

def display : ParamValue → String
  | .bool true => "true"
  | .bool false => "false"
  | .int n => toString n.toNat
  | .float x => String.ofList (messageLayout.chars x)
  | .text s => s!"'{s}'"
  | .names ns => "[" ++ String.intercalate ", " ns ++ "]"

end ParamValue

end LayerGraph
