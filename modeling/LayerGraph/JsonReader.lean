import LayerGraph.Json

namespace LayerGraph

inductive Ending where
  | closed
  /-- A member without a readable key follows; the text is well formed. -/
  | unreadable
  | broken
  deriving DecidableEq

/-- A JSON text as it was read. Members may repeat a key. What cannot be read is marked where it
stands, so that a decoder can tell which fault of a text comes first. -/
inductive Document where
  | null
  | bool (b : Bool)
  | int (n : Int)
  | float (x : Float)
  | string (s : String)
  | array (items : List Document) (ending : Ending)
  | object (members : List (String × Document)) (ending : Ending)
  /-- Well formed, but no value: a number out of range, half a surrogate pair, too deep a nesting. -/
  | unreadable
  | broken
  deriving Inhabited

namespace Document

def isSpace (c : Char) : Bool := c = ' ' || c = '\n' || c = '\t' || c = '\r'

def skipSpace (cs : List Char) : List Char := cs.dropWhile isSpace

/-- The first digits whose number fits 64 bits, and the digits after them. -/
def significand : List Char → Nat → Nat × List Char
  | [], n => (n, [])
  | c :: cs, n =>
    let m := n * 10 + (c.toNat - '0'.toNat)
    if m < 2 ^ 64 then significand cs m else (n, c :: cs)

/-- Divides by a power of ten, in steps of at most 308. -/
def divideByTens (x : Float) (e : Nat) : Float :=
  if e ≤ 308 then x / Float.ofScientific 1 false e
  else if x == 0 then x
  else divideByTens (x / Float.ofScientific 1 false 308) (e - 308)
termination_by e
decreasing_by omega

/-- `n * 10 ^ e`, rounded at each step; nothing when it is out of range. -/
def scale? (n : Nat) (e : Int) : Option Float :=
  let x := n.toUInt64.toFloat
  if e < 0 then some (divideByTens x e.natAbs)
  else if e.natAbs ≤ 308 then
    let y := x * Float.ofScientific 1 false e.natAbs
    if y.isFinite then some y else none
  else if x == 0 then some x else none

/-- The parts of a number token; a fraction or exponent that is there is not empty. -/
structure NumberToken where
  negative : Bool
  whole : List Char
  fraction : List Char
  exponent : Option (Bool × List Char)

def splitSign : List Char → Bool × List Char
  | '-' :: r => (true, r)
  | cs => (false, cs)

def splitFraction? : List Char → Option (List Char × List Char)
  | '.' :: r =>
    let ds := r.takeWhile Char.isDigit
    if ds.isEmpty then none else some (ds, r.dropWhile Char.isDigit)
  | cs => some ([], cs)

def splitExponentSign : List Char → Bool × List Char
  | '-' :: r => (true, r)
  | '+' :: r => (false, r)
  | cs => (false, cs)

def splitExponent? : List Char → Option (Option (Bool × List Char) × List Char)
  | [] => some (none, [])
  | e :: r =>
    if e = 'e' || e = 'E' then
      let (down, r) := splitExponentSign r
      let ds := r.takeWhile Char.isDigit
      if ds.isEmpty then none else some (some (down, ds), r.dropWhile Char.isDigit)
    else some (none, e :: r)

def numberToken? (cs : List Char) : Option (NumberToken × List Char) := do
  let (negative, cs) := splitSign cs
  let whole := cs.takeWhile Char.isDigit
  let cs := cs.dropWhile Char.isDigit
  guard (!whole.isEmpty && (whole.length = 1 || whole.head? != some '0'))
  let (fraction, cs) ← splitFraction? cs
  let (exponent, cs) ← splitExponent? cs
  return (⟨negative, whole, fraction, exponent⟩, cs)

def digitsValue (ds : List Char) : Nat := ds.foldl (fun n c => n * 10 + (c.toNat - '0'.toNat)) 0

namespace NumberToken

/-- The double of a token: the digits that fit 64 bits, scaled by the power of ten that is left. -/
def float? (t : NumberToken) : Option Float :=
  let (n, dropped) := significand t.whole 0
  let (n, ignored) := significand t.fraction n
  let written : Int := match t.exponent with
    | none => 0
    | some (true, ds) => -Int.ofNat (digitsValue ds)
    | some (false, ds) => Int.ofNat (digitsValue ds)
  let e := written + Int.ofNat dropped.length - Int.ofNat (t.fraction.length - ignored.length)
  (scale? n e).map fun x => if t.negative then -x else x

/--
A token without fraction and exponent is an integer when it fits 64 bits, signed if negative.
Minus zero is a decimal.
-/
def value (t : NumberToken) : Document :=
  let n := digitsValue t.whole
  let asFloat := match t.float? with
    | some x => .float x
    | none => .unreadable
  if t.fraction.isEmpty && t.exponent.isNone then
    if t.negative then
      if n = 0 || 2 ^ 63 < n then asFloat else .int (-Int.ofNat n)
    else if n < 2 ^ 64 then .int (Int.ofNat n)
    else asFloat
  else asFloat

end NumberToken

def hexDigit? (c : Char) : Option Nat :=
  if c.isDigit then some (c.toNat - '0'.toNat)
  else if 'a' ≤ c && c ≤ 'f' then some (c.toNat - 'a'.toNat + 10)
  else if 'A' ≤ c && c ≤ 'F' then some (c.toNat - 'A'.toNat + 10)
  else none

def hexUnit? (a b c d : Char) : Option Nat := do
  return ((← hexDigit? a) * 16 + (← hexDigit? b)) * 256 + (← hexDigit? c) * 16 + (← hexDigit? d)

def simpleEscape? (c : Char) : Option Char :=
  if c = '\x22' || c = '\x5c' || c = '/' then some c
  else if c = 'b' then some '\x08'
  else if c = 'f' then some '\x0c'
  else if c = 'n' then some '\n'
  else if c = 'r' then some '\r'
  else if c = 't' then some '\t'
  else none

/--
The rest of a string, after its opening quote: its code points and escaped code units, and the text
behind the closing quote.
-/
def stringTail : List Char → Option (List Nat × List Char)
  | [] => none
  | '\x22' :: r => some ([], r)
  | '\x5c' :: 'u' :: a :: b :: c :: d :: r => do
    let u ← hexUnit? a b c d
    let (us, r) ← stringTail r
    return (u :: us, r)
  | '\x5c' :: e :: r => do
    let c ← simpleEscape? e
    let (us, r) ← stringTail r
    return (c.toNat :: us, r)
  | c :: r => do
    guard (32 ≤ c.toNat && c != '\x5c')
    let (us, r) ← stringTail r
    return (c.toNat :: us, r)

def isHighSurrogate (u : Nat) : Bool := 0xd800 ≤ u && u < 0xdc00

def isLowSurrogate (u : Nat) : Bool := 0xdc00 ≤ u && u < 0xe000

/-- The characters of code units, where surrogates come in pairs. -/
def joinUnits : List Nat → Option (List Char)
  | [] => some []
  | [u] => if isHighSurrogate u || isLowSurrogate u then none else some [Char.ofNat u]
  | u :: v :: us =>
    if isHighSurrogate u then
      if isLowSurrogate v then
        (joinUnits us).map (Char.ofNat ((u - 0xd800) * 0x400 + (v - 0xdc00) + 0x10000) :: ·)
      else none
    else if isLowSurrogate u then none
    else (joinUnits (v :: us)).map (Char.ofNat u :: ·)

def stringRest (cs : List Char) : Option (Option String × List Char) :=
  (stringTail cs).map fun (us, r) => ((joinUnits us).map String.ofList, r)

/-- The text behind a value; nothing when the text breaks off inside the value. -/
abbrev Rest := Option (List Char)

def word (name : String) (d : Document) (cs : List Char) : Document × Rest :=
  if name.toList.isPrefixOf cs then (d, some (cs.drop name.length)) else (.broken, none)

/-- A container nested too deep is passed over. -/
def sealed (depth : Nat) (d : Document) (rest : Rest) : Document × Rest :=
  if depth = 0 && rest.isSome then (.unreadable, rest) else (d, rest)

mutual

/-- Reads a value, inside which containers may nest `depth` deep. -/
def value : (fuel depth : Nat) → List Char → Document × Rest
  | 0, _, _ => (.broken, none)
  | fuel + 1, depth, cs =>
    match skipSpace cs with
    | '[' :: r =>
      match skipSpace r with
      | ']' :: r => sealed depth (.array [] .closed) (some r)
      | r =>
        let (items, ending, rest) := arrayItems fuel (depth - 1) r
        sealed depth (.array items ending) rest
    | '\x7b' :: r =>
      match skipSpace r with
      | '\x7d' :: r => sealed depth (.object [] .closed) (some r)
      | r =>
        let (members, ending, rest) := objectMembers fuel (depth - 1) r
        sealed depth (.object members ending) rest
    | '\x22' :: r =>
      match stringRest r with
      | none => (.broken, none)
      | some (none, r) => (.unreadable, some r)
      | some (some s, r) => (.string s, some r)
    | 'n' :: r => word "null" .null ('n' :: r)
    | 't' :: r => word "true" (.bool true) ('t' :: r)
    | 'f' :: r => word "false" (.bool false) ('f' :: r)
    | r =>
      match numberToken? r with
      | none => (.broken, none)
      | some (t, r) => (t.value, some r)

def arrayItems : (fuel depth : Nat) → List Char → List Document × Ending × Rest
  | 0, _, _ => ([], .broken, none)
  | fuel + 1, depth, cs =>
    match value fuel depth cs with
    | (d, none) => ([d], .broken, none)
    | (d, some r) =>
      match skipSpace r with
      | ',' :: r =>
        let (ds, ending, rest) := arrayItems fuel depth r
        (d :: ds, ending, rest)
      | ']' :: r => ([d], .closed, some r)
      | _ => ([d], .broken, none)

def objectMembers : (fuel depth : Nat) → List Char → List (String × Document) × Ending × Rest
  | 0, _, _ => ([], .broken, none)
  | fuel + 1, depth, cs =>
    match skipSpace cs with
    | '\x22' :: r =>
      match stringRest r with
      | none => ([], .broken, none)
      | some (key, r) =>
        -- a key that cannot be read leaves the rest of the text to be read all the same
        let (d, rest) := match skipSpace r with
          | ':' :: r => value fuel depth r
          | _ => (.broken, none)
        let (ms, ending, rest) : List (String × Document) × Ending × Rest := match rest with
          | none => ([], .broken, none)
          | some r =>
            match skipSpace r with
            | ',' :: r => objectMembers fuel depth r
            | '\x7d' :: r => ([], .closed, some r)
            | _ => ([], .broken, none)
        match key with
        | some s => ((s, d) :: ms, ending, rest)
        | none => ([], if rest.isSome then .unreadable else .broken, rest)
    | _ => ([], .broken, none)

end

def nestingLimit : Nat := 127

structure Reading where
  document : Document
  complete : Bool

def read (text : String) : Reading :=
  let cs := text.toList
  let (d, rest) := value (2 * cs.length + 1) nestingLimit cs
  ⟨d, rest.any fun r => (skipSpace r).isEmpty⟩

end Document

end LayerGraph
