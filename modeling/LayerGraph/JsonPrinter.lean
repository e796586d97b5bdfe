import LayerGraph.Decimal
import LayerGraph.Json

namespace LayerGraph

namespace Json

/-- Decimals in JSON keep a fraction, and have an exponent below 0.00001 and from 10^16 on. -/
def numberLayout : NumberLayout where
  tie := .even
  positional place := -5 ≤ place && place ≤ 15
  wholeMark := ['.', '0']
  notANumber := ['n', 'u', 'l', 'l']
  infinity := ['n', 'u', 'l', 'l']

def floatChars (x : Float) : List Char :=
  if x.isFinite then numberLayout.chars x else ['n', 'u', 'l', 'l']

def intChars (n : Int) : List Char :=
  if n < 0 then '-' :: Nat.toDigits 10 n.natAbs else Nat.toDigits 10 n.natAbs

/-- Only the quote, the backslash and the control characters are escaped. -/
def escape (c : Char) : List Char :=
  if c = '\x22' then ['\x5c', '\x22']
  else if c = '\x5c' then ['\x5c', '\x5c']
  else if c = '\x08' then ['\x5c', 'b']
  else if c = '\x09' then ['\x5c', 't']
  else if c = '\x0a' then ['\x5c', 'n']
  else if c = '\x0c' then ['\x5c', 'f']
  else if c = '\x0d' then ['\x5c', 'r']
  else if c.toNat < 32 then
    ['\x5c', 'u', '0', '0', Nat.digitChar (c.toNat / 16), Nat.digitChar (c.toNat % 16)]
  else [c]

def stringChars (s : String) : List Char :=
  '\x22' :: s.toList.flatMap escape ++ ['\x22']

mutual

def chars : Json → List Char
  | .null => ['n', 'u', 'l', 'l']
  | .bool true => ['t', 'r', 'u', 'e']
  | .bool false => ['f', 'a', 'l', 's', 'e']
  | .int n => intChars n
  | .float x => floatChars x
  | .string s => stringChars s
  | .array [] => ['[', ']']
  | .array (x :: xs) => '[' :: (x.chars ++ itemChars xs)
  | .object [] => ['\x7b', '\x7d']
  | .object ((k, v) :: ms) => '\x7b' :: (stringChars k ++ ':' :: (v.chars ++ memberChars ms))

def itemChars : List Json → List Char
  | [] => [']']
  | x :: xs => ',' :: (x.chars ++ itemChars xs)

def memberChars : List (String × Json) → List Char
  | [] => ['\x7d']
  | (k, v) :: ms => ',' :: (stringChars k ++ ':' :: (v.chars ++ memberChars ms))

end

def text (j : Json) : String := String.ofList j.chars

def newline (depth : Nat) : List Char := '\n' :: List.replicate (2 * depth) ' '

mutual

/-- One item or member a line, two spaces deeper at each level. -/
def indentedChars (depth : Nat) : Json → List Char
  | .array [] => ['[', ']']
  | .array (x :: xs) =>
    '[' :: (newline (depth + 1) ++ x.indentedChars (depth + 1) ++ indentedItemChars depth xs)
  | .object [] => ['\x7b', '\x7d']
  | .object ((k, v) :: ms) =>
    '\x7b' :: (newline (depth + 1) ++ stringChars k ++ ':' :: ' ' ::
      (v.indentedChars (depth + 1) ++ indentedMemberChars depth ms))
  | .null => ['n', 'u', 'l', 'l']
  | .bool true => ['t', 'r', 'u', 'e']
  | .bool false => ['f', 'a', 'l', 's', 'e']
  | .int n => intChars n
  | .float x => floatChars x
  | .string s => stringChars s

def indentedItemChars (depth : Nat) : List Json → List Char
  | [] => newline depth ++ [']']
  | x :: xs =>
    ',' :: (newline (depth + 1) ++ x.indentedChars (depth + 1) ++ indentedItemChars depth xs)

def indentedMemberChars (depth : Nat) : List (String × Json) → List Char
  | [] => newline depth ++ ['\x7d']
  | (k, v) :: ms =>
    ',' :: (newline (depth + 1) ++ stringChars k ++ ':' :: ' ' ::
      (v.indentedChars (depth + 1) ++ indentedMemberChars depth ms))

end

def indented (j : Json) : String := String.ofList (j.indentedChars 0)

end Json

end LayerGraph
