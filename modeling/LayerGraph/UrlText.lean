import LayerGraph.JsonReader

namespace LayerGraph

namespace Utf8

/-- For the first byte of a character of several: how many follow, the range of the next, its own bits. -/
def lead? (b : UInt8) : Option (Nat × UInt8 × UInt8 × Nat) :=
  let n := b.toNat
  if 0xc2 ≤ n && n ≤ 0xdf then some (1, 0x80, 0xbf, n - 0xc0)
  else if n = 0xe0 then some (2, 0xa0, 0xbf, 0)
  else if n = 0xed then some (2, 0x80, 0x9f, 0xd)
  else if 0xe1 ≤ n && n ≤ 0xef then some (2, 0x80, 0xbf, n - 0xe0)
  else if n = 0xf0 then some (3, 0x90, 0xbf, 0)
  else if 0xf1 ≤ n && n ≤ 0xf3 then some (3, 0x80, 0xbf, n - 0xf0)
  else if n = 0xf4 then some (3, 0x80, 0x8f, 4)
  else none

/-- The number of a character with `count` bytes to come, and the bytes from the first that does not fit. -/
def follow : (count : Nat) → (low high : UInt8) → (bits : Nat) → List UInt8 → Option Nat × List UInt8
  | 0, _, _, bits, bs => (some bits, bs)
  | _ + 1, _, _, _, [] => (none, [])
  | count + 1, low, high, bits, b :: bs =>
    if low ≤ b && b ≤ high then follow count 0x80 0xbf (bits * 64 + b.toNat % 64) bs
    else (none, b :: bs)

theorem length_follow (count : Nat) (low high : UInt8) (bits : Nat) (bs : List UInt8) :
    (follow count low high bits bs).2.length ≤ bs.length := by
  induction count generalizing low high bits bs with
  | zero => simp [follow]
  | succ count ih =>
    cases bs with
    | nil => simp [follow]
    | cons b bs =>
      simp only [follow]
      split
      · exact Nat.le_succ_of_le (ih ..)
      · simp

/-- Decodes bytes; what is not a character becomes a replacement character. -/
def lossy : List UInt8 → List Char
  | [] => []
  | b :: bs =>
    if b < 0x80 then Char.ofNat b.toNat :: lossy bs
    else match lead? b with
      | none => '\ufffd' :: lossy bs
      | some (count, low, high, bits) =>
        let r := follow count low high bits bs
        (r.1.map Char.ofNat).getD '\ufffd' :: lossy r.2
termination_by bs => bs.length
decreasing_by
  · simp
  · simp
  · have := length_follow count low high bits bs
    simp only [List.length_cons]
    omega

end Utf8

/-- The bytes of a text where `%` and two hexadecimal digits stand for a byte. -/
def percentBytes : List Char → List UInt8
  | [] => []
  | '%' :: a :: b :: cs =>
    match Document.hexDigit? a, Document.hexDigit? b with
    | some x, some y => (x * 16 + y).toUInt8 :: percentBytes cs
    | _, _ => 37 :: percentBytes (a :: b :: cs)
  | c :: cs => String.utf8EncodeChar c ++ percentBytes cs

def percentDecode? (s : String) : Option String :=
  String.fromUTF8? ⟨(percentBytes s.toList).toArray⟩

def splitOnChar (c : Char) (cs : List Char) : List (List Char) :=
  cs.foldr (fun d parts => match d == c, parts with
    | true, parts => [] :: parts
    | false, [] => [[d]]
    | false, part :: parts => (d :: part) :: parts) [[]]

/-- A plus sign stands for a space. -/
def formDecode (cs : List Char) : String :=
  String.ofList (Utf8.lossy (percentBytes (cs.map fun c => if c = '+' then ' ' else c)))

def queryFields (query : String) : List (String × String) :=
  ((splitOnChar '&' query.toList).filter (!·.isEmpty)).map fun field =>
    (formDecode (field.takeWhile (· ≠ '=')), formDecode ((field.dropWhile (· ≠ '=')).drop 1))

end LayerGraph
