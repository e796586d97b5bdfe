namespace LayerGraph.Blake3

abbrev Words (n : Nat) := Vector UInt32 n

def initial : Words 8 :=
  #v[0x6a09e667, 0xbb67ae85, 0x3c6ef372, 0xa54ff53a, 0x510e527f, 0x9b05688c, 0x1f83d9ab, 0x5be0cd19]

def rotateRight (w n : UInt32) : UInt32 := w >>> n ||| w <<< (32 - n)

def mix (s : Words 16) (a b c d : Fin 16) (x y : UInt32) : Words 16 :=
  let s := s.set a (s[a] + s[b] + x)
  let s := s.set d (rotateRight (s[d] ^^^ s[a]) 16)
  let s := s.set c (s[c] + s[d])
  let s := s.set b (rotateRight (s[b] ^^^ s[c]) 12)
  let s := s.set a (s[a] + s[b] + y)
  let s := s.set d (rotateRight (s[d] ^^^ s[a]) 8)
  let s := s.set c (s[c] + s[d])
  s.set b (rotateRight (s[b] ^^^ s[c]) 7)

/-- Mixes the columns of the state, then its diagonals. -/
def round (s m : Words 16) : Words 16 :=
  let s := mix s 0 4 8 12 m[0] m[1]
  let s := mix s 1 5 9 13 m[2] m[3]
  let s := mix s 2 6 10 14 m[4] m[5]
  let s := mix s 3 7 11 15 m[6] m[7]
  let s := mix s 0 5 10 15 m[8] m[9]
  let s := mix s 1 6 11 12 m[10] m[11]
  let s := mix s 2 7 8 13 m[12] m[13]
  mix s 3 4 9 14 m[14] m[15]

def permute (m : Words 16) : Words 16 :=
  #v[m[2], m[6], m[3], m[10], m[7], m[0], m[4], m[13], m[1], m[11], m[12], m[5], m[9], m[14], m[15],
     m[8]]

def rounds : Nat → Words 16 → Words 16 → Words 16
  | 0, s, _ => s
  | n + 1, s, m => rounds n (round s m) (permute m)

/-- What is left to be compressed of a chunk or of a pair of subtrees. -/
structure Output where
  chaining : Words 8
  block : Words 16
  counter : UInt64
  length : UInt32
  flags : UInt32

namespace Output

def value (o : Output) : Words 8 :=
  let h := o.chaining
  let s := rounds 7
    #v[h[0], h[1], h[2], h[3], h[4], h[5], h[6], h[7], initial[0], initial[1], initial[2], initial[3],
       o.counter.toUInt32, (o.counter >>> 32).toUInt32, o.length, o.flags]
    o.block
  #v[s[0] ^^^ s[8], s[1] ^^^ s[9], s[2] ^^^ s[10], s[3] ^^^ s[11], s[4] ^^^ s[12], s[5] ^^^ s[13],
     s[6] ^^^ s[14], s[7] ^^^ s[15]]

end Output

def chunkStart : UInt32 := 1
def chunkEnd : UInt32 := 2
def parent : UInt32 := 4
def root : UInt32 := 8

def blockSize : Nat := 64
def chunkSize : Nat := 1024

/-- The little-endian words of a block, filled up with zeros. -/
def blockWords (bytes : List UInt8) : Words 16 :=
  let a := bytes.toArray
  Vector.ofFn fun i : Fin 16 =>
    let byte (j : Nat) : UInt32 := (a[4 * i.val + j]?.getD 0).toUInt32
    byte 0 ||| byte 1 <<< 8 ||| byte 2 <<< 16 ||| byte 3 <<< 24

/-- The bytes of a chunk: every block but the last is compressed. -/
def chunk (counter : UInt64) (chaining : Words 8) (flags : UInt32) (bytes : List UInt8) : Output :=
  if blockSize < bytes.length then
    let o : Output := ⟨chaining, blockWords (bytes.take blockSize), counter, 64, flags⟩
    chunk counter o.value 0 (bytes.drop blockSize)
  else ⟨chaining, blockWords bytes, counter, bytes.length.toUInt32, flags ||| chunkEnd⟩
termination_by bytes.length
decreasing_by
  simp only [List.length_drop, blockSize] at *
  omega

def join (left right : Words 8) : Output := ⟨initial, left ++ right, 0, 64, parent⟩

/-- The left subtree of `n` bytes holds the greatest power of two of chunks that leaves some. -/
def leftLength (n : Nat) : Nat := chunkSize * 2 ^ ((n - 1) / chunkSize).log2

theorem leftLength_lt {n : Nat} (h : chunkSize < n) : leftLength n < n := by
  simp only [leftLength, chunkSize] at *
  have := Nat.log2_self_le (n := (n - 1) / 1024) (by omega)
  omega

theorem leftLength_pos (n : Nat) : 0 < leftLength n := by
  have := Nat.two_pow_pos ((n - 1) / chunkSize).log2
  simp only [leftLength, chunkSize] at *
  omega

/-- The tree over bytes whose first chunk has the number `counter`. -/
def tree (counter : Nat) (bytes : List UInt8) : Output :=
  if chunkSize < bytes.length then
    let left := leftLength bytes.length
    join (tree counter (bytes.take left)).value
      (tree (counter + left / chunkSize) (bytes.drop left)).value
  else chunk counter.toUInt64 initial chunkStart bytes
termination_by bytes.length
decreasing_by
  · have := leftLength_lt ‹_›
    simp only [List.length_take]
    omega
  · have := leftLength_pos bytes.length
    simp only [List.length_drop]
    omega

def wordBytes (w : UInt32) : List UInt8 :=
  [w.toUInt8, (w >>> 8).toUInt8, (w >>> 16).toUInt8, (w >>> 24).toUInt8]

def hash (bytes : List UInt8) : List UInt8 :=
  let o := tree 0 bytes
  { o with counter := 0, flags := o.flags ||| root }.value.toList.flatMap wordBytes

end LayerGraph.Blake3
