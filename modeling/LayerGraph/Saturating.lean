namespace LayerGraph

/-- The largest 32-bit number that is at most `n`. -/
def saturate (n : Nat) : UInt32 := UInt32.ofNat (min n (2 ^ 32 - 1))

theorem toNat_saturate (n : Nat) : (saturate n).toNat = min n (2 ^ 32 - 1) := by
  simp only [saturate, UInt32.toNat_ofNat']
  omega

def satMul (m n : UInt32) : UInt32 := saturate (m.toNat * n.toNat)

end LayerGraph
