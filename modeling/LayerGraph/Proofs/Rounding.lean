import LayerGraph.Decimal
import Mathlib

namespace LayerGraph

namespace Binary64

/-- The exponent is the least one, or the significand has 53 binary digits. -/
structure Canonical (b : Binary64) : Prop where
  significand_lt : b.significand < 2 ^ 53
  exponent_ge : -1074 ≤ b.exponent
  normal : b.exponent ≠ -1074 → 2 ^ 52 ≤ b.significand

/-- How far down the reals reach that round to `b`: at a power of two the double below is nearer. -/
def reachDown (b : Binary64) : Nat :=
  if b.significand = 2 ^ 52 && b.exponent != -1074 then 1 else 2

/-- In quarters of the unit in the last place, midpoints are whole. -/
def quarters (b : Binary64) (q : ℚ) : ℚ := q * 2 ^ (2 - b.exponent)

/-- Between the midpoints to the neighbouring doubles, or at one when the significand is even. -/
def Rounds (b : Binary64) (q : ℚ) : Prop :=
  if b.significand % 2 = 0 then
    4 * b.significand - b.reachDown ≤ b.quarters q ∧ b.quarters q ≤ 4 * b.significand + 2
  else 4 * b.significand - b.reachDown < b.quarters q ∧ b.quarters q < 4 * b.significand + 2

variable {b c : Binary64} {q : ℚ}

theorem reachDown_pos (b : Binary64) : 0 < b.reachDown := by
  unfold reachDown
  split <;> omega

theorem reachDown_le (b : Binary64) : b.reachDown ≤ 2 := by
  unfold reachDown
  split <;> omega

theorem Rounds.low_le (h : b.Rounds q) : 4 * b.significand - b.reachDown ≤ b.quarters q := by
  unfold Rounds at h
  split at h
  · exact h.1
  · exact h.1.le

theorem Rounds.le_high (h : b.Rounds q) : b.quarters q ≤ 4 * b.significand + 2 := by
  unfold Rounds at h
  split at h
  · exact h.2
  · exact h.2.le

theorem Rounds.inside (h : b.Rounds q) (hb : b.significand % 2 = 1) :
    4 * b.significand - b.reachDown < b.quarters q ∧ b.quarters q < 4 * b.significand + 2 := by
  rwa [Rounds, if_neg (by omega)] at h

theorem rounds_of_inside (hlow : 4 * b.significand - b.reachDown < b.quarters q)
    (hhigh : b.quarters q < 4 * b.significand + 2) : b.Rounds q := by
  unfold Rounds
  split
  · exact ⟨hlow.le, hhigh.le⟩
  · exact ⟨hlow, hhigh⟩

/-- Zero rounds to no double but itself. -/
theorem Rounds.ne_zero (h : b.Rounds q) (hb : b.significand ≠ 0) : q ≠ 0 := by
  rintro rfl
  have hlow := h.low_le
  have hpos : (1 : ℚ) ≤ b.significand := by exact_mod_cast Nat.one_le_iff_ne_zero.mpr hb
  have hreach : (b.reachDown : ℚ) ≤ 2 := by exact_mod_cast b.reachDown_le
  rw [quarters, zero_mul] at hlow
  linarith

theorem reachDown_eq_two {m : Nat} (hm : m < b.significand)
    (hmin : b.exponent ≠ -1074 → 2 ^ 52 ≤ m) : b.reachDown = 2 := by
  unfold reachDown
  by_cases he : b.exponent = -1074
  · simp [he]
  · have hne : b.significand ≠ 2 ^ 52 := by
      have := hmin he
      omega
    simp [hne]

/-- With one exponent, the greater significand rounds from above the midpoint. -/
theorem Rounds.significand_le (hb : b.Canonical) (h : b.Rounds q) (h' : c.Rounds q)
    (he : b.exponent = c.exponent) : c.significand ≤ b.significand := by
  by_contra! hlt
  have hreach : c.reachDown = 2 := reachDown_eq_two hlt (he ▸ hb.normal)
  have hsame : c.quarters q = b.quarters q := by rw [quarters, quarters, he]
  have hlow := h'.low_le
  rw [hreach, hsame] at hlow
  have hstep : (b.significand : ℚ) + 1 ≤ c.significand := by exact_mod_cast hlt
  have hhigh := h.le_high
  push_cast at hlow
  -- the real is the midpoint of neighbours, one of which is odd and does not reach it
  have hnext : c.significand = b.significand + 1 := by
    have hle : (c.significand : ℚ) ≤ b.significand + 1 := by linarith
    have hle : c.significand ≤ b.significand + 1 := by exact_mod_cast hle
    omega
  rcases Nat.mod_two_eq_zero_or_one b.significand with heven | hodd
  · have hstrict := (h'.inside (by omega)).1
    rw [hreach, hsame] at hstrict
    push_cast at hstrict
    linarith
  · have hstrict := (h.inside hodd).2
    linarith

/-- From one exponent to the next the real in quarters at least halves. -/
theorem quarters_le_half (hq : 0 ≤ b.quarters q) (he : b.exponent < c.exponent) :
    2 * c.quarters q ≤ b.quarters q := by
  have hshift : c.quarters q = b.quarters q * 2 ^ (b.exponent - c.exponent) := by
    rw [quarters, quarters, mul_assoc, ← zpow_add₀ two_ne_zero]
    congr 2
    ring
  have hle : (2 : ℚ) ^ (b.exponent - c.exponent) ≤ 2 ^ (-1 : ℤ) :=
    zpow_le_zpow_right₀ (by norm_num) (by omega)
  rw [hshift]
  calc 2 * (b.quarters q * 2 ^ (b.exponent - c.exponent))
      ≤ 2 * (b.quarters q * 2 ^ (-1 : ℤ)) := by gcongr
    _ = b.quarters q := by
      rw [zpow_neg_one]
      ring

theorem Rounds.exponent_le (hb : b.Canonical) (hc : c.Canonical) (h : b.Rounds q)
    (h' : c.Rounds q) : c.exponent ≤ b.exponent := by
  by_contra! hlt
  have hnormal : 2 ^ 52 ≤ c.significand := hc.normal (by have := hb.exponent_ge; omega)
  have hlow := h'.low_le
  have hreach : (c.reachDown : ℚ) ≤ 2 := by exact_mod_cast c.reachDown_le
  have hc52 : (2 ^ 52 : ℚ) ≤ c.significand := by exact_mod_cast hnormal
  have hb53 : (b.significand : ℚ) + 1 ≤ 2 ^ 53 := by exact_mod_cast hb.significand_lt
  have hhigh := h.le_high
  have hq : 0 ≤ b.quarters q := by
    have hcq : 0 < c.quarters q := by linarith
    have hpos : 0 < q := by
      unfold quarters at hcq
      exact pos_of_mul_pos_left hcq (zpow_pos two_pos _).le
    exact (mul_pos hpos (zpow_pos two_pos _)).le
  have hhalf := quarters_le_half (c := c) hq hlt
  -- only the greatest significand comes near, and it is odd
  have hpower : c.significand = 2 ^ 52 := by
    by_contra hne
    have hc53 : (2 ^ 52 : ℚ) + 1 ≤ c.significand := by
      exact_mod_cast Nat.lt_of_le_of_ne hnormal (Ne.symm hne)
    linarith
  have hreach : c.reachDown = 1 := by
    have hne : c.exponent ≠ -1074 := by have := hb.exponent_ge; omega
    simp [reachDown, hpower, hne]
  rw [hpower, hreach] at hlow
  push_cast at hlow
  have hlast : b.significand = 2 ^ 53 - 1 := by
    have hge : (2 ^ 53 : ℚ) - 1 ≤ b.significand := by linarith
    have hge : (2 ^ 53 : ℚ) ≤ b.significand + 1 := by linarith
    have hge : 2 ^ 53 ≤ b.significand + 1 := by exact_mod_cast hge
    have hlt := hb.significand_lt
    omega
  have hstrict := (h.inside (by omega)).2
  rw [hlast] at hstrict
  push_cast at hstrict
  norm_num at hstrict hlow
  linarith

/-- A real rounds to one double only, its sign apart. -/
theorem Rounds.unique (hb : b.Canonical) (hc : c.Canonical) (h : b.Rounds q) (h' : c.Rounds q) :
    b.significand = c.significand ∧ b.exponent = c.exponent := by
  have he : b.exponent = c.exponent :=
    le_antisymm (h'.exponent_le hc hb h) (h.exponent_le hb hc h')
  exact ⟨le_antisymm (h'.significand_le hc h he.symm) (h.significand_le hb h' he), he⟩

theorem canonical_of_ofFloat? {x : Float} (h : ofFloat? x = some b) : b.Canonical := by
  unfold ofFloat? at h
  simp only [Option.ite_none_left_eq_some, Option.some.injEq] at h
  obtain ⟨hfinite, rfl⟩ := h
  have hfield := Nat.mod_lt (x.toBits.toNat / 2 ^ 52) (show 0 < 2 ^ 11 by decide)
  have hfraction := Nat.mod_lt x.toBits.toNat (show 0 < 2 ^ 52 by decide)
  constructor
  case significand_lt =>
    simp only
    split <;> omega
  case exponent_ge =>
    simp only [Int.ofNat_eq_natCast]
    omega
  case normal =>
    intro he
    simp only [Int.ofNat_eq_natCast] at he ⊢
    split <;> omega

theorem float_ext {x y : Float} (h : x.toBits = y.toBits) : x = y := by
  obtain ⟨⟨x, hx⟩⟩ := x
  obtain ⟨⟨y, hy⟩⟩ := y
  obtain rfl : x = y := h
  rfl

/-- A finite double is determined by its sign, significand and exponent. -/
theorem ofFloat?_inj {x y : Float} (hx : ofFloat? x = some b) (hy : ofFloat? y = some b) :
    x = y := by
  unfold ofFloat? at hx hy
  simp only [Option.ite_none_left_eq_some, Option.some.injEq] at hx hy
  obtain ⟨-, rfl⟩ := hx
  obtain ⟨-, hy⟩ := hy
  simp only [Binary64.mk.injEq, decide_eq_decide, Int.ofNat_eq_natCast] at hy
  obtain ⟨hsign, hsignificand, hexponent⟩ := hy
  have hx64 := x.toBits.toNat_lt
  have hy64 := y.toBits.toNat_lt
  have hbits : x.toBits.toNat = y.toBits.toNat := by
    have hmax : max (y.toBits.toNat / 2 ^ 52 % 2 ^ 11) 1 =
        max (x.toBits.toNat / 2 ^ 52 % 2 ^ 11) 1 := by omega
    split at hsignificand <;> split at hsignificand <;> omega
  exact float_ext (UInt64.toNat_inj.mp hbits)

end Binary64

namespace Decimal

def value (d : Decimal) : ℚ := d.digits * 10 ^ d.exponent

theorem value_trim (limit : Nat) (d : Decimal) : (trim limit d).value = d.value := by
  induction limit generalizing d with
  | zero => rfl
  | succ limit ih =>
    unfold trim
    split
    · rename_i h
      simp only [Bool.and_eq_true, decide_eq_true_eq] at h
      have hten : ((d.digits / 10 : ℕ) : ℚ) * 10 = d.digits := by
        exact_mod_cast Nat.div_mul_cancel (Nat.dvd_of_mod_eq_zero h.1)
      rw [ih, value, value, zpow_add_one₀ (by norm_num), ← hten]
      ring
    · rfl

section Grid

variable (b : Binary64) (place : Int)

/-- A quarter of the last place, in a unit in which a step of the grid is whole too. -/
def quarter : Nat := 2 ^ (b.exponent - 2).toNat * 10 ^ (-place).toNat

def step : Nat := 2 ^ (2 - b.exponent).toNat * 10 ^ place.toNat

theorem pow_toNat {a : ℚ} (ha : a ≠ 0) (k : Int) : a ^ k.toNat = a ^ (-k).toNat * a ^ k := by
  rw [← zpow_natCast, ← zpow_natCast, ← zpow_add₀ ha]
  congr 1
  omega

theorem quarter_pos : 0 < quarter b place := by
  unfold quarter
  positivity

theorem step_eq : (step b place : ℚ) = quarter b place * b.quarters (10 ^ place) := by
  have htwo := pow_toNat two_ne_zero (2 - b.exponent)
  have hten := pow_toNat (show (10 : ℚ) ≠ 0 by norm_num) place
  rw [Int.neg_sub] at htwo
  unfold step quarter Binary64.quarters
  push_cast
  rw [htwo, hten]
  ring

theorem quarters_mul (c : Nat) :
    b.quarters (c * 10 ^ place) * quarter b place = (c * step b place : ℕ) := by
  push_cast
  rw [step_eq, Binary64.quarters, Binary64.quarters]
  ring

/-- Which multiples of `10 ^ place` round to a double is found in whole numbers. -/
theorem rounds_iff {b : Binary64} (hb : b.significand ≠ 0) (c : Nat) :
    b.Rounds (c * 10 ^ place) ↔
      (if b.significand % 2 = 0 then
        decide (4 * b.significand * quarter b place - b.reachDown * quarter b place ≤
          c * step b place) &&
        decide (c * step b place ≤ 4 * b.significand * quarter b place + 2 * quarter b place)
      else
        decide (4 * b.significand * quarter b place - b.reachDown * quarter b place <
          c * step b place) &&
        decide (c * step b place < 4 * b.significand * quarter b place + 2 * quarter b place)) =
      true := by
  have hpos : (0 : ℚ) < quarter b place := by exact_mod_cast quarter_pos b place
  have hreach := b.reachDown_le
  have hlow : ((4 * b.significand * quarter b place - b.reachDown * quarter b place : ℕ) : ℚ) =
      (4 * b.significand - b.reachDown) * quarter b place := by
    rw [← Nat.sub_mul]
    push_cast [Nat.cast_sub (show b.reachDown ≤ 4 * b.significand by omega)]
    rfl
  have hhigh : ((4 * b.significand * quarter b place + 2 * quarter b place : ℕ) : ℚ) =
      (4 * b.significand + 2) * quarter b place := by
    push_cast
    ring
  unfold Binary64.Rounds
  split
  all_goals
    simp only [Bool.and_eq_true, decide_eq_true_eq, ← Nat.cast_le (α := ℚ), ← Nat.cast_lt (α := ℚ),
      hlow, hhigh, ← quarters_mul b place c]
    simp only [mul_le_mul_iff_of_pos_right hpos, mul_lt_mul_iff_of_pos_right hpos]

theorem onGrid_cases (tie : Tie) {b : Binary64} (hb : b.significand ≠ 0) :
    (onGrid tie b place = none ∧
      ¬ b.Rounds ((4 * b.significand * quarter b place / step b place : ℕ) * 10 ^ place) ∧
      ¬ b.Rounds ((4 * b.significand * quarter b place / step b place + 1 : ℕ) * 10 ^ place)) ∨
    ∃ c : ℕ, onGrid tie b place = some c ∧ b.Rounds (c * 10 ^ place) := by
  have hinside := rounds_iff place hb
  fun_cases onGrid tie b place
  case case1 habove hbelow =>
    refine .inl ⟨rfl, ?_, ?_⟩
    · rw [hinside, Bool.not_eq_true]
      exact hbelow
    · rw [hinside, Bool.not_eq_true]
      exact habove
  case case2 h => exact .inr ⟨_, rfl, (hinside _).mpr h⟩
  case case3 h _ => exact .inr ⟨_, rfl, (hinside _).mpr h⟩
  case case4 h _ => exact .inr ⟨_, rfl, (hinside _).mpr h⟩
  case case5 h _ _ _ => exact .inr ⟨_, rfl, (hinside _).mpr h⟩
  case case6 h _ _ _ => exact .inr ⟨_, rfl, (hinside _).mpr h⟩
  case case7 h _ _ _ => exact .inr ⟨_, rfl, (hinside _).mpr h⟩
  case case8 h _ _ _ _ => exact .inr ⟨_, rfl, (hinside _).mpr h⟩

/-- A grid whose step is short enough has a multiple that rounds to the double. -/
theorem exists_onGrid (tie : Tie) {b : Binary64} (hb : b.significand ≠ 0)
    (hstep : b.quarters (10 ^ place) < b.reachDown + 2) :
    ∃ c, onGrid tie b place = some c := by
  rcases onGrid_cases place tie hb with ⟨-, hbelow, habove⟩ | ⟨c, hc, -⟩
  · exfalso
    have hpos : (0 : ℚ) < quarter b place := by exact_mod_cast quarter_pos b place
    have hspos : 0 < step b place := by
      unfold step
      positivity
    generalize hn : 4 * b.significand * quarter b place / step b place = n at hbelow habove
    have hle : b.quarters (n * 10 ^ place) ≤ 4 * b.significand := by
      rw [← mul_le_mul_iff_of_pos_right hpos, quarters_mul]
      subst hn
      exact_mod_cast Nat.div_mul_le_self _ _
    have hlt : 4 * b.significand < b.quarters ((n + 1 : ℕ) * 10 ^ place) := by
      rw [← mul_lt_mul_iff_of_pos_right hpos, quarters_mul]
      subst hn
      exact_mod_cast Nat.lt_mul_of_div_lt (Nat.lt_succ_self _) hspos
    have hdist : b.quarters ((n + 1 : ℕ) * 10 ^ place) =
        b.quarters (n * 10 ^ place) + b.quarters (10 ^ place) := by
      simp only [Binary64.quarters]
      push_cast
      ring
    have hreach : (0 : ℚ) < b.reachDown := by exact_mod_cast b.reachDown_pos
    have hlow : b.quarters (n * 10 ^ place) ≤ 4 * b.significand - b.reachDown := by
      by_contra! h
      exact hbelow (Binary64.rounds_of_inside h (by linarith))
    have hhigh : 4 * b.significand + 2 ≤ b.quarters ((n + 1 : ℕ) * 10 ^ place) := by
      by_contra! h
      exact habove (Binary64.rounds_of_inside (by linarith) h)
    linarith
  · exact ⟨c, hc⟩

end Grid

theorem lt_pow_digitCount (n : Nat) : n < 10 ^ digitCount n :=
  (Nat.length_toDigits_le_iff (by decide) Nat.length_toDigits_pos).mp le_rfl

theorem pow_digitCount_le {n : Nat} (hn : n ≠ 0) : 10 ^ (digitCount n - 1) ≤ n := by
  by_cases h : digitCount n - 1 = 0
  · rw [h]
    omega
  · by_contra! hlt
    have hle := (Nat.length_toDigits_le_iff (by decide) (Nat.pos_of_ne_zero h)).mpr hlt
    have hpos : 0 < digitCount n := Nat.length_toDigits_pos
    change digitCount n ≤ digitCount n - 1 at hle
    omega

theorem pow_leadingPlace_le {num den : Nat} (hnum : num ≠ 0) (hden : den ≠ 0) :
    (10 : ℚ) ^ leadingPlace num den ≤ num / den := by
  have hdenpos : (0 : ℚ) < den := by exact_mod_cast Nat.pos_of_ne_zero hden
  have hnumpos : (0 : ℚ) < num := by exact_mod_cast Nat.pos_of_ne_zero hnum
  unfold leadingPlace
  split
  · rename_i h
    have hdigits : 0 < digitCount (num / den) := Nat.length_toDigits_pos
    have hle := pow_digitCount_le (Nat.div_pos h (Nat.pos_of_ne_zero hden)).ne'
    have hexp : Int.ofNat (digitCount (num / den)) - 1 = (digitCount (num / den) - 1 : ℕ) := by
      simp only [Int.ofNat_eq_natCast]
      omega
    rw [hexp, zpow_natCast]
    calc (10 : ℚ) ^ (digitCount (num / den) - 1) ≤ (num / den : ℕ) := by exact_mod_cast hle
      _ ≤ num / den := Nat.cast_div_le
  · -- the quotient the other way round, rounded up, is at most a power of ten
    have hceil : den ≤ num * ((den + num - 1) / num) := by
      have h := Nat.lt_mul_div_succ (den + num - 1) (Nat.pos_of_ne_zero hnum)
      rw [mul_add] at h
      omega
    have hpow := lt_pow_digitCount ((den + num - 1) / num - 1)
    generalize digitCount ((den + num - 1) / num - 1) = k at hpow ⊢
    have hle : den ≤ num * 10 ^ k :=
      hceil.trans (Nat.mul_le_mul_left num (by omega))
    simp only [Int.ofNat_eq_natCast]
    rw [zpow_neg, zpow_natCast, inv_le_iff_one_le_mul₀ (by positivity), div_mul_eq_mul_div,
      le_div_iff₀ hdenpos, one_mul]
    exact_mod_cast hle

/-- Seventeen digits make a step short enough. -/
theorem quarters_lt {b : Binary64} (hlt : b.significand < 2 ^ 53) {lead : Int}
    (hlead : (10 : ℚ) ^ lead ≤ b.significand * 2 ^ b.exponent) :
    b.quarters (10 ^ (lead - 16)) < b.reachDown + 2 := by
  have hle : b.quarters (10 ^ (lead - 16)) ≤ 4 * b.significand / 10 ^ 16 := by
    rw [Binary64.quarters, zpow_sub₀ (by norm_num), zpow_sub₀ two_ne_zero]
    calc (10 : ℚ) ^ lead / 10 ^ (16 : ℤ) * (2 ^ (2 : ℤ) / 2 ^ b.exponent)
        ≤ b.significand * 2 ^ b.exponent / 10 ^ (16 : ℤ) * (2 ^ (2 : ℤ) / 2 ^ b.exponent) := by
          gcongr
      _ = 4 * b.significand / 10 ^ 16 := by
        field_simp
        norm_num
  have hm : (b.significand : ℚ) < 2 ^ 53 := by exact_mod_cast hlt
  unfold Binary64.reachDown
  split
  · rename_i h
    simp only [Bool.and_eq_true, decide_eq_true_eq] at h
    rw [h.1] at hle
    norm_num at hle ⊢
    linarith
  · norm_num at hle ⊢
    linarith

theorem pow_lead_le {b : Binary64} (hb : b.significand ≠ 0) :
    (10 : ℚ) ^ leadingPlace (b.significand * 2 ^ b.exponent.toNat) (2 ^ (-b.exponent).toNat) ≤
      b.significand * 2 ^ b.exponent := by
  calc (10 : ℚ) ^ leadingPlace (b.significand * 2 ^ b.exponent.toNat) (2 ^ (-b.exponent).toNat)
      ≤ (b.significand * 2 ^ b.exponent.toNat : ℕ) / (2 ^ (-b.exponent).toNat : ℕ) :=
        pow_leadingPlace_le (by positivity) (by positivity)
    _ = b.significand * 2 ^ b.exponent := by
      push_cast
      rw [pow_toNat two_ne_zero b.exponent]
      field_simp

theorem trim_zero (limit : Nat) : trim limit ⟨0, 0⟩ = ⟨0, 0⟩ := by
  cases limit <;> rfl

/-- The decimal is from a grid, unless there is nothing on the finest one. -/
theorem shortest_cases (tie : Tie) {b : Binary64} (hb : b.significand ≠ 0) :
    (shortest tie b = ⟨0, 0⟩ ∧ onGrid tie b (leadingPlace (b.significand * 2 ^ b.exponent.toNat)
      (2 ^ (-b.exponent).toNat) - 16) = none) ∨
    ∃ (c : ℕ) (place : ℤ), onGrid tie b place = some c ∧
      shortest tie b = trim 17 ⟨c, place⟩ := by
  unfold shortest
  rw [if_neg hb]
  simp only
  generalize leadingPlace (b.significand * 2 ^ b.exponent.toNat) (2 ^ (-b.exponent).toNat) = lead
  cases hf : (List.range 17).findSome? fun (k : Nat) =>
      (onGrid tie b (lead - k)).map (Decimal.mk · (lead - k)) with
  | none =>
    have hnone := List.findSome?_eq_none_iff.mp hf 16 (by decide)
    exact .inl ⟨trim_zero 17, Option.map_eq_none_iff.mp hnone⟩
  | some d =>
    obtain ⟨k, -, hk⟩ := List.exists_of_findSome?_eq_some hf
    obtain ⟨c, hc, rfl⟩ := Option.map_eq_some_iff.mp hk
    exact .inr ⟨c, _, hc, rfl⟩

/-- A decimal of seventeen digits or less is found. -/
theorem shortest_eq (tie : Tie) {b : Binary64} (hb : b.significand ≠ 0)
    (hlt : b.significand < 2 ^ 53) : ∃ (c : ℕ) (place : ℤ),
      onGrid tie b place = some c ∧ shortest tie b = trim 17 ⟨c, place⟩ := by
  rcases shortest_cases tie hb with ⟨-, hnone⟩ | hfound
  · obtain ⟨c, hc⟩ := exists_onGrid _ tie hb (quarters_lt hlt (pow_lead_le hb))
    rw [hnone] at hc
    cases hc
  · exact hfound

/-- The decimal found for a double rounds to it. -/
theorem rounds_shortest (tie : Tie) {b : Binary64} (hb : b.significand ≠ 0)
    (hlt : b.significand < 2 ^ 53) : b.Rounds (shortest tie b).value := by
  obtain ⟨c, place, hc, hshortest⟩ := shortest_eq tie hb hlt
  rw [hshortest, value_trim]
  rcases onGrid_cases place tie hb with ⟨hnone, -⟩ | ⟨c', hc', h⟩
  · rw [hnone] at hc
    cases hc
  · obtain rfl : c' = c := Option.some.inj (hc'.symm.trans hc)
    exact h

/-- Doubles with the same shortest decimal are the same, their signs apart. -/
theorem shortest_inj {tie : Tie} {b c : Binary64} (hb : b.Canonical) (hc : c.Canonical)
    (h : (shortest tie b).value = (shortest tie c).value) :
    b.significand = c.significand ∧ b.exponent = c.exponent := by
  have hzero : ∀ {b : Binary64}, b.significand = 0 → (shortest tie b).value = 0 := by
    intro b hb
    rw [shortest, if_pos hb, value, Nat.cast_zero, zero_mul]
  have hrounds : ∀ {b : Binary64}, b.Canonical → b.significand ≠ 0 →
      b.Rounds (shortest tie b).value := fun hb h => rounds_shortest tie h hb.significand_lt
  have hleast : ∀ {b : Binary64}, b.Canonical → b.significand = 0 → b.exponent = -1074 := by
    intro b hb h0
    by_contra he
    have hge := hb.normal he
    omega
  by_cases hb0 : b.significand = 0 <;> by_cases hc0 : c.significand = 0
  · exact ⟨hb0.trans hc0.symm, (hleast hb hb0).trans (hleast hc hc0).symm⟩
  · exact absurd (h.symm.trans (hzero hb0)) ((hrounds hc hc0).ne_zero hc0)
  · exact absurd (h.trans (hzero hc0)) ((hrounds hb hb0).ne_zero hb0)
  · exact (hrounds hb hb0).unique hb hc (h ▸ hrounds hc hc0)

end Decimal

end LayerGraph
