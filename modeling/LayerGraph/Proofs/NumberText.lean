import LayerGraph.JsonPrinter
import LayerGraph.JsonReader
import LayerGraph.Proofs.Rounding

namespace LayerGraph

namespace Document

/-- A number does not go on with this text. -/
def EndsNumber (r : List Char) : Prop :=
  ∀ c ∈ r.head?, c.isDigit = false ∧ c ≠ '.' ∧ c ≠ 'e' ∧ c ≠ 'E'

theorem endsNumber_nil : EndsNumber [] := by simp [EndsNumber]

theorem endsNumber_cons {c : Char} (r : List Char)
    (hc : c.isDigit = false ∧ c ≠ '.' ∧ c ≠ 'e' ∧ c ≠ 'E') : EndsNumber (c :: r) := by
  simpa [EndsNumber] using hc

theorem span_digits {ds r : List Char} (hds : ∀ c ∈ ds, c.isDigit = true)
    (hr : ∀ c ∈ r.head?, c.isDigit = false) :
    (ds ++ r).takeWhile Char.isDigit = ds ∧ (ds ++ r).dropWhile Char.isDigit = r := by
  rw [List.takeWhile_append_of_pos hds, List.dropWhile_append_of_pos hds]
  cases r with
  | nil => simp
  | cons c r =>
    have hc : c.isDigit = false := hr c rfl
    simp [hc]

namespace NumberToken

/-- The text of an exponent, with a sign. -/
def exponentChars : Option (Bool × List Char) → List Char
  | none => []
  | some (down, ds) => 'e' :: (if down then '-' else '+') :: ds

def chars (t : NumberToken) : List Char :=
  (if t.negative then ['-'] else []) ++ t.whole ++
    (if t.fraction = [] then [] else '.' :: t.fraction) ++ exponentChars t.exponent

/-- The parts are digits, with no zero in front of others. -/
structure Proper (t : NumberToken) : Prop where
  whole_digits : ∀ c ∈ t.whole, c.isDigit = true
  whole_ne_nil : t.whole ≠ []
  no_leading_zero : t.whole.length = 1 ∨ t.whole.head? ≠ some '0'
  fraction_digits : ∀ c ∈ t.fraction, c.isDigit = true
  exponent_digits : ∀ e ∈ t.exponent, e.2 ≠ [] ∧ ∀ c ∈ e.2, c.isDigit = true

end NumberToken

theorem isDigit_ne {c : Char} (hc : c.isDigit = true) : c ≠ '-' ∧ c ≠ '+' ∧ c ≠ '.' ∧ c ≠ 'e' ∧ c ≠ 'E' := by
  refine ⟨?_, ?_, ?_, ?_, ?_⟩ <;> (rintro rfl; exact absurd hc (by decide))

theorem splitSign_append {l : List Char} (negative : Bool) (hl : l.head? ≠ some '-') :
    splitSign ((if negative then ['-'] else []) ++ l) = (negative, l) := by
  cases negative with
  | true => rfl
  | false =>
    cases l with
    | nil => rfl
    | cons c l =>
      have hc : c ≠ '-' := by simpa using hl
      simp only [Bool.false_eq_true, if_false, List.nil_append]
      unfold splitSign
      split
      · rename_i h
        exact absurd (List.cons.inj h).1 hc
      · rfl

theorem splitFraction?_append {ds r : List Char} (hds : ∀ c ∈ ds, c.isDigit = true)
    (hr : ∀ c ∈ r.head?, c.isDigit = false ∧ c ≠ '.') :
    splitFraction? ((if ds = [] then [] else '.' :: ds) ++ r) = some (ds, r) := by
  obtain ⟨htake, hdrop⟩ := span_digits hds fun c hc => (hr c hc).1
  by_cases hne : ds = []
  · subst hne
    simp only [if_true, List.nil_append]
    unfold splitFraction?
    split
    · exact absurd rfl (hr '.' rfl).2
    · rfl
  · have hempty : ds.isEmpty = false := by simpa using hne
    rw [if_neg hne, List.cons_append]
    simp only [splitFraction?, htake, hdrop, hempty, Bool.false_eq_true, if_false]

theorem splitExponentSign_append (ds : List Char) (down : Bool) (r : List Char) :
    splitExponentSign ((if down then '-' else '+') :: ds ++ r) = (down, ds ++ r) := by
  cases down <;> rfl

theorem splitExponent?_append {r : List Char} (hr : EndsNumber r) {e : Option (Bool × List Char)}
    (he : ∀ x ∈ e, x.2 ≠ [] ∧ ∀ c ∈ x.2, c.isDigit = true) :
    splitExponent? (NumberToken.exponentChars e ++ r) = some (e, r) := by
  cases e with
  | none =>
    cases r with
    | nil => rfl
    | cons c r =>
      have hc := hr c rfl
      simp [NumberToken.exponentChars, splitExponent?, hc.2.2.1, hc.2.2.2]
  | some x =>
    obtain ⟨down, ds⟩ := x
    obtain ⟨hne, hds⟩ := he (down, ds) rfl
    obtain ⟨htake, hdrop⟩ := span_digits hds fun c hc => (hr c hc).1
    have hempty : ds.isEmpty = false := by simpa using hne
    have hsign := splitExponentSign_append ds down r
    simp only [NumberToken.exponentChars, List.cons_append, splitExponent?] at hsign ⊢
    simp only [decide_true, Bool.true_or, if_true, hsign, htake, hdrop, hempty,
      Bool.false_eq_true, if_false]

theorem numberToken?_chars {t : NumberToken} {r : List Char} (ht : t.Proper) (hr : EndsNumber r) :
    numberToken? (t.chars ++ r) = some (t, r) := by
  obtain ⟨negative, whole, fraction, exponent⟩ := t
  obtain ⟨hwhole, hne, hzero, hfraction, hexponent⟩ := ht
  simp only at hwhole hne hzero hfraction hexponent
  unfold NumberToken.chars
  simp only [List.append_assoc]
  -- each part ends where the next one begins: the last one comes first
  generalize hexp : NumberToken.exponentChars exponent ++ r = last
  have hlast : splitExponent? last = some (exponent, r) := by
    rw [← hexp]
    exact splitExponent?_append hr hexponent
  have hlasthead : ∀ c ∈ last.head?, c.isDigit = false ∧ c ≠ '.' := by
    rw [← hexp]
    cases exponent with
    | none => exact fun c hc => ⟨(hr c hc).1, (hr c hc).2.1⟩
    | some x => simp [NumberToken.exponentChars]
  have hfrac := splitFraction?_append hfraction hlasthead
  have hfrachead : ∀ c ∈ ((if fraction = [] then [] else '.' :: fraction) ++ last).head?,
      c.isDigit = false := by
    by_cases hf : fraction = []
    · simpa [hf] using fun c hc => (hlasthead c hc).1
    · simp [hf]
  obtain ⟨htake, hdrop⟩ := span_digits hwhole hfrachead
  have hsign : (whole ++ ((if fraction = [] then [] else '.' :: fraction) ++ last)).head? ≠
      some '-' := by
    cases whole with
    | nil => exact absurd rfl hne
    | cons c cs => simpa using (isDigit_ne (hwhole c List.mem_cons_self)).1
  have hempty : whole.isEmpty = false := by simpa using hne
  have hguard : (whole.length = 1 || whole.head? != some '0') = true := by
    rcases hzero with h | h <;> simp [h]
  unfold numberToken?
  simp only [splitSign_append negative hsign, htake, hdrop, hempty, hguard, hfrac]
  simp [hlast]

/-- The token of an integer. -/
def intToken (n : Int) : NumberToken := ⟨decide (n < 0), Nat.toDigits 10 n.natAbs, [], none⟩

theorem head?_toDigits_ne_zero {n : Nat} (hn : n ≠ 0) : (Nat.toDigits 10 n).head? ≠ some '0' := by
  induction n using Nat.strongRecOn with
  | ind n ih =>
    rw [Nat.toDigits_eq_if (by decide)]
    by_cases hlt : n < 10
    · rw [if_pos hlt]
      simpa using hn
    · rw [if_neg hlt, List.head?_append_of_ne_nil _ Nat.toDigits_ne_nil]
      have hpos : n / 10 ≠ 0 := by omega
      exact ih (n / 10) (by omega) hpos

theorem toDigits_no_leading_zero (n : Nat) :
    (Nat.toDigits 10 n).length = 1 ∨ (Nat.toDigits 10 n).head? ≠ some '0' := by
  by_cases hn : n = 0
  · subst hn
    exact .inl rfl
  · exact .inr (head?_toDigits_ne_zero hn)

theorem isDigit_of_mem_toDigits {n : Nat} : ∀ c ∈ Nat.toDigits 10 n, c.isDigit = true :=
  fun _ hc => Nat.isDigit_of_mem_toDigits (by decide) (by decide) hc

theorem proper_intToken (n : Int) : (intToken n).Proper where
  whole_digits := isDigit_of_mem_toDigits
  whole_ne_nil := Nat.toDigits_ne_nil
  no_leading_zero := toDigits_no_leading_zero _
  fraction_digits := by simp [intToken]
  exponent_digits := by simp [intToken]

theorem chars_intToken (n : Int) : (intToken n).chars = Json.intChars n := by
  unfold NumberToken.chars intToken Json.intChars NumberToken.exponentChars
  by_cases hn : n < 0 <;> simp [hn]

theorem digitsValue_toDigits (n : Nat) : digitsValue (Nat.toDigits 10 n) = n := by
  have h := Nat.ofDigitChars_ten_toDigits (n := n)
  rw [Nat.ofDigitChars_eq_foldl] at h
  unfold digitsValue
  simpa only [Nat.mul_comm 10] using h

theorem value_intToken {n : Int} (hlow : -2 ^ 63 ≤ n) (hhigh : n < 2 ^ 64) :
    (intToken n).value = .int n := by
  unfold NumberToken.value intToken
  simp only [digitsValue_toDigits, List.isEmpty_nil, Option.isNone_none, Bool.and_self, if_true]
  by_cases hn : n < 0
  · have hz : n.natAbs ≠ 0 := by omega
    have hle : ¬ 2 ^ 63 < n.natAbs := by omega
    simp only [hn, decide_true, if_true, hz, hle, decide_false, Bool.or_self, Bool.false_eq_true,
      if_false]
    congr 1
    simp only [Int.ofNat_eq_natCast]
    omega
  · have hlt : n.natAbs < 2 ^ 64 := by omega
    simp only [hn, decide_false, Bool.false_eq_true, if_false, hlt, if_true]
    congr 1
    simp only [Int.ofNat_eq_natCast]
    omega

/-- The token of a decimal: with an exponent or with a fraction. -/
def decimalToken (negative : Bool) (d : Decimal) : NumberToken :=
  if Json.numberLayout.positional d.place then
    if 0 ≤ d.exponent then
      ⟨negative, Nat.toDigits 10 d.digits ++ NumberLayout.zeros d.exponent.toNat, ['0'], none⟩
    else
      let places := (-d.exponent).toNat
      let ds := NumberLayout.zeros (places + 1 - (Nat.toDigits 10 d.digits).length) ++
        Nat.toDigits 10 d.digits
      ⟨negative, ds.take (ds.length - places), ds.drop (ds.length - places), none⟩
  else
    ⟨negative, (Nat.toDigits 10 d.digits).take 1, (Nat.toDigits 10 d.digits).drop 1,
      some (decide (d.place < 0), Nat.toDigits 10 d.place.natAbs)⟩

theorem isDigit_of_mem_zeros {n : Nat} : ∀ c ∈ NumberLayout.zeros n, c.isDigit = true := by
  intro c hc
  obtain rfl := List.eq_of_mem_replicate hc
  rfl

theorem decimalToken_parts (negative : Bool) (d : Decimal) :
    (decimalToken negative d).fraction ≠ [] ∨ (decimalToken negative d).exponent ≠ none := by
  unfold decimalToken
  split
  · left
    split
    · simp
    · rename_i he
      have hlen : 0 < (Nat.toDigits 10 d.digits).length := Nat.length_toDigits_pos
      simp only [ne_eq, List.drop_eq_nil_iff, List.length_append, NumberLayout.zeros,
        List.length_replicate]
      omega
  · right
    simp

section Proper

variable (negative : Bool) (n places : Nat)

/-- A decimal without a fraction, `places` zeros behind its digits. -/
theorem proper_wholeToken (hn : n = 0 → places = 0) : NumberToken.Proper
    ⟨negative, Nat.toDigits 10 n ++ NumberLayout.zeros places, ['0'], none⟩ where
  whole_digits c hc := by
    rcases List.mem_append.mp hc with hc | hc
    · exact isDigit_of_mem_toDigits c hc
    · exact isDigit_of_mem_zeros c hc
  whole_ne_nil := by simp
  no_leading_zero := by
    by_cases hz : n = 0
    · left
      simp [hz, hn hz, NumberLayout.zeros]
    · right
      simp only
      rw [List.head?_append_of_ne_nil _ Nat.toDigits_ne_nil]
      exact head?_toDigits_ne_zero hz
  fraction_digits := by simp
  exponent_digits := by simp

/-- A decimal with the point before its last `places` digits. -/
theorem proper_fractionToken {ds : List Char}
    (hds : ds = NumberLayout.zeros (places + 1 - (Nat.toDigits 10 n).length) ++ Nat.toDigits 10 n)
    (hplaces : 0 < places) : NumberToken.Proper
    ⟨negative, ds.take (ds.length - places), ds.drop (ds.length - places), none⟩ := by
  have hlen : ds.length = max (places + 1) (Nat.toDigits 10 n).length := by
    rw [hds, List.length_append, NumberLayout.zeros, List.length_replicate]
    omega
  have hall : ∀ c ∈ ds, c.isDigit = true := by
    intro c hc
    rw [hds] at hc
    rcases List.mem_append.mp hc with hc | hc
    · exact isDigit_of_mem_zeros c hc
    · exact isDigit_of_mem_toDigits c hc
  constructor
  case whole_digits => exact fun c hc => hall c (List.mem_of_mem_take hc)
  case whole_ne_nil =>
    apply List.ne_nil_of_length_pos
    rw [List.length_take]
    omega
  case no_leading_zero =>
    simp only [List.length_take]
    by_cases hpad : (Nat.toDigits 10 n).length ≤ places
    · left
      omega
    · -- no zeros are put in front, so the first digit is that of the number
      right
      have hno : places + 1 - (Nat.toDigits 10 n).length = 0 := by omega
      have hself : ds = Nat.toDigits 10 n := by rw [hds, hno]; rfl
      rw [hself, List.head?_take, if_neg (by omega)]
      apply head?_toDigits_ne_zero
      rintro rfl
      simp at hpad
      omega
  case fraction_digits => exact fun c hc => hall c (List.mem_of_mem_drop hc)
  case exponent_digits => simp

/-- A decimal with an exponent, and the point behind its first digit. -/
theorem proper_exponentToken (down : Bool) (exponent : Nat) : NumberToken.Proper
    ⟨negative, (Nat.toDigits 10 n).take 1, (Nat.toDigits 10 n).drop 1,
      some (down, Nat.toDigits 10 exponent)⟩ where
  whole_digits c hc := isDigit_of_mem_toDigits c (List.mem_of_mem_take hc)
  whole_ne_nil := by simp
  no_leading_zero := by
    have hlen : 0 < (Nat.toDigits 10 n).length := Nat.length_toDigits_pos
    left
    simp only [List.length_take]
    omega
  fraction_digits c hc := isDigit_of_mem_toDigits c (List.mem_of_mem_drop hc)
  exponent_digits := by
    simp only [Option.mem_some_iff]
    rintro e rfl
    exact ⟨Nat.toDigits_ne_nil, isDigit_of_mem_toDigits⟩

end Proper

theorem proper_decimalToken (negative : Bool) {d : Decimal} (hd : d.digits = 0 → d.exponent ≤ 0) :
    (decimalToken negative d).Proper := by
  unfold decimalToken
  split
  · split
    · apply proper_wholeToken
      intro hz
      have hexp := hd hz
      omega
    · exact proper_fractionToken negative d.digits _ rfl (by omega)
  · exact proper_exponentToken negative d.digits _ _

theorem chars_decimalToken (negative : Bool) (d : Decimal) :
    (decimalToken negative d).chars = (if negative then ['-'] else []) ++
      if Json.numberLayout.positional d.place then Json.numberLayout.positionalChars d
      else NumberLayout.scientificChars d := by
  have hparts := decimalToken_parts negative d
  unfold decimalToken NumberToken.chars at *
  by_cases hp : Json.numberLayout.positional d.place = true
  · simp only [if_pos hp] at hparts ⊢
    unfold NumberLayout.positionalChars
    by_cases he : 0 ≤ d.exponent
    · simp [if_pos he, NumberToken.exponentChars, Json.numberLayout]
    · simp only [if_neg he] at hparts ⊢
      have hf := hparts.resolve_right (by simp)
      simp only [if_neg hf, NumberToken.exponentChars, List.append_nil, List.append_assoc]
  · simp only [if_neg hp]
    unfold NumberLayout.scientificChars NumberToken.exponentChars
    cases hds : Nat.toDigits 10 d.digits with
    | nil => exact absurd hds Nat.toDigits_ne_nil
    | cons c cs => cases cs <;> simp

end Document

namespace Binary64

theorem toNat_unpackExponent (b : BitVec Float.Model.Format.binary64.numBits) :
    (Float.Model.UnpackedFloat.unpackExponent b).toNat = b.toNat / 2 ^ 52 % 2 ^ 11 := by
  unfold Float.Model.UnpackedFloat.unpackExponent
  rw [BitVec.toNat_cast, BitVec.extractLsb_toNat, Nat.shiftRight_eq_div_pow]
  rfl

/-- A double has an exact value just when it is finite. -/
theorem isSome_ofFloat? (x : Float) : (ofFloat? x).isSome = x.isFinite := by
  have hexp := toNat_unpackExponent x.toModel.toBits.toBitVec
  have hbits : x.toBits.toNat = x.toModel.toBits.toBitVec.toNat := rfl
  unfold ofFloat? Float.isFinite Float.Model.isFinite Float.Model.unpack
    Float.Model.UnpackedFloat.unpack
  simp only [hbits]
  rw [← hexp]
  -- all ones in the exponent: infinite or no number
  have hall : ∀ e : BitVec 11, e.toNat = 2047 ↔ e = -1#11 := by
    intro e
    rw [← BitVec.toNat_inj]
    rfl
  by_cases he : (@Float.Model.UnpackedFloat.unpackExponent Float.Model.Format.binary64
      x.toModel.toBits.toBitVec).toNat = 2047
  · rw [if_pos he, if_pos ((hall _).mp he)]
    split <;> rfl
  · rw [if_neg he, if_neg fun h => he ((hall _).mpr h), Option.isSome_some]
    split
    · split <;> rfl
    · rfl

end Binary64

namespace Decimal

theorem trim_digits {limit : Nat} {d : Decimal} (hd : d.digits ≠ 0) : (trim limit d).digits ≠ 0 := by
  induction limit generalizing d with
  | zero => exact hd
  | succ limit ih =>
    unfold trim
    split
    · rename_i h
      apply ih
      have hmod : d.digits % 10 = 0 := by
        simp only [Bool.and_eq_true, decide_eq_true_eq] at h
        exact h.1
      simp only
      omega
    · exact hd

/-- What rounds to a number other than zero is not zero. -/
theorem onGrid_ne_zero {tie : Tie} {b : Binary64} {place : Int} {n : Nat} (hb : b.significand ≠ 0)
    (hn : onGrid tie b place = some n) : n ≠ 0 := by
  rintro rfl
  rcases onGrid_cases place tie hb with ⟨hnone, -⟩ | ⟨c, hc, hrounds⟩
  · rw [hnone] at hn
    cases hn
  · obtain rfl : c = 0 := Option.some.inj (hc.symm.trans hn)
    exact hrounds.ne_zero hb (by simp)

theorem shortest_exponent {tie : Tie} {b : Binary64} (h : (shortest tie b).digits = 0) :
    (shortest tie b).exponent ≤ 0 := by
  by_cases hb : b.significand = 0
  · rw [shortest, if_pos hb]
  rcases shortest_cases tie hb with ⟨hzero, -⟩ | ⟨c, place, hc, hshortest⟩
  · rw [hzero]
  · -- found on a grid, so it is not zero
    rw [hshortest] at h
    exact absurd h (trim_digits (onGrid_ne_zero hb hc))

end Decimal

namespace Document

/-- The token of a double, if it is finite. -/
def floatToken? (x : Float) : Option NumberToken :=
  (Binary64.ofFloat? x).map fun b => decimalToken b.negative (Decimal.shortest .even b)

theorem floatChars_of_eq_some {x : Float} {t : NumberToken} (ht : floatToken? x = some t) :
    Json.floatChars x = t.chars ∧ t.Proper ∧ (t.fraction ≠ [] ∨ t.exponent ≠ none) := by
  obtain ⟨b, hb, rfl⟩ := Option.map_eq_some_iff.mp ht
  have hfinite : x.isFinite = true := by
    rw [← Binary64.isSome_ofFloat?, hb]
    rfl
  refine ⟨?_, proper_decimalToken _ Decimal.shortest_exponent, decimalToken_parts _ _⟩
  unfold Json.floatChars NumberLayout.chars
  rw [if_pos hfinite, hb, chars_decimalToken]
  rfl

theorem floatChars_of_eq_none {x : Float} (ht : floatToken? x = none) :
    Json.floatChars x = ['n', 'u', 'l', 'l'] := by
  have hfinite : x.isFinite = false := by
    rw [← Binary64.isSome_ofFloat?, Option.map_eq_none_iff.mp ht]
    rfl
  unfold Json.floatChars
  rw [hfinite]
  rfl

/-- What is read of a double that was printed. -/
def ofFloat (x : Float) : Document :=
  match floatToken? x with
  | some t => t.value
  | none => .null

/-- The double is read back as it was. -/
def KeepsFloat (x : Float) : Prop := ofFloat x = .float x

theorem value_of_parts {t : NumberToken} (ht : t.fraction ≠ [] ∨ t.exponent ≠ none) :
    t.value = .unreadable ∨ ∃ y, t.value = .float y := by
  have hwhole : (t.fraction.isEmpty && t.exponent.isNone) = false := by
    rcases ht with h | h
    · simp [h]
    · cases he : t.exponent with
      | none => exact absurd he h
      | some e => simp
  unfold NumberToken.value
  simp only [hwhole, Bool.false_eq_true, if_false]
  cases t.float? with
  | none => exact .inl rfl
  | some y => exact .inr ⟨y, rfl⟩

/-- A printed double is not read as an integer. -/
theorem ofFloat_cases (x : Float) :
    ofFloat x = .null ∨ ofFloat x = .unreadable ∨ ∃ y, ofFloat x = .float y := by
  unfold ofFloat
  cases ht : floatToken? x with
  | none => exact .inl rfl
  | some t => exact .inr (value_of_parts (floatChars_of_eq_some ht).2.2)

end Document

end LayerGraph
