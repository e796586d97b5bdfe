import LayerGraph.Proofs.JsonValues

namespace LayerGraph

namespace Document

theorem digitsValue_zeros_append (n : Nat) (ds : List Char) :
    digitsValue (NumberLayout.zeros n ++ ds) = digitsValue ds := by
  induction n with
  | zero => rfl
  | succ n ih => exact ih

theorem digitsValue_append_zeros (ds : List Char) (n : Nat) :
    digitsValue (ds ++ NumberLayout.zeros n) = digitsValue ds * 10 ^ n := by
  induction n with
  | zero => simp [NumberLayout.zeros]
  | succ n ih =>
    have hlast : ∀ cs : List Char, digitsValue (cs ++ ['0']) = digitsValue cs * 10 := by
      intro cs
      simp [digitsValue]
    rw [NumberLayout.zeros, List.replicate_succ', ← List.append_assoc, hlast]
    change digitsValue (ds ++ NumberLayout.zeros n) * 10 = _
    rw [ih, pow_succ, mul_assoc]

namespace NumberToken

def written (t : NumberToken) : Int :=
  match t.exponent with
  | none => 0
  | some (true, ds) => -digitsValue ds
  | some (false, ds) => digitsValue ds

/-- The number that is written, its sign apart. -/
def number (t : NumberToken) : ℚ :=
  digitsValue (t.whole ++ t.fraction) * 10 ^ (t.written - t.fraction.length)

end NumberToken

/-- However a decimal is laid out, its own value is written. -/
theorem number_decimalToken (negative : Bool) (d : Decimal) :
    (decimalToken negative d).number = d.value := by
  have hdigits := digitsValue_toDigits d.digits
  have hlen : 0 < (Nat.toDigits 10 d.digits).length := Nat.length_toDigits_pos
  unfold decimalToken NumberToken.number NumberToken.written Decimal.value
  split
  · split
    · rename_i he
      have hzeros : Nat.toDigits 10 d.digits ++ NumberLayout.zeros d.exponent.toNat ++ ['0'] =
          Nat.toDigits 10 d.digits ++ NumberLayout.zeros (d.exponent.toNat + 1) := by
        rw [NumberLayout.zeros, NumberLayout.zeros, List.replicate_succ', List.append_assoc]
      simp only [hzeros, digitsValue_append_zeros, hdigits, List.length_singleton]
      push_cast
      rw [mul_assoc, ← zpow_natCast, ← zpow_add₀ (by norm_num)]
      congr 2
      push_cast
      omega
    · rename_i he
      simp only [List.take_append_drop, digitsValue_zeros_append, hdigits]
      congr 2
      simp only [List.length_drop, List.length_append, NumberLayout.zeros, List.length_replicate]
      omega
  · simp only [List.take_append_drop, hdigits]
    congr 2
    have hplace : d.place = d.exponent + (Nat.toDigits 10 d.digits).length - 1 := rfl
    simp only [List.length_drop]
    by_cases hneg : d.place < 0
    · simp only [hneg, decide_true, digitsValue_toDigits]
      omega
    · simp only [hneg, decide_false, digitsValue_toDigits]
      omega

theorem negative_decimalToken (negative : Bool) (d : Decimal) :
    (decimalToken negative d).negative = negative := by
  unfold decimalToken
  split
  · split <;> rfl
  · rfl

/-- A finite double is determined by its token. -/
theorem floatToken?_inj {x y : Float} {t : NumberToken} (hx : floatToken? x = some t)
    (hy : floatToken? y = some t) : x = y := by
  obtain ⟨b, hb, rfl⟩ := Option.map_eq_some_iff.mp hx
  obtain ⟨c, hc, he⟩ := Option.map_eq_some_iff.mp hy
  have hnegative : c.negative = b.negative := by
    rw [← negative_decimalToken c.negative, he, negative_decimalToken]
  have hvalue := congrArg NumberToken.number he
  rw [number_decimalToken, number_decimalToken] at hvalue
  obtain ⟨hsignificand, hexponent⟩ := Decimal.shortest_inj (Binary64.canonical_of_ofFloat? hc)
    (Binary64.canonical_of_ofFloat? hb) hvalue
  obtain rfl : c = b := by
    cases b
    cases c
    simp only at hnegative hsignificand hexponent
    rw [hnegative, hsignificand, hexponent]
  exact Binary64.ofFloat?_inj hb hc

theorem exists_floatToken? {x : Float} (hx : x.isFinite = true) : ∃ t, floatToken? x = some t := by
  rw [← Binary64.isSome_ofFloat?] at hx
  obtain ⟨b, hb⟩ := Option.isSome_iff_exists.mp hx
  exact ⟨_, congrArg (Option.map _) hb⟩

end Document

namespace Json

open Document

/-- All the doubles in a value are finite. -/
def Finite (j : Json) : Prop := ∀ x ∈ j.decimals, x.isFinite = true

instance (j : Json) : Decidable j.Finite :=
  inferInstanceAs (Decidable (∀ x ∈ j.decimals, x.isFinite = true))

def token? : Json → Option NumberToken
  | .int n => some (intToken n)
  | .float x => floatToken? x
  | _ => none

variable {j k : Json} {t : NumberToken}

theorem chars_of_token? (ht : j.token? = some t) : j.chars = t.chars ∧ t.Proper := by
  cases j with
  | int n =>
    obtain rfl : intToken n = t := Option.some.inj ht
    exact ⟨(chars_intToken n).symm, proper_intToken n⟩
  | float x =>
    obtain ⟨hchars, hproper, -⟩ := floatChars_of_eq_some ht
    exact ⟨hchars, hproper⟩
  | _ => cases ht

theorem intToken_inj {m n : Int} (h : intToken m = intToken n) : m = n := by
  have hsign := decide_eq_decide.mp (congrArg NumberToken.negative h)
  have habs := congrArg (digitsValue ·.whole) h
  simp only [intToken, digitsValue_toDigits] at habs
  omega

theorem floatToken?_ne_intToken {x : Float} {n : Int} : floatToken? x ≠ some (intToken n) := by
  intro h
  rcases (floatChars_of_eq_some h).2.2 with h | h
  · exact h rfl
  · exact h rfl

/-- A number is determined by its token: integers and doubles have no token in common. -/
theorem token?_inj (hj : j.token? = some t) (hk : k.token? = some t) : j = k := by
  cases j with
  | int m =>
    obtain rfl : intToken m = t := Option.some.inj hj
    cases k with
    | int n => rw [intToken_inj (Option.some.inj hk)]
    | float y => exact absurd hk floatToken?_ne_intToken
    | _ => cases hk
  | float x =>
    cases k with
    | int n =>
      obtain rfl : intToken n = t := Option.some.inj hk
      exact absurd hj floatToken?_ne_intToken
    | float y => rw [floatToken?_inj hj hk]
    | _ => cases hk
  | _ => cases hj

/-- What the first character of a value tells of it. -/
inductive Shape where
  | null
  | bool (b : Bool)
  | number
  | string
  | array
  | object
  deriving DecidableEq

def shape : Json → Shape
  | .null => .null
  | .bool b => .bool b
  | .int _ | .float _ => .number
  | .string _ => .string
  | .array _ => .array
  | .object _ => .object

def shapeAt (c : Char) : Shape :=
  if c = 'n' then .null
  else if c = 't' then .bool true
  else if c = 'f' then .bool false
  else if c = '\x22' then .string
  else if c = '[' then .array
  else if c = '\x7b' then .object
  else .number

theorem shapeAt_number {c : Char} (hc : c.isDigit = true ∨ c = '-') : shapeAt c = .number := by
  have hne : ∀ d : Char, d.isDigit = false → d ≠ '-' → c ≠ d := by
    rintro d hd hm rfl
    rcases hc with hc | hc
    · rw [hc] at hd
      cases hd
    · exact hm hc
  unfold shapeAt
  rw [if_neg (hne _ rfl (by decide)), if_neg (hne _ rfl (by decide)),
    if_neg (hne _ rfl (by decide)), if_neg (hne _ rfl (by decide)),
    if_neg (hne _ rfl (by decide)), if_neg (hne _ rfl (by decide))]

theorem exists_token? (hj : j.Finite) (hshape : j.shape = .number) : ∃ t, j.token? = some t := by
  cases j with
  | int n => exact ⟨_, rfl⟩
  | float x => exact exists_floatToken? (hj x (List.mem_singleton_self x))
  | _ => cases hshape

theorem exists_chars_shape (hj : j.Finite) :
    ∃ c cs, j.chars = c :: cs ∧ shapeAt c = j.shape := by
  by_cases hshape : j.shape = .number
  · obtain ⟨t, ht⟩ := exists_token? hj hshape
    obtain ⟨hchars, hproper⟩ := chars_of_token? ht
    obtain ⟨c, cs, hcs, hc⟩ := hproper.exists_chars
    exact ⟨c, cs, hchars.trans hcs, (shapeAt_number hc).trans hshape.symm⟩
  · cases j with
    | null => exact ⟨'n', _, rfl, rfl⟩
    | bool b => cases b <;> exact ⟨_, _, rfl, rfl⟩
    | int n => exact absurd rfl hshape
    | float x => exact absurd rfl hshape
    | string s => exact ⟨'\x22', _, rfl, rfl⟩
    | array items => cases items <;> exact ⟨'[', _, rfl, rfl⟩
    | object members =>
      cases members with
      | nil => exact ⟨'\x7b', _, rfl, rfl⟩
      | cons m ms => exact ⟨'\x7b', _, rfl, rfl⟩

theorem shape_eq (hj : j.Finite) (hk : k.Finite) {r r' : List Char}
    (h : j.chars ++ r = k.chars ++ r') : j.shape = k.shape := by
  obtain ⟨c, cs, hcs, hc⟩ := exists_chars_shape hj
  obtain ⟨d, ds, hds, hd⟩ := exists_chars_shape hk
  rw [hcs, hds] at h
  rw [← hc, (List.cons.inj h).1, hd]

theorem number_inj (hj : j.Finite) (hk : k.Finite) (hshape : j.shape = .number)
    (hshape' : k.shape = .number) {r r' : List Char} (hr : EndsNumber r) (hr' : EndsNumber r')
    (h : j.chars ++ r = k.chars ++ r') : j = k ∧ r = r' := by
  obtain ⟨t, ht⟩ := exists_token? hj hshape
  obtain ⟨u, hu⟩ := exists_token? hk hshape'
  obtain ⟨hchars, hproper⟩ := chars_of_token? ht
  obtain ⟨hchars', hproper'⟩ := chars_of_token? hu
  have hread := numberToken?_chars hproper hr
  rw [← hchars, h, hchars', numberToken?_chars hproper' hr'] at hread
  obtain ⟨rfl, rfl⟩ := Prod.mk.inj (Option.some.inj hread)
  exact ⟨token?_inj ht hu, rfl⟩

theorem stringChars_inj {s s' : String} {r r' : List Char}
    (h : stringChars s ++ r = stringChars s' ++ r') : s = s' ∧ r = r' := by
  simp only [stringChars, List.cons_append, List.append_assoc, List.nil_append] at h
  have hread := stringRest_chars s r
  rw [(List.cons.inj h).2, stringRest_chars] at hread
  obtain ⟨hs, rfl⟩ := Prod.mk.inj (Option.some.inj hread)
  exact ⟨(Option.some.inj hs).symm, rfl⟩

def FiniteItems (xs : List Json) : Prop := ∀ x ∈ itemDecimals xs, x.isFinite = true

def FiniteMembers (ms : List (String × Json)) : Prop := ∀ x ∈ memberDecimals ms, x.isFinite = true

theorem finiteItems_cons {x : Json} {xs : List Json} :
    FiniteItems (x :: xs) ↔ x.Finite ∧ FiniteItems xs := by
  simp only [FiniteItems, itemDecimals, List.forall_mem_append]
  rfl

theorem finiteMembers_cons (key : String) {x : Json} {ms : List (String × Json)} :
    FiniteMembers ((key, x) :: ms) ↔ x.Finite ∧ FiniteMembers ms := by
  simp only [FiniteMembers, memberDecimals, List.forall_mem_append]
  rfl

theorem close_ne_chars (x : Json) (r r' : List Char) : ']' :: r ≠ x.chars ++ r' := by
  obtain ⟨c, cs, hcs, -, hc⟩ := exists_chars x
  rw [hcs]
  exact fun h => hc (List.cons.inj h).1.symm

mutual

/-- A value ends where its text does, so what follows is told apart. -/
theorem chars_inj : (j k : Json) → j.Finite → k.Finite → {r r' : List Char} → EndsNumber r →
    EndsNumber r' → j.chars ++ r = k.chars ++ r' → j = k ∧ r = r'
  | .null, k, hj, hk, r, r', _, _, h => by
    obtain rfl : k = .null := by cases k <;> cases shape_eq hj hk h; rfl
    exact ⟨rfl, List.append_cancel_left h⟩
  | .bool b, k, hj, hk, r, r', _, _, h => by
    obtain rfl : k = .bool b := by cases k <;> cases shape_eq hj hk h; rfl
    exact ⟨rfl, List.append_cancel_left h⟩
  | .int n, k, hj, hk, r, r', hr, hr', h =>
    number_inj hj hk rfl (shape_eq hj hk h).symm hr hr' h
  | .float x, k, hj, hk, r, r', hr, hr', h =>
    number_inj hj hk rfl (shape_eq hj hk h).symm hr hr' h
  | .string s, k, hj, hk, r, r', _, _, h => by
    obtain ⟨s', rfl⟩ : ∃ s', k = .string s' := by cases k <;> cases shape_eq hj hk h; exact ⟨_, rfl⟩
    obtain ⟨rfl, hr⟩ := stringChars_inj h
    exact ⟨rfl, hr⟩
  | .array items, k, hj, hk, r, r', _, _, h => by
    obtain ⟨items', rfl⟩ : ∃ items', k = .array items' := by
      cases k <;> cases shape_eq hj hk h; exact ⟨_, rfl⟩
    match items, items' with
    | [], [] => exact ⟨rfl, List.append_cancel_left h⟩
    | [], y :: ys =>
      simp only [chars, List.cons_append, List.nil_append, List.append_assoc] at h
      exact absurd (List.cons.inj h).2 (close_ne_chars y _ _)
    | x :: xs, [] =>
      simp only [chars, List.cons_append, List.nil_append, List.append_assoc] at h
      exact absurd (List.cons.inj h).2.symm (close_ne_chars x _ _)
    | x :: xs, y :: ys =>
      obtain ⟨hx, hxs⟩ := finiteItems_cons.mp hj
      obtain ⟨hy, hys⟩ := finiteItems_cons.mp hk
      simp only [chars, List.cons_append, List.append_assoc] at h
      obtain ⟨rfl, hrest⟩ := chars_inj x y hx hy (endsNumber_itemChars xs r)
        (endsNumber_itemChars ys r') (List.cons.inj h).2
      obtain ⟨rfl, hr⟩ := itemChars_inj xs ys hxs hys hrest
      exact ⟨rfl, hr⟩
  | .object members, k, hj, hk, r, r', _, _, h => by
    obtain ⟨members', rfl⟩ : ∃ members', k = .object members' := by
      cases k <;> cases shape_eq hj hk h; exact ⟨_, rfl⟩
    match members, members' with
    | [], [] => exact ⟨rfl, List.append_cancel_left h⟩
    | [], _ :: _ => exact absurd (List.cons.inj (List.cons.inj h).2).1 (by decide)
    | _ :: _, [] => exact absurd (List.cons.inj (List.cons.inj h).2).1 (by decide)
    | (key, x) :: ms, (key', y) :: ms' =>
      obtain ⟨hx, hms⟩ := (finiteMembers_cons key).mp hj
      obtain ⟨hy, hms'⟩ := (finiteMembers_cons key').mp hk
      simp only [chars, List.cons_append, List.append_assoc] at h
      obtain ⟨rfl, hvalue⟩ := stringChars_inj (List.cons.inj h).2
      obtain ⟨rfl, hrest⟩ := chars_inj x y hx hy (endsNumber_memberChars ms r)
        (endsNumber_memberChars ms' r') (List.cons.inj hvalue).2
      obtain ⟨rfl, hr⟩ := memberChars_inj ms ms' hms hms' hrest
      exact ⟨rfl, hr⟩

theorem itemChars_inj : (xs ys : List Json) → FiniteItems xs → FiniteItems ys →
    {r r' : List Char} → itemChars xs ++ r = itemChars ys ++ r' → xs = ys ∧ r = r'
  | [], [], _, _, r, r', h => ⟨rfl, List.append_cancel_left h⟩
  | [], _ :: _, _, _, r, r', h => absurd (List.cons.inj h).1 (by decide)
  | _ :: _, [], _, _, r, r', h => absurd (List.cons.inj h).1 (by decide)
  | x :: xs, y :: ys, hj, hk, r, r', h => by
    obtain ⟨hx, hxs⟩ := finiteItems_cons.mp hj
    obtain ⟨hy, hys⟩ := finiteItems_cons.mp hk
    simp only [itemChars, List.cons_append, List.append_assoc] at h
    obtain ⟨rfl, hrest⟩ := chars_inj x y hx hy (endsNumber_itemChars xs r)
      (endsNumber_itemChars ys r') (List.cons.inj h).2
    obtain ⟨rfl, hr⟩ := itemChars_inj xs ys hxs hys hrest
    exact ⟨rfl, hr⟩

theorem memberChars_inj : (ms ms' : List (String × Json)) → FiniteMembers ms → FiniteMembers ms' →
    {r r' : List Char} → memberChars ms ++ r = memberChars ms' ++ r' → ms = ms' ∧ r = r'
  | [], [], _, _, r, r', h => ⟨rfl, List.append_cancel_left h⟩
  | [], _ :: _, _, _, r, r', h => absurd (List.cons.inj h).1 (by decide)
  | _ :: _, [], _, _, r, r', h => absurd (List.cons.inj h).1 (by decide)
  | (key, x) :: ms, (key', y) :: ms', hj, hk, r, r', h => by
    obtain ⟨hx, hms⟩ := (finiteMembers_cons key).mp hj
    obtain ⟨hy, hms'⟩ := (finiteMembers_cons key').mp hk
    simp only [memberChars, List.cons_append, List.append_assoc] at h
    obtain ⟨rfl, hvalue⟩ := stringChars_inj (List.cons.inj h).2
    obtain ⟨rfl, hrest⟩ := chars_inj x y hx hy (endsNumber_memberChars ms r)
      (endsNumber_memberChars ms' r') (List.cons.inj hvalue).2
    obtain ⟨rfl, hr⟩ := memberChars_inj ms ms' hms hms' hrest
    exact ⟨rfl, hr⟩

end

theorem text_inj (hj : j.Finite) (hk : k.Finite) (h : j.text = k.text) : j = k := by
  have hchars : j.chars ++ [] = k.chars ++ [] := by
    rw [List.append_nil, List.append_nil]
    exact String.ofList_injective h
  exact (chars_inj j k hj hk endsNumber_nil endsNumber_nil hchars).1

def Printable (cs : List Char) : Prop := ∀ c ∈ cs, 32 ≤ c.toNat

variable {cs ds : List Char}

@[simp] theorem printable_nil : Printable [] := by simp [Printable]

@[simp] theorem printable_cons {c : Char} : Printable (c :: cs) ↔ 32 ≤ c.toNat ∧ Printable cs := by
  simp [Printable]

@[simp] theorem printable_append : Printable (cs ++ ds) ↔ Printable cs ∧ Printable ds :=
  List.forall_mem_append

theorem printable_digits (hcs : ∀ c ∈ cs, c.isDigit = true) : Printable cs := by
  intro c hc
  have hdigit : '0' ≤ c := by
    have h := hcs c hc
    simp only [Char.isDigit, Bool.and_eq_true, decide_eq_true_eq] at h
    exact h.1
  exact le_trans (show 32 ≤ '0'.toNat by decide) hdigit

theorem printable_token (ht : t.Proper) : Printable t.chars := by
  have hwhole := printable_digits ht.whole_digits
  have hfraction := printable_digits ht.fraction_digits
  have hexponent : Printable (NumberToken.exponentChars t.exponent) := by
    cases he : t.exponent with
    | none => exact printable_nil
    | some e =>
      have hdigits := printable_digits (ht.exponent_digits e he).2
      have hsign : ∀ b : Bool, 32 ≤ (if b then '-' else '+').toNat := by decide
      simp only [NumberToken.exponentChars, printable_cons]
      exact ⟨by decide, hsign _, hdigits⟩
  unfold NumberToken.chars
  simp only [printable_append]
  refine ⟨⟨⟨?_, hwhole⟩, ?_⟩, hexponent⟩
  · split <;> simp
  · split
    · exact printable_nil
    · exact printable_cons.mpr ⟨by decide, hfraction⟩

theorem printable_escape (c : Char) : Printable (escape c) := by
  have hdigit : ∀ n < 16, 32 ≤ (Nat.digitChar n).toNat := by decide
  unfold escape
  split_ifs
  all_goals try simp
  · rename_i hc
    have hhigh := hdigit (c.toNat / 16) (by omega)
    have hlow := hdigit (c.toNat % 16) (by omega)
    exact ⟨hhigh, hlow⟩
  · rename_i hc
    omega

theorem printable_stringChars (s : String) : Printable (stringChars s) := by
  have hescaped : Printable (s.toList.flatMap escape) := by
    intro c hc
    obtain ⟨d, -, hd⟩ := List.mem_flatMap.mp hc
    exact printable_escape d c hd
  simp [stringChars, hescaped]

mutual

theorem printable_chars : (j : Json) → Printable j.chars
  | .null => by simp [chars]
  | .bool true => by simp [chars]
  | .bool false => by simp [chars]
  | .int n => by
    rw [chars, ← chars_intToken]
    exact printable_token (proper_intToken n)
  | .float x => by
    rw [chars]
    cases hx : floatToken? x with
    | none =>
      simp [floatChars_of_eq_none hx]
    | some t =>
      obtain ⟨hchars, hproper, -⟩ := floatChars_of_eq_some hx
      rw [hchars]
      exact printable_token hproper
  | .string s => printable_stringChars s
  | .array [] => by simp [chars]
  | .array (x :: xs) => by
    simp [chars, printable_chars x, printable_itemChars xs]
  | .object [] => by simp [chars]
  | .object ((k, x) :: ms) => by
    simp [chars, printable_stringChars k, printable_chars x, printable_memberChars ms]

theorem printable_itemChars : (xs : List Json) → Printable (itemChars xs)
  | [] => by simp [itemChars]
  | x :: xs => by
    simp [itemChars, printable_chars x, printable_itemChars xs]

theorem printable_memberChars : (ms : List (String × Json)) → Printable (memberChars ms)
  | [] => by simp [memberChars]
  | (k, x) :: ms => by
    simp [memberChars, printable_stringChars k, printable_chars x, printable_memberChars ms]

end

end Json

end LayerGraph
