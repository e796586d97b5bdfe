import LayerGraph.Proofs.NumberText

namespace LayerGraph

namespace Document

theorem hexDigit?_digitChar {n : Nat} (hn : n < 16) : hexDigit? (Nat.digitChar n) = some n := by
  have hall : ∀ m < 16, hexDigit? (Nat.digitChar m) = some m := by decide
  exact hall n hn

theorem hexUnit?_control {n : Nat} (hn : n < 32) :
    hexUnit? '0' '0' (Nat.digitChar (n / 16)) (Nat.digitChar (n % 16)) = some n := by
  have h0 : hexDigit? '0' = some 0 := rfl
  unfold hexUnit?
  rw [hexDigit?_digitChar (by omega), hexDigit?_digitChar (by omega), h0]
  simp only [Option.bind_eq_bind, Option.bind_some]
  congr 1
  omega

theorem stringTail_simple {e c : Char} (he : e ≠ 'u') (hc : simpleEscape? e = some c)
    (r : List Char) :
    stringTail ('\x5c' :: e :: r) = (stringTail r).map fun (us, r) => (c.toNat :: us, r) := by
  rw [stringTail.eq_def]
  split
  · contradiction
  · rename_i h
    exact absurd (List.cons.inj h).1 (by decide)
  · rename_i h
    exact absurd (List.cons.inj (List.cons.inj h).2).1 he
  · rename_i h
    obtain ⟨rfl, rfl⟩ := List.cons.inj (List.cons.inj h).2
    rw [hc]
    cases stringTail r <;> rfl
  · rename_i h1 h2 h
    obtain ⟨rfl, rfl⟩ := List.cons.inj h
    exact absurd rfl (h2 e r rfl)

theorem stringTail_plain {c : Char} (hquote : c ≠ '\x22') (hslash : c ≠ '\x5c')
    (hc : 32 ≤ c.toNat) (r : List Char) :
    stringTail (c :: r) = (stringTail r).map fun (us, r) => (c.toNat :: us, r) := by
  rw [stringTail.eq_def]
  split
  · contradiction
  · rename_i h
    exact absurd (List.cons.inj h).1 hquote
  · rename_i h
    exact absurd (List.cons.inj h).1 hslash
  · rename_i h
    exact absurd (List.cons.inj h).1 hslash
  · rename_i h
    obtain ⟨rfl, rfl⟩ := List.cons.inj h
    have hguard : (decide (32 ≤ c.toNat) && c != '\x5c') = true := by simp [hc, hslash]
    rw [hguard]
    cases stringTail r <;> rfl

theorem stringTail_escape (c : Char) (r : List Char) :
    stringTail (Json.escape c ++ r) = (stringTail r).map fun (us, r) => (c.toNat :: us, r) := by
  unfold Json.escape
  split
  · subst_vars; exact stringTail_simple (by decide) rfl r
  split
  · subst_vars; exact stringTail_simple (by decide) rfl r
  split
  · subst_vars; exact stringTail_simple (by decide) rfl r
  split
  · subst_vars; exact stringTail_simple (by decide) rfl r
  split
  · subst_vars; exact stringTail_simple (by decide) rfl r
  split
  · subst_vars; exact stringTail_simple (by decide) rfl r
  split
  · subst_vars; exact stringTail_simple (by decide) rfl r
  split
  · rename_i hc
    simp only [List.cons_append, List.nil_append, stringTail, hexUnit?_control hc]
    cases stringTail r <;> rfl
  · rename_i hquote hslash _ _ _ _ _ hc
    exact stringTail_plain hquote hslash (by omega) r

theorem stringTail_flatMap_escape (cs r : List Char) :
    stringTail (cs.flatMap Json.escape ++ '\x22' :: r) = some (cs.map Char.toNat, r) := by
  induction cs with
  | nil => rfl
  | cons c cs ih =>
    rw [List.flatMap_cons, List.append_assoc, stringTail_escape, ih]
    rfl

theorem not_isSurrogate (c : Char) :
    isHighSurrogate c.toNat = false ∧ isLowSurrogate c.toNat = false := by
  have hc : c.toNat < 0xd800 ∨ 0xdfff < c.toNat ∧ c.toNat < 0x110000 := c.valid
  unfold isHighSurrogate isLowSurrogate
  simp only [Bool.and_eq_false_iff, decide_eq_false_iff_not]
  omega

theorem joinUnits_map_toNat (cs : List Char) : joinUnits (cs.map Char.toNat) = some cs := by
  induction cs with
  | nil => rfl
  | cons c cs ih =>
    obtain ⟨hhigh, hlow⟩ := not_isSurrogate c
    have hc : Char.ofNat c.toNat = c := Char.ofNat_toNat c
    cases cs with
    | nil => simp [joinUnits, hhigh, hlow, hc]
    | cons d cs =>
      simp only [List.map_cons] at ih ⊢
      simp [joinUnits, hhigh, hlow, hc, ih]

theorem stringRest_chars (s : String) (r : List Char) :
    stringRest (s.toList.flatMap Json.escape ++ '\x22' :: r) = some (some s, r) := by
  unfold stringRest
  rw [stringTail_flatMap_escape]
  simp [joinUnits_map_toNat]

end Document

namespace Json

mutual

/-- Containers nest at most `depth` deep, integers fit 64 bits, and no object repeats a key. -/
def Fits (depth : Nat) : Json → Prop
  | .int n => -2 ^ 63 ≤ n ∧ n < 2 ^ 64
  | .array items => 0 < depth ∧ ItemsFit (depth - 1) items
  | .object members => 0 < depth ∧ (members.map (·.1)).Nodup ∧ MembersFit (depth - 1) members
  | _ => True

def ItemsFit (depth : Nat) : List Json → Prop
  | [] => True
  | x :: xs => x.Fits depth ∧ ItemsFit depth xs

def MembersFit (depth : Nat) : List (String × Json) → Prop
  | [] => True
  | (_, x) :: ms => x.Fits depth ∧ MembersFit depth ms

end

end Json

namespace Document

mutual

/-- What is read of printed JSON. -/
def ofPrinted : Json → Document
  | .null => .null
  | .bool b => .bool b
  | .int n => .int n
  | .float x => ofFloat x
  | .string s => .string s
  | .array items => .array (ofPrintedItems items) .closed
  | .object members => .object (ofPrintedMembers members) .closed

def ofPrintedItems : List Json → List Document
  | [] => []
  | x :: xs => ofPrinted x :: ofPrintedItems xs

def ofPrintedMembers : List (String × Json) → List (String × Document)
  | [] => []
  | (k, x) :: ms => (k, ofPrinted x) :: ofPrintedMembers ms

end

theorem skipSpace_cons {c : Char} (hc : isSpace c = false) (r : List Char) :
    skipSpace (c :: r) = c :: r := by
  unfold skipSpace
  rw [List.dropWhile_cons_of_neg (by simp [hc])]

theorem isSpace_of_number {c : Char} (hc : c.isDigit = true ∨ c = '-') : isSpace c = false := by
  rcases hc with hc | rfl
  · unfold isSpace
    simp only [Bool.or_eq_false_iff, decide_eq_false_iff_not]
    refine ⟨⟨⟨?_, ?_⟩, ?_⟩, ?_⟩ <;> (rintro rfl; exact absurd hc (by decide))
  · rfl

/-- A value that starts like a number is read as one. -/
theorem value_number {c : Char} {t : NumberToken} {cs r : List Char} (fuel depth : Nat)
    (hc : c.isDigit = true ∨ c = '-') (ht : numberToken? (c :: cs) = some (t, r)) :
    value (fuel + 1) depth (c :: cs) = (t.value, some r) := by
  -- no other kind of value begins with a digit or a sign
  have hne : ∀ d : Char, d.isDigit = false → d ≠ '-' → c ≠ d := by
    rintro d hd hm rfl
    rcases hc with hc | hc
    · rw [hc] at hd
      exact absurd hd (by decide)
    · exact hm hc
  unfold value
  rw [skipSpace_cons (isSpace_of_number hc)]
  split
  · rename_i h
    exact absurd (List.cons.inj h).1 (hne _ (by decide) (by decide))
  · rename_i h
    exact absurd (List.cons.inj h).1 (hne _ (by decide) (by decide))
  · rename_i h
    exact absurd (List.cons.inj h).1 (hne _ (by decide) (by decide))
  · rename_i h
    exact absurd (List.cons.inj h).1 (hne _ (by decide) (by decide))
  · rename_i h
    exact absurd (List.cons.inj h).1 (hne _ (by decide) (by decide))
  · rename_i h
    exact absurd (List.cons.inj h).1 (hne _ (by decide) (by decide))
  · rw [ht]

/-- The text of a token starts with a digit or a sign. -/
theorem NumberToken.Proper.exists_chars {t : NumberToken} (ht : t.Proper) :
    ∃ c cs, t.chars = c :: cs ∧ (c.isDigit = true ∨ c = '-') := by
  unfold NumberToken.chars
  by_cases hn : t.negative = true
  · exact ⟨'-', _, by rw [if_pos hn]; rfl, .inr rfl⟩
  · cases hw : t.whole with
    | nil => exact absurd hw ht.whole_ne_nil
    | cons c cs =>
      exact ⟨c, _, by rw [if_neg hn]; rfl, .inl (ht.whole_digits c (hw ▸ List.mem_cons_self))⟩

theorem value_token {t : NumberToken} {r : List Char} (fuel depth : Nat) (ht : t.Proper)
    (hr : EndsNumber r) : value (fuel + 1) depth (t.chars ++ r) = (t.value, some r) := by
  obtain ⟨c, cs, hcs, hc⟩ := ht.exists_chars
  have htoken := numberToken?_chars ht hr
  rw [hcs, List.cons_append] at htoken ⊢
  exact value_number fuel depth hc htoken

theorem value_float (fuel depth : Nat) (x : Float) {r : List Char} (hr : EndsNumber r) :
    value (fuel + 1) depth (Json.floatChars x ++ r) = (ofFloat x, some r) := by
  unfold ofFloat
  cases ht : floatToken? x with
  | none =>
    rw [floatChars_of_eq_none ht]
    rfl
  | some t =>
    obtain ⟨hchars, hproper, -⟩ := floatChars_of_eq_some ht
    rw [hchars]
    exact value_token fuel depth hproper hr

/-- A value starts with neither space nor a closing bracket. -/
theorem exists_chars (j : Json) :
    ∃ c cs, j.chars = c :: cs ∧ isSpace c = false ∧ c ≠ ']' := by
  have htoken : ∀ t : NumberToken, t.Proper →
      ∃ c cs, t.chars = c :: cs ∧ isSpace c = false ∧ c ≠ ']' := by
    intro t ht
    obtain ⟨c, cs, hcs, hc⟩ := ht.exists_chars
    refine ⟨c, cs, hcs, isSpace_of_number hc, ?_⟩
    rintro rfl
    exact absurd hc (by decide)
  cases j with
  | null => exact ⟨'n', _, rfl, rfl, by decide⟩
  | bool b =>
    cases b with
    | true => exact ⟨'t', _, rfl, rfl, by decide⟩
    | false => exact ⟨'f', _, rfl, rfl, by decide⟩
  | int n =>
    have h := htoken (intToken n) (proper_intToken n)
    rw [chars_intToken] at h
    exact h
  | float x =>
    cases hx : floatToken? x with
    | none => exact ⟨'n', _, floatChars_of_eq_none hx, rfl, by decide⟩
    | some t =>
      obtain ⟨hchars, hproper, -⟩ := floatChars_of_eq_some hx
      have h := htoken t hproper
      rw [← hchars] at h
      exact h
  | string s => exact ⟨'\x22', _, rfl, rfl, by decide⟩
  | array items => cases items <;> exact ⟨'[', _, rfl, rfl, by decide⟩
  | object members =>
    cases members with
    | nil => exact ⟨'\x7b', _, rfl, rfl, by decide⟩
    | cons m ms => exact ⟨'\x7b', _, rfl, rfl, by decide⟩

theorem skipSpace_chars (j : Json) (r : List Char) :
    skipSpace (j.chars ++ r) = j.chars ++ r := by
  obtain ⟨c, cs, hcs, hspace, -⟩ := exists_chars j
  rw [hcs, List.cons_append, skipSpace_cons hspace]

theorem exists_itemChars (xs : List Json) :
    ∃ c cs, Json.itemChars xs = c :: cs ∧ (c = ',' ∨ c = ']') := by
  cases xs with
  | nil => exact ⟨']', [], rfl, .inr rfl⟩
  | cons x xs => exact ⟨',', _, rfl, .inl rfl⟩

theorem endsNumber_itemChars (xs : List Json) (r : List Char) :
    EndsNumber (Json.itemChars xs ++ r) := by
  obtain ⟨c, cs, hcs, hc⟩ := exists_itemChars xs
  rw [hcs]
  apply endsNumber_cons
  rcases hc with rfl | rfl <;> decide

theorem endsNumber_memberChars (ms : List (String × Json)) (r : List Char) :
    EndsNumber (Json.memberChars ms ++ r) := by
  cases ms with
  | nil => exact endsNumber_cons _ (by decide)
  | cons m ms => exact endsNumber_cons _ (by decide)

/-- The reader takes at most two steps for a character. -/
def ReadsValues (fuel : Nat) : Prop :=
  ∀ (j : Json) (depth : Nat) (r : List Char), j.Fits depth → EndsNumber r →
    2 * j.chars.length ≤ fuel → value fuel depth (j.chars ++ r) = (ofPrinted j, some r)

def ReadsItems (fuel : Nat) : Prop :=
  ∀ (x : Json) (xs : List Json) (depth : Nat) (r : List Char), x.Fits depth →
    Json.ItemsFit depth xs → 2 * (x.chars.length + (Json.itemChars xs).length) < fuel →
    arrayItems fuel depth (x.chars ++ (Json.itemChars xs ++ r)) =
      (ofPrinted x :: ofPrintedItems xs, .closed, some r)

def ReadsMembers (fuel : Nat) : Prop :=
  ∀ (k : String) (x : Json) (ms : List (String × Json)) (depth : Nat) (r : List Char),
    x.Fits depth → Json.MembersFit depth ms →
    2 * ((Json.stringChars k).length + x.chars.length + (Json.memberChars ms).length) < fuel →
    objectMembers fuel depth (Json.stringChars k ++ ':' :: (x.chars ++ (Json.memberChars ms ++ r))) =
      ((k, ofPrinted x) :: ofPrintedMembers ms, .closed, some r)

theorem sealed_of_pos {depth : Nat} (hd : 0 < depth) (d : Document) (rest : Rest) :
    sealed depth d rest = (d, rest) := by
  unfold sealed
  have h : (decide (depth = 0) && rest.isSome) = false := by
    have hne : depth ≠ 0 := by omega
    simp [hne]
  rw [h]
  rfl

theorem readsItems_succ {fuel : Nat} (hvalue : ReadsValues fuel) (hitems : ReadsItems fuel) :
    ReadsItems (fuel + 1) := by
  intro x xs depth r hx hxs hfuel
  have hv := hvalue x depth (Json.itemChars xs ++ r) hx (endsNumber_itemChars xs r) (by omega)
  unfold arrayItems
  rw [hv]
  cases xs with
  | nil => rfl
  | cons y ys =>
    simp only [Json.ItemsFit] at hxs
    -- a comma is printed between two items: the steps that are left suffice for the rest
    have hlen : (Json.itemChars (y :: ys)).length =
        y.chars.length + (Json.itemChars ys).length + 1 := by
      simp [Json.itemChars]
    have hrest := hitems y ys depth r hxs.1 hxs.2 (by omega)
    have hcomma : skipSpace (Json.itemChars (y :: ys) ++ r) =
        ',' :: (y.chars ++ (Json.itemChars ys ++ r)) := by
      simp only [Json.itemChars, List.cons_append, List.append_assoc]
      exact skipSpace_cons rfl _
    simp only [hcomma, hrest]
    rfl

theorem readsMembers_succ {fuel : Nat} (hvalue : ReadsValues fuel) (hmembers : ReadsMembers fuel) :
    ReadsMembers (fuel + 1) := by
  intro k x ms depth r hx hms hfuel
  have hv := hvalue x depth (Json.memberChars ms ++ r) hx (endsNumber_memberChars ms r) (by omega)
  have hkey : skipSpace (Json.stringChars k ++ ':' :: (x.chars ++ (Json.memberChars ms ++ r))) =
      '\x22' :: (k.toList.flatMap Json.escape ++
        '\x22' :: (':' :: (x.chars ++ (Json.memberChars ms ++ r)))) := by
    simp only [Json.stringChars, List.cons_append, List.append_assoc, List.nil_append]
    exact skipSpace_cons rfl _
  have hcolon : skipSpace (':' :: (x.chars ++ (Json.memberChars ms ++ r))) =
      ':' :: (x.chars ++ (Json.memberChars ms ++ r)) := skipSpace_cons rfl _
  unfold objectMembers
  rw [hkey]
  simp only [stringRest_chars, hcolon, hv]
  cases ms with
  | nil => rfl
  | cons m ms =>
    obtain ⟨l, y⟩ := m
    simp only [Json.MembersFit] at hms
    have hlen : (Json.memberChars ((l, y) :: ms)).length =
        (Json.stringChars l).length + y.chars.length + (Json.memberChars ms).length + 2 := by
      simp [Json.memberChars]
      omega
    have hrest := hmembers l y ms depth r hms.1 hms.2 (by omega)
    have hcomma : skipSpace (Json.memberChars ((l, y) :: ms) ++ r) =
        ',' :: (Json.stringChars l ++ ':' :: (y.chars ++ (Json.memberChars ms ++ r))) := by
      simp only [Json.memberChars, List.cons_append, List.append_assoc]
      exact skipSpace_cons rfl _
    simp only [hcomma, hrest]
    rfl

theorem value_string (fuel depth : Nat) (s : String) (r : List Char) :
    value (fuel + 1) depth ((Json.string s).chars ++ r) = (ofPrinted (.string s), some r) := by
  have hchars : (Json.string s).chars ++ r =
      '\x22' :: (s.toList.flatMap Json.escape ++ '\x22' :: r) := by
    simp [Json.chars, Json.stringChars]
  unfold value
  rw [hchars, skipSpace_cons rfl]
  simp only [stringRest_chars]
  rfl

theorem value_array {fuel depth : Nat} (hitems : ReadsItems fuel) {items : List Json}
    (hj : (Json.array items).Fits depth) (r : List Char)
    (hfuel : 2 * (Json.array items).chars.length ≤ fuel + 1) :
    value (fuel + 1) depth ((Json.array items).chars ++ r) =
      (ofPrinted (.array items), some r) := by
  simp only [Json.Fits] at hj
  cases items with
  | nil =>
    change sealed depth (.array [] .closed) (some r) = _
    rw [sealed_of_pos hj.1]
    rfl
  | cons x xs =>
    simp only [Json.ItemsFit] at hj
    have hlen : (Json.array (x :: xs)).chars.length =
        x.chars.length + (Json.itemChars xs).length + 1 := by simp [Json.chars]
    have hrest := hitems x xs (depth - 1) r hj.2.1 hj.2.2 (by omega)
    have hchars : (Json.array (x :: xs)).chars ++ r =
        '[' :: (x.chars ++ (Json.itemChars xs ++ r)) := by simp [Json.chars]
    obtain ⟨c, cs, hcs, hspace, hclose⟩ := exists_chars x
    unfold value
    rw [hchars, skipSpace_cons rfl]
    simp only [skipSpace_chars]
    rw [hcs, List.cons_append] at hrest ⊢
    split
    · -- an item does not begin with the closing bracket
      rename_i h
      exact absurd (List.cons.inj h).1 hclose
    · rw [hrest, sealed_of_pos hj.1]
      rfl

theorem value_object {fuel depth : Nat} (hmembers : ReadsMembers fuel)
    {members : List (String × Json)} (hj : (Json.object members).Fits depth) (r : List Char)
    (hfuel : 2 * (Json.object members).chars.length ≤ fuel + 1) :
    value (fuel + 1) depth ((Json.object members).chars ++ r) =
      (ofPrinted (.object members), some r) := by
  simp only [Json.Fits] at hj
  cases members with
  | nil =>
    change sealed depth (.object [] .closed) (some r) = _
    rw [sealed_of_pos hj.1]
    rfl
  | cons m ms =>
    obtain ⟨k, x⟩ := m
    simp only [Json.MembersFit] at hj
    have hlen : (Json.object ((k, x) :: ms)).chars.length =
        (Json.stringChars k).length + x.chars.length + (Json.memberChars ms).length + 2 := by
      simp [Json.chars]
      omega
    have hrest := hmembers k x ms (depth - 1) r hj.2.2.1 hj.2.2.2 (by omega)
    have hchars : (Json.object ((k, x) :: ms)).chars ++ r =
        '\x7b' :: (Json.stringChars k ++ ':' :: (x.chars ++ (Json.memberChars ms ++ r))) := by
      simp [Json.chars]
    have hkey : Json.stringChars k ++ ':' :: (x.chars ++ (Json.memberChars ms ++ r)) =
        '\x22' :: (k.toList.flatMap Json.escape ++
          '\x22' :: (':' :: (x.chars ++ (Json.memberChars ms ++ r)))) := by
      simp [Json.stringChars]
    unfold value
    rw [hchars, skipSpace_cons rfl]
    rw [hkey] at hrest ⊢
    simp only [skipSpace_cons (show isSpace '\x22' = false from rfl)]
    split
    · -- a member begins with the quote of its key
      rename_i h
      exact absurd (List.cons.inj h).1 (by decide)
    · rw [hrest, sealed_of_pos hj.1]
      rfl

theorem readsValues_succ {fuel : Nat} (hitems : ReadsItems fuel) (hmembers : ReadsMembers fuel) :
    ReadsValues (fuel + 1) := by
  intro j depth r hj hr hfuel
  cases j with
  | null => rfl
  | bool b => cases b <;> rfl
  | int n =>
    simp only [Json.Fits] at hj
    have h := value_token fuel depth (proper_intToken n) hr
    rw [chars_intToken, value_intToken hj.1 hj.2] at h
    exact h
  | float x => exact value_float fuel depth x hr
  | string s => exact value_string fuel depth s r
  | array items => exact value_array hitems hj r hfuel
  | object members => exact value_object hmembers hj r hfuel

theorem chars_length_pos (j : Json) : 0 < j.chars.length := by
  obtain ⟨c, cs, hcs, -⟩ := exists_chars j
  rw [hcs]
  exact Nat.succ_pos _

theorem reads (fuel : Nat) : ReadsValues fuel ∧ ReadsItems fuel ∧ ReadsMembers fuel := by
  -- the three readers call each other with one step less
  induction fuel with
  | zero =>
    refine ⟨?_, ?_, ?_⟩
    · intro j depth r _ _ hfuel
      have := chars_length_pos j
      omega
    · intro x xs depth r _ _ hfuel
      omega
    · intro k x ms depth r _ _ hfuel
      omega
  | succ fuel ih =>
    obtain ⟨hvalue, hitems, hmembers⟩ := ih
    exact ⟨readsValues_succ hitems hmembers, readsItems_succ hvalue hitems,
      readsMembers_succ hvalue hmembers⟩

/-- Printed JSON is read to its end. -/
theorem read_text {j : Json} (hj : j.Fits nestingLimit) : read j.text = ⟨ofPrinted j, true⟩ := by
  have h := (reads (2 * j.chars.length + 1)).1 j nestingLimit [] hj endsNumber_nil (by omega)
  rw [List.append_nil] at h
  unfold read Json.text
  simp only [String.toList_ofList, h]
  rfl

end Document

end LayerGraph
