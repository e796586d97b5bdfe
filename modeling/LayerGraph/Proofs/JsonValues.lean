import LayerGraph.JsonDecoder
import LayerGraph.Proofs.JsonText

namespace LayerGraph

namespace Json

mutual

/-- The doubles in a value, in the order of the text. -/
def decimals : Json → List Float
  | .float x => [x]
  | .array items => itemDecimals items
  | .object members => memberDecimals members
  | _ => []

def itemDecimals : List Json → List Float
  | [] => []
  | x :: xs => x.decimals ++ itemDecimals xs

def memberDecimals : List (String × Json) → List Float
  | [] => []
  | (_, x) :: ms => x.decimals ++ memberDecimals ms

end

section

variable {α : Type} {ms : List (String × α)}

theorem put_of_not_mem {key : String} (hkey : key ∉ ms.map (·.1)) (v : α) :
    put key v ms = ms ++ [(key, v)] := by
  induction ms with
  | nil => rfl
  | cons m ms ih =>
    rw [List.map_cons, List.mem_cons, not_or] at hkey
    rw [put, if_neg (Ne.symm hkey.1), ih hkey.2]
    rfl

theorem map_fst_put {key : String} (hkey : key ∈ ms.map (·.1)) (v : α) :
    (put key v ms).map (·.1) = ms.map (·.1) := by
  induction ms with
  | nil => simp at hkey
  | cons m ms ih =>
    by_cases hm : m.1 = key
    · rw [put, if_pos hm]
      rfl
    · have hrest : key ∈ ms.map (·.1) := by
        rcases List.mem_cons.mp hkey with h | h
        · exact absurd h.symm hm
        · exact h
      rw [put, if_neg hm, List.map_cons, ih hrest]
      rfl

theorem nodup_put (hms : (ms.map (·.1)).Nodup) (key : String) (v : α) :
    ((put key v ms).map (·.1)).Nodup := by
  by_cases hkey : key ∈ ms.map (·.1)
  · rw [map_fst_put hkey]
    exact hms
  · rw [put_of_not_mem hkey, List.map_append, List.nodup_append]
    refine ⟨hms, List.nodup_singleton _, ?_⟩
    intro a ha b hb hab
    obtain rfl : b = key := by simpa using hb
    exact hkey (hab ▸ ha)

theorem mem_put {key : String} {v : α} {m : String × α} (hm : m ∈ put key v ms) :
    m.2 = v ∨ m ∈ ms := by
  induction ms with
  | nil =>
    obtain rfl : m = (key, v) := by simpa [put] using hm
    exact .inl rfl
  | cons n ms ih =>
    rw [put] at hm
    split at hm
    · rcases List.mem_cons.mp hm with rfl | hm
      · exact .inl rfl
      · exact .inr (List.mem_cons_of_mem n hm)
    · rcases List.mem_cons.mp hm with rfl | hm
      · exact .inr List.mem_cons_self
      · exact (ih hm).imp id (List.mem_cons_of_mem n)

/-- Settling goes through the members and keeps what holds of those it has. -/
theorem settle_induct {P : List (String × α) → Prop} (hnil : P [])
    (hput : ∀ acc, P acc → ∀ m ∈ ms, P (put m.1 m.2 acc)) : P (settle ms) := by
  suffices h : ∀ acc, P acc → P (ms.foldl (fun acc m => put m.1 m.2 acc) acc) from h [] hnil
  induction ms with
  | nil => exact fun _ hacc => hacc
  | cons m ms ih =>
    intro acc hacc
    exact ih (fun acc hacc n hn => hput acc hacc n (List.mem_cons_of_mem m hn)) _
      (hput acc hacc m List.mem_cons_self)

theorem nodup_settle (ms : List (String × α)) : ((settle ms).map (·.1)).Nodup :=
  settle_induct (P := fun acc => (acc.map (·.1)).Nodup) List.nodup_nil
    fun _ hacc m _ => nodup_put hacc m.1 m.2

theorem settle_eq_self (hms : (ms.map (·.1)).Nodup) : settle ms = ms := by
  -- the members settled so far stand in front
  suffices h : ∀ acc : List (String × α), ((acc ++ ms).map (·.1)).Nodup →
      ms.foldl (fun acc m => put m.1 m.2 acc) acc = acc ++ ms from h [] hms
  clear hms
  induction ms with
  | nil => simp
  | cons m ms ih =>
    intro acc hacc
    have hm : m.1 ∉ acc.map (·.1) := by
      rw [List.map_append, List.nodup_append] at hacc
      intro hm
      exact hacc.2.2 m.1 hm m.1 (by simp) rfl
    have hassoc : acc ++ m :: ms = (acc ++ [m]) ++ ms := by simp
    rw [List.foldl_cons, put_of_not_mem hm, ih _ (hassoc ▸ hacc), hassoc]

end

variable {ms : List (String × Json)} {depth : Nat}

theorem membersFit_iff : MembersFit depth ms ↔ ∀ m ∈ ms, m.2.Fits depth := by
  induction ms with
  | nil => simp [MembersFit]
  | cons m ms ih => simp [MembersFit, ih]

theorem membersFit_settle (hms : MembersFit depth ms) : MembersFit depth (settle ms) := by
  rw [membersFit_iff] at hms ⊢
  apply settle_induct (P := fun acc : List (String × Json) => ∀ m ∈ acc, m.2.Fits depth)
  · simp
  · intro acc hacc m hm n hn
    rcases mem_put hn with hn | hn
    · exact hn ▸ hms m hm
    · exact hacc n hn

end Json

namespace Document

theorem map_fst_ofPrintedMembers (ms : List (String × Json)) :
    (ofPrintedMembers ms).map (·.1) = ms.map (·.1) := by
  induction ms with
  | nil => rfl
  | cons m ms ih => exact congrArg (m.1 :: ·) ih

theorem jsonItems_cons_eq_ok {d : Document} {ds : List Document} {xs : List Json} :
    jsonItems (d :: ds) = .ok xs ↔
      ∃ x ys, d.json = .ok x ∧ jsonItems ds = .ok ys ∧ xs = x :: ys := by
  rw [jsonItems]
  cases d.json <;> cases jsonItems ds <;>
    simp [bind, Except.bind, pure, Except.pure, eq_comm]

theorem jsonMembers_cons_eq_ok {k : String} {d : Document} {ds : List (String × Document)}
    {xs : List (String × Json)} :
    jsonMembers ((k, d) :: ds) = .ok xs ↔
      ∃ x ys, d.json = .ok x ∧ jsonMembers ds = .ok ys ∧ xs = (k, x) :: ys := by
  rw [jsonMembers]
  cases d.json <;> cases jsonMembers ds <;>
    simp [bind, Except.bind, pure, Except.pure, eq_comm]

theorem json_array_eq_ok {ds : List Document} {ending : Ending} {j : Json} :
    json (.array ds ending) = .ok j ↔
      ending = .closed ∧ ∃ xs, jsonItems ds = .ok xs ∧ j = .array xs := by
  rw [json]
  cases jsonItems ds <;> cases ending <;>
    simp [Ending.expectClosed, bind, Except.bind, pure, Except.pure, eq_comm]

theorem json_object_eq_ok {ds : List (String × Document)} {ending : Ending} {j : Json} :
    json (.object ds ending) = .ok j ↔
      ending = .closed ∧ ∃ ms, jsonMembers ds = .ok ms ∧ j = .object (Json.settle ms) := by
  rw [json]
  cases jsonMembers ds <;> cases ending <;>
    simp [Ending.expectClosed, bind, Except.bind, pure, Except.pure, eq_comm]

theorem map_fst_jsonMembers {ds : List (String × Document)} {ms : List (String × Json)}
    (h : jsonMembers ds = .ok ms) : ms.map (·.1) = ds.map (·.1) := by
  induction ds generalizing ms with
  | nil =>
    obtain rfl : [] = ms := by simpa [jsonMembers] using h
    rfl
  | cons d ds ih =>
    obtain ⟨x, ys, -, hys, rfl⟩ := jsonMembers_cons_eq_ok.mp h
    exact congrArg (d.1 :: ·) (ih hys)

theorem json_ofFloat_eq_iff (x : Float) :
    (ofFloat x).json = .ok (.float x) ↔ KeepsFloat x := by
  unfold KeepsFloat
  rcases ofFloat_cases x with h | h | ⟨y, h⟩ <;> simp [h, json]

mutual

/-- A value that fits is the same after printing and reading just when its doubles are kept. -/
theorem json_ofPrinted_eq_iff {depth : Nat} : ∀ {j : Json}, j.Fits depth →
    ((ofPrinted j).json = .ok j ↔ ∀ x ∈ j.decimals, KeepsFloat x)
  | .null, _ | .bool _, _ | .int _, _ | .string _, _ => by simp [ofPrinted, json, Json.decimals]
  | .float x, _ => by
    rw [ofPrinted, json_ofFloat_eq_iff]
    simp [Json.decimals]
  | .array xs, hj => by
    rw [Json.Fits] at hj
    rw [ofPrinted, json_array_eq_ok, Json.decimals, ← jsonItems_ofPrintedItems_eq_iff hj.2]
    simp
  | .object ms, hj => by
    rw [Json.Fits] at hj
    obtain ⟨-, hkeys, hms⟩ := hj
    rw [ofPrinted, json_object_eq_ok, Json.decimals, ← jsonMembers_ofPrintedMembers_eq_iff hms]
    constructor
    · -- settling a printed object moves nothing, as its keys are distinct
      rintro ⟨-, ns, hns, he⟩
      have hnodup : (ns.map (·.1)).Nodup := by
        rw [map_fst_jsonMembers hns, map_fst_ofPrintedMembers]
        exact hkeys
      rw [Json.settle_eq_self hnodup, Json.object.injEq] at he
      rw [hns, he]
    · intro h
      exact ⟨rfl, ms, h, by rw [Json.settle_eq_self hkeys]⟩

theorem jsonItems_ofPrintedItems_eq_iff {depth : Nat} : ∀ {xs : List Json},
    Json.ItemsFit depth xs →
    (jsonItems (ofPrintedItems xs) = .ok xs ↔ ∀ x ∈ Json.itemDecimals xs, KeepsFloat x)
  | [], _ => by simp [ofPrintedItems, jsonItems, Json.itemDecimals]
  | x :: xs, h => by
    rw [Json.ItemsFit] at h
    have hx := json_ofPrinted_eq_iff h.1
    have hxs := jsonItems_ofPrintedItems_eq_iff h.2
    rw [ofPrintedItems, jsonItems_cons_eq_ok, Json.itemDecimals]
    simp only [List.mem_append, or_imp, forall_and, ← hx, ← hxs, List.cons.injEq]
    constructor
    · rintro ⟨y, ys, hy, hys, rfl, rfl⟩
      exact ⟨hy, hys⟩
    · rintro ⟨hy, hys⟩
      exact ⟨x, xs, hy, hys, rfl, rfl⟩

theorem jsonMembers_ofPrintedMembers_eq_iff {depth : Nat} : ∀ {ms : List (String × Json)},
    Json.MembersFit depth ms →
    (jsonMembers (ofPrintedMembers ms) = .ok ms ↔ ∀ x ∈ Json.memberDecimals ms, KeepsFloat x)
  | [], _ => by simp [ofPrintedMembers, jsonMembers, Json.memberDecimals]
  | (k, x) :: ms, h => by
    rw [Json.MembersFit] at h
    have hx := json_ofPrinted_eq_iff h.1
    have hms := jsonMembers_ofPrintedMembers_eq_iff h.2
    rw [ofPrintedMembers, jsonMembers_cons_eq_ok, Json.memberDecimals]
    simp only [List.mem_append, or_imp, forall_and, ← hx, ← hms, List.cons.injEq, Prod.mk.injEq,
      true_and]
    constructor
    · rintro ⟨y, ys, hy, hys, rfl, rfl⟩
      exact ⟨hy, hys⟩
    · rintro ⟨hy, hys⟩
      exact ⟨x, ms, hy, hys, rfl, rfl⟩

end

mutual

/-- A decoder finds the same in a value as in the text that it was read from. -/
theorem ofJson_eq_ofPrinted {depth : Nat} : ∀ {j j' : Json}, j.Fits depth →
    (ofPrinted j).json = .ok j' → ofJson j' = ofPrinted j
  | .null, _, _, h | .bool _, _, _, h | .int _, _, _, h | .string _, _, _, h => by
    simp only [ofPrinted, json, Except.ok.injEq] at h
    subst h
    rfl
  | .float x, _, _, h => by
    rw [ofPrinted] at h ⊢
    rcases ofFloat_cases x with hx | hx | ⟨y, hx⟩ <;> rw [hx] at h ⊢
    · simp only [json, Except.ok.injEq] at h
      subst h
      rfl
    · simp [json] at h
    · simp only [json, Except.ok.injEq] at h
      subst h
      rfl
  | .array xs, _, hj, h => by
    rw [Json.Fits] at hj
    rw [ofPrinted] at h ⊢
    obtain ⟨-, ys, hys, rfl⟩ := json_array_eq_ok.mp h
    rw [ofJson, ofItems_eq_ofPrintedItems hj.2 hys]
  | .object ms, _, hj, h => by
    rw [Json.Fits] at hj
    obtain ⟨-, hkeys, hms⟩ := hj
    rw [ofPrinted] at h ⊢
    obtain ⟨-, ns, hns, rfl⟩ := json_object_eq_ok.mp h
    have hnodup : (ns.map (·.1)).Nodup := by
      rw [map_fst_jsonMembers hns, map_fst_ofPrintedMembers]
      exact hkeys
    rw [Json.settle_eq_self hnodup, ofJson, ofMembers_eq_ofPrintedMembers hms hns]

theorem ofItems_eq_ofPrintedItems {depth : Nat} : ∀ {xs ys : List Json},
    Json.ItemsFit depth xs → jsonItems (ofPrintedItems xs) = .ok ys →
    ofItems ys = ofPrintedItems xs
  | [], _, _, h => by
    simp only [ofPrintedItems, jsonItems, Except.ok.injEq] at h
    subst h
    rfl
  | x :: xs, _, hfit, h => by
    rw [Json.ItemsFit] at hfit
    rw [ofPrintedItems] at h ⊢
    obtain ⟨y, ys, hy, hys, rfl⟩ := jsonItems_cons_eq_ok.mp h
    rw [ofItems, ofJson_eq_ofPrinted hfit.1 hy, ofItems_eq_ofPrintedItems hfit.2 hys]

theorem ofMembers_eq_ofPrintedMembers {depth : Nat} : ∀ {ms ns : List (String × Json)},
    Json.MembersFit depth ms → jsonMembers (ofPrintedMembers ms) = .ok ns →
    ofMembers ns = ofPrintedMembers ms
  | [], _, _, h => by
    simp only [ofPrintedMembers, jsonMembers, Except.ok.injEq] at h
    subst h
    rfl
  | (k, x) :: ms, _, hfit, h => by
    rw [Json.MembersFit] at hfit
    rw [ofPrintedMembers] at h ⊢
    obtain ⟨y, ns, hy, hns, rfl⟩ := jsonMembers_cons_eq_ok.mp h
    rw [ofMembers, ofJson_eq_ofPrinted hfit.1 hy, ofMembers_eq_ofPrintedMembers hfit.2 hns]

end

/-- An integer beyond 64 bits is read as a double. -/
theorem NumberToken.value_cases (t : NumberToken) :
    (∃ n : Int, (-2 ^ 63 ≤ n ∧ n < 2 ^ 64) ∧ t.value = .int n) ∨
      t.value = t.float?.elim .unreadable .float := by
  have hn := Int.ofNat_eq_natCast (digitsValue t.whole)
  unfold NumberToken.value
  simp only
  split
  · split
    · split
      · right; cases t.float? <;> rfl
      · rename_i h
        simp only [Bool.or_eq_true, decide_eq_true_eq, not_or] at h
        exact .inl ⟨_, by omega, rfl⟩
    · split
      · exact .inl ⟨_, by omega, rfl⟩
      · right; cases t.float? <;> rfl
  · right; cases t.float? <;> rfl

theorem NumberToken.value_json_fits {t : NumberToken} {j : Json} (depth : Nat)
    (hj : t.value.json = .ok j) : j.Fits depth := by
  obtain ⟨n, hn, ht⟩ | ht := t.value_cases
  · obtain rfl : Json.int n = j := by simpa [ht, json] using hj
    exact hn
  · cases hx : t.float? with
    | none => simp [ht, hx, json] at hj
    | some x =>
      obtain rfl : Json.float x = j := by simpa [ht, hx, json] using hj
      simp [Json.Fits]

theorem word_json_fits {name : String} {d : Document} {cs : List Char} {j : Json} {depth : Nat}
    (hd : ∀ j, d.json = .ok j → j.Fits depth) (hj : (word name d cs).1.json = .ok j) :
    j.Fits depth := by
  unfold word at hj
  split at hj
  · exact hd j hj
  · simp [json] at hj

/-- A container that is closed and not passed over is inside the limit. -/
theorem of_sealed_json {depth : Nat} {d : Document} {rest : Rest} {j : Json}
    (hrest : rest.isSome = true) (hj : (sealed depth d rest).1.json = .ok j) :
    0 < depth ∧ d.json = .ok j := by
  unfold sealed at hj
  by_cases hd : depth = 0
  · simp [hd, hrest, json] at hj
  · refine ⟨by omega, ?_⟩
    simpa [hd] using hj

/-- A container that is not closed is no value, so the rest of its text is of no account. -/
def ValuesFit (fuel : Nat) : Prop :=
  ∀ (depth : Nat) (cs : List Char) (j : Json), (value fuel depth cs).1.json = .ok j → j.Fits depth

/-- Items that were read, how they end, and what is behind them. -/
structure ItemsReadFit (depth : Nat) (read : List Document × Ending × Rest) : Prop where
  isSome_rest : read.2.1 = .closed → read.2.2.isSome = true
  fit : ∀ xs, jsonItems read.1 = .ok xs → Json.ItemsFit depth xs

structure MembersReadFit (depth : Nat) (read : List (String × Document) × Ending × Rest) :
    Prop where
  isSome_rest : read.2.1 = .closed → read.2.2.isSome = true
  fit : ∀ ms, jsonMembers read.1 = .ok ms → Json.MembersFit depth ms

theorem json_array_fits {fuel depth : Nat} {cs : List Char} {j : Json}
    (hitems : ItemsReadFit (depth - 1) (arrayItems fuel (depth - 1) cs))
    (hj : (sealed depth (.array (arrayItems fuel (depth - 1) cs).1
      (arrayItems fuel (depth - 1) cs).2.1) (arrayItems fuel (depth - 1) cs).2.2).1.json = .ok j) :
    j.Fits depth := by
  by_cases he : (arrayItems fuel (depth - 1) cs).2.1 = .closed
  · obtain ⟨hd, hj⟩ := of_sealed_json (hitems.isSome_rest he) hj
    obtain ⟨-, xs, hxs, rfl⟩ := json_array_eq_ok.mp hj
    exact ⟨hd, hitems.fit xs hxs⟩
  · unfold sealed at hj
    split at hj
    · simp [json] at hj
    · exact absurd (json_array_eq_ok.mp hj).1 he

theorem json_object_fits {fuel depth : Nat} {cs : List Char} {j : Json}
    (hmembers : MembersReadFit (depth - 1) (objectMembers fuel (depth - 1) cs))
    (hj : (sealed depth (.object (objectMembers fuel (depth - 1) cs).1
      (objectMembers fuel (depth - 1) cs).2.1)
        (objectMembers fuel (depth - 1) cs).2.2).1.json = .ok j) :
    j.Fits depth := by
  by_cases he : (objectMembers fuel (depth - 1) cs).2.1 = .closed
  · obtain ⟨hd, hj⟩ := of_sealed_json (hmembers.isSome_rest he) hj
    obtain ⟨-, ms, hms, rfl⟩ := json_object_eq_ok.mp hj
    exact ⟨hd, Json.nodup_settle ms, Json.membersFit_settle (hmembers.fit ms hms)⟩
  · unfold sealed at hj
    split at hj
    · simp [json] at hj
    · exact absurd (json_object_eq_ok.mp hj).1 he

theorem valuesFit_succ {fuel : Nat}
    (hitems : ∀ depth cs, ItemsReadFit depth (arrayItems fuel depth cs))
    (hmembers : ∀ depth cs, MembersReadFit depth (objectMembers fuel depth cs)) :
    ValuesFit (fuel + 1) := by
  intro depth cs j hj
  have hplain : ∀ d : Document, d = .null ∨ (∃ b, d = .bool b) ∨ (∃ s, d = .string s) →
      ∀ j, d.json = .ok j → j.Fits depth := by
    rintro d (rfl | ⟨b, rfl⟩ | ⟨s, rfl⟩) j hd
    · obtain rfl : Json.null = j := by simpa [json] using hd
      simp [Json.Fits]
    · obtain rfl : Json.bool b = j := by simpa [json] using hd
      simp [Json.Fits]
    · obtain rfl : Json.string s = j := by simpa [json] using hd
      simp [Json.Fits]
  unfold value at hj
  split at hj
  · split at hj
    · obtain ⟨hd, hj⟩ := of_sealed_json rfl hj
      obtain ⟨-, xs, hxs, rfl⟩ := json_array_eq_ok.mp hj
      obtain rfl : [] = xs := by simpa [jsonItems] using hxs
      exact ⟨hd, trivial⟩
    · exact json_array_fits (hitems _ _) hj
  · split at hj
    · obtain ⟨hd, hj⟩ := of_sealed_json rfl hj
      obtain ⟨-, ms, hms, rfl⟩ := json_object_eq_ok.mp hj
      obtain rfl : [] = ms := by simpa [jsonMembers] using hms
      exact ⟨hd, Json.nodup_settle [], trivial⟩
    · exact json_object_fits (hmembers _ _) hj
  · split at hj
    · simp [json] at hj
    · simp [json] at hj
    · exact hplain _ (.inr (.inr ⟨_, rfl⟩)) j hj
  · exact word_json_fits (hplain _ (.inl rfl)) hj
  · exact word_json_fits (hplain _ (.inr (.inl ⟨true, rfl⟩))) hj
  · exact word_json_fits (hplain _ (.inr (.inl ⟨false, rfl⟩))) hj
  · split at hj
    · simp [json] at hj
    · exact NumberToken.value_json_fits depth hj

theorem itemsReadFit_succ {fuel : Nat} (hvalue : ValuesFit fuel)
    (hitems : ∀ depth cs, ItemsReadFit depth (arrayItems fuel depth cs)) (depth : Nat)
    (cs : List Char) : ItemsReadFit depth (arrayItems (fuel + 1) depth cs) := by
  -- the last item, whatever is behind it
  have hone : ∀ d r, value fuel depth cs = (d, r) → ∀ xs, jsonItems [d] = .ok xs →
      Json.ItemsFit depth xs := by
    intro d r hd xs hxs
    obtain ⟨x, ys, hx, hys, rfl⟩ := jsonItems_cons_eq_ok.mp hxs
    obtain rfl : [] = ys := by simpa [jsonItems] using hys
    exact ⟨hvalue depth cs x (by rw [hd]; exact hx), trivial⟩
  unfold arrayItems
  split
  · rename_i d hd
    exact ⟨nofun, hone d none hd⟩
  · rename_i d r hd
    split
    · rename_i r' _
      refine ⟨(hitems depth r').isSome_rest, ?_⟩
      intro xs hxs
      obtain ⟨x, ys, hx, hys, rfl⟩ := jsonItems_cons_eq_ok.mp hxs
      exact ⟨hvalue depth cs x (by rw [hd]; exact hx), (hitems depth r').fit ys hys⟩
    · exact ⟨fun _ => rfl, hone d (some r) hd⟩
    · exact ⟨nofun, hone d (some r) hd⟩

theorem membersReadFit_nil {depth : Nat} {ending : Ending} {rest : Rest}
    (h : ending = .closed → rest.isSome = true) : MembersReadFit depth ([], ending, rest) where
  isSome_rest := h
  fit ms hms := by
    obtain rfl : [] = ms := by simpa [jsonMembers] using hms
    exact trivial

/-- What is behind a member's name: a colon and a value. -/
def memberValue (fuel depth : Nat) (cs : List Char) : Document × Rest :=
  match skipSpace cs with
  | ':' :: r => value fuel depth r
  | _ => (.broken, none)

/-- The members behind a value, if it ends. -/
def membersBehind (fuel depth : Nat) : Rest → List (String × Document) × Ending × Rest
  | none => ([], .broken, none)
  | some r =>
    match skipSpace r with
    | ',' :: r => objectMembers fuel depth r
    | '\x7d' :: r => ([], .closed, some r)
    | _ => ([], .broken, none)

theorem objectMembers_succ (fuel depth : Nat) (cs : List Char) :
    objectMembers (fuel + 1) depth cs =
      match skipSpace cs with
      | '\x22' :: r =>
        match stringRest r with
        | none => ([], .broken, none)
        | some (key, r) =>
          let found := memberValue fuel depth r
          let more := membersBehind fuel depth found.2
          match key with
          | some s => ((s, found.1) :: more.1, more.2)
          | none => ([], if more.2.2.isSome then .unreadable else .broken, more.2.2)
      | _ => ([], .broken, none) := by
  rw [objectMembers]
  rfl

theorem memberValue_json_fits {fuel depth : Nat} {cs : List Char} {j : Json}
    (hvalue : ValuesFit fuel) (hj : (memberValue fuel depth cs).1.json = .ok j) :
    j.Fits depth := by
  unfold memberValue at hj
  split at hj
  · exact hvalue depth _ j hj
  · simp [json] at hj

theorem membersReadFit_behind {fuel : Nat}
    (hmembers : ∀ depth cs, MembersReadFit depth (objectMembers fuel depth cs)) (depth : Nat)
    (rest : Rest) : MembersReadFit depth (membersBehind fuel depth rest) := by
  unfold membersBehind
  split
  · exact membersReadFit_nil nofun
  · split
    · exact hmembers depth _
    · exact membersReadFit_nil fun _ => rfl
    · exact membersReadFit_nil nofun

theorem membersReadFit_succ {fuel : Nat} (hvalue : ValuesFit fuel)
    (hmembers : ∀ depth cs, MembersReadFit depth (objectMembers fuel depth cs)) (depth : Nat)
    (cs : List Char) : MembersReadFit depth (objectMembers (fuel + 1) depth cs) := by
  rw [objectMembers_succ]
  split
  · split
    · exact membersReadFit_nil nofun
    · rename_i r key r' _
      cases key with
      | none =>
        have hne : ∀ b : Bool, (if b = true then Ending.unreadable else .broken) ≠ .closed := by
          decide
        exact membersReadFit_nil fun h => absurd h (hne _)
      | some k =>
        have hmore := membersReadFit_behind hmembers depth (memberValue fuel depth r').2
        refine ⟨hmore.isSome_rest, ?_⟩
        intro ms hms
        obtain ⟨x, ys, hx, hys, rfl⟩ := jsonMembers_cons_eq_ok.mp hms
        exact ⟨memberValue_json_fits hvalue hx, hmore.fit ys hys⟩
  · exact membersReadFit_nil nofun

theorem readFit (fuel : Nat) :
    ValuesFit fuel ∧ (∀ depth cs, ItemsReadFit depth (arrayItems fuel depth cs)) ∧
      ∀ depth cs, MembersReadFit depth (objectMembers fuel depth cs) := by
  induction fuel with
  | zero =>
    refine ⟨?_, ?_, ?_⟩
    · intro depth cs j hj
      simp [value, json] at hj
    · intro depth cs
      refine ⟨by simp [arrayItems], ?_⟩
      intro xs hxs
      obtain rfl : xs = [] := by simpa [arrayItems, jsonItems, eq_comm] using hxs
      exact trivial
    · intro depth cs
      exact membersReadFit_nil (by simp)
  | succ fuel ih =>
    obtain ⟨hvalue, hitems, hmembers⟩ := ih
    exact ⟨valuesFit_succ hitems hmembers, itemsReadFit_succ hvalue hitems,
      membersReadFit_succ hvalue hmembers⟩

/-- A value that was read nests, counts and names its members as a printed one may. -/
theorem fits_of_read {text : String} {j : Json} (hj : (read text).document.json = .ok j) :
    j.Fits nestingLimit :=
  (readFit (2 * text.toList.length + 1)).1 nestingLimit text.toList j hj

end Document

theorem Decoder.ofText_text {α : Type} (dec : Decoder α) {j : Json}
    (hj : j.Fits Document.nestingLimit) :
    Decoder.ofText dec j.text = dec (Document.ofPrinted j) := by
  unfold Decoder.ofText
  rw [Document.read_text hj]
  cases h : dec (Document.ofPrinted j) <;> simp [h, bind, Except.bind, pure, Except.pure]

/-- Printing a value that fits and reading it again gives the same just when its doubles are kept. -/
theorem Decoder.ofText_json_text_iff {j : Json} (hj : j.Fits Document.nestingLimit) :
    Decoder.ofText Document.json j.text = .ok j ↔ ∀ x ∈ j.decimals, Document.KeepsFloat x := by
  rw [Decoder.ofText_text _ hj]
  exact Document.json_ofPrinted_eq_iff hj

/-- What a text is decoded to was found in what was read of it. -/
theorem Decoder.of_ofText_eq_ok {α : Type} {dec : Decoder α} {text : String} {a : α}
    (h : Decoder.ofText dec text = .ok a) : dec (Document.read text).document = .ok a := by
  unfold Decoder.ofText at h
  cases hr : dec (Document.read text).document with
  | error e => simp [hr, bind, Except.bind] at h
  | ok b =>
    simp only [hr, bind, Except.bind, pure, Except.pure] at h
    split at h
    · exact congrArg Except.ok (Except.ok.inj h)
    · exact absurd h (by simp [throw, throwThe, MonadExceptOf.throw])

theorem Decoder.fits_of_ofText {text : String} {j : Json}
    (h : Decoder.ofText Document.json text = .ok j) : j.Fits Document.nestingLimit :=
  Document.fits_of_read (Decoder.of_ofText_eq_ok h)

end LayerGraph
