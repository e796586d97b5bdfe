import LayerGraph.Proofs.Contents
import LayerGraph.Proofs.JsonValues
import LayerGraph.Proofs.Records

namespace LayerGraph

namespace Record

variable {α β : Type} {f : Record (α → β)} {r : Record α} {names : List String} {name : String}
  {dec : Decoder α} {absent : Except Fault α} {ms : List (String × Document)} {a : α} {b : β}

/-- The fields of the record go by these names. -/
structure Named (r : Record α) (names : List String) : Prop where
  takes : ∀ key ∈ names, ∀ d s, r.member key d s ≠ none
  ignores : ∀ key ∉ names, r.Ignores key

theorem named_field : (field names dec absent).Named names where
  takes key hkey d s := by simp [field, hkey]
  ignores key hkey := ignores_field (by simpa using hkey)

theorem named_map {k : α → β} (h : r.Named names) : (map k r).Named names := ⟨h.1, h.2⟩

theorem named_seq {others : List String} (hf : f.Named names) (hr : r.Named others) :
    (seq f r).Named (names ++ others) where
  takes key hkey d s := by
    by_cases hmem : key ∈ names
    · cases hm : f.member key d s.1 with
      | none => exact absurd hm (hf.takes key hmem d s.1)
      | some t => simp [seq, hm]
    · have hother : key ∈ others := (List.mem_append.mp hkey).resolve_left hmem
      simpa [seq, hf.ignores key hmem d s.1] using hr.takes key hother d s.2
  ignores key hkey := by
    rw [List.mem_append, not_or] at hkey
    exact ignores_seq (hf.ignores key hkey.1) (hr.ignores key hkey.2)

/-- Goes over the members, taking those of the record. -/
def Passes (r : Record α) : List (String × Document) → r.State → r.State → Prop
  | [], s, t => s = t
  | (key, d) :: ms, s, t =>
    ∃ u, (r.member key d s = some (.ok u) ∨ r.member key d s = none ∧ u = s) ∧ Passes r ms u t

/-- The value is read of the members. -/
def Reads (r : Record α) (ms : List (String × Document)) (a : α) : Prop :=
  ∃ t, r.Passes ms r.start t ∧ r.finish t = .ok a

theorem passes_of_members {ending : Ending} {s : r.State} (h : r.members ms ending s = .ok a) :
    ∃ t, r.Passes ms s t ∧ r.finish t = .ok a := by
  induction ms generalizing s with
  | nil =>
    simp only [members, bind_eq_ok_iff] at h
    obtain ⟨-, -, h⟩ := h
    exact ⟨s, rfl, h⟩
  | cons m ms ih =>
    rw [members] at h
    split at h
    · rename_i u hu
      obtain ⟨u', rfl, h⟩ := bind_eq_ok_iff.mp h
      obtain ⟨t, ht, ha⟩ := ih h
      exact ⟨t, ⟨u', .inl hu, ht⟩, ha⟩
    · rename_i hnone
      obtain ⟨-, -, h⟩ := bind_eq_ok_iff.mp h
      obtain ⟨t, ht, ha⟩ := ih h
      exact ⟨t, ⟨s, .inr ⟨hnone, rfl⟩, ht⟩, ha⟩

theorem reads_of_ofObject {ending : Ending} (h : r.ofObject (.object ms ending) = .ok a) :
    r.Reads ms a :=
  passes_of_members h

theorem passes_map {k : α → β} {s t : r.State} (h : (map k r).Passes ms s t) : r.Passes ms s t := by
  induction ms generalizing s with
  | nil => exact h
  | cons m ms ih =>
    obtain ⟨u, hu, h⟩ := h
    exact ⟨u, hu, ih h⟩

theorem reads_map {k : α → β} (h : (map k r).Reads ms b) : ∃ a, r.Reads ms a ∧ k a = b := by
  obtain ⟨t, ht, hb⟩ := h
  have hmap : k <$> r.finish t = .ok b := hb
  cases ha : r.finish t with
  | error e => simp [ha] at hmap
  | ok a => exact ⟨a, ⟨t, passes_map ht, ha⟩, by simpa [ha] using hmap⟩

theorem passes_refine {k : α → Except Fault β} {s t : r.State} (h : (refine r k).Passes ms s t) :
    r.Passes ms s t := by
  induction ms generalizing s with
  | nil => exact h
  | cons m ms ih =>
    obtain ⟨u, hu, h⟩ := h
    exact ⟨u, hu, ih h⟩

theorem reads_refine {k : α → Except Fault β} (h : (refine r k).Reads ms b) :
    ∃ a, r.Reads ms a ∧ k a = .ok b := by
  obtain ⟨t, ht, hb⟩ := h
  obtain ⟨a, ha, hk⟩ := bind_eq_ok_iff.mp hb
  exact ⟨a, ⟨t, passes_refine ht, ha⟩, hk⟩

/-- A member goes to the first record, or past it to the second. -/
theorem member_seq_cases {key : String} {d : Document} {s u : (seq f r).State}
    (hu : (seq f r).member key d s = some (.ok u) ∨ (seq f r).member key d s = none ∧ u = s) :
    f.member key d s.1 = some (.ok u.1) ∧ u.2 = s.2 ∨
      (f.member key d s.1 = none ∧ u.1 = s.1) ∧
        (r.member key d s.2 = some (.ok u.2) ∨ r.member key d s.2 = none ∧ u.2 = s.2) := by
  cases hm : f.member key d s.1 with
  | some v =>
    simp only [seq, hm] at hu
    cases v with
    | error e => simp at hu
    | ok v =>
      obtain rfl : (v, s.2) = u := Except.ok.inj (by simpa using hu)
      exact .inl ⟨rfl, rfl⟩
  | none =>
    simp only [seq, hm] at hu
    cases hv : r.member key d s.2 with
    | none =>
      rw [hv] at hu
      obtain rfl : u = s := (hu.resolve_left (by simp)).2
      exact .inr ⟨⟨rfl, rfl⟩, .inr ⟨rfl, rfl⟩⟩
    | some v =>
      cases v with
      | error e => simp [hv] at hu
      | ok v =>
        obtain rfl : (s.1, v) = u := Except.ok.inj (by simpa [hv] using hu)
        exact .inr ⟨⟨rfl, rfl⟩, .inl rfl⟩

theorem passes_seq_left {s t : (seq f r).State} (h : (seq f r).Passes ms s t) :
    f.Passes ms s.1 t.1 := by
  induction ms generalizing s with
  | nil => exact congrArg Prod.fst h
  | cons m ms ih =>
    obtain ⟨u, hu, h⟩ := h
    rcases member_seq_cases hu with ⟨htaken, -⟩ | ⟨hpassed, -⟩
    · exact ⟨u.1, .inl htaken, ih h⟩
    · exact ⟨u.1, .inr hpassed, ih h⟩

/-- The second record has what the names of the first leave. -/
theorem passes_seq_right (hf : f.Named names) {s t : (seq f r).State}
    (h : (seq f r).Passes ms s t) : r.Passes (ms.filter (·.1 ∉ names)) s.2 t.2 := by
  induction ms generalizing s with
  | nil => exact congrArg Prod.snd h
  | cons m ms ih =>
    obtain ⟨u, hu, h⟩ := h
    by_cases hm : m.1 ∈ names
    · have hkept : (m :: ms).filter (·.1 ∉ names) = ms.filter (·.1 ∉ names) := by simp [hm]
      rw [hkept]
      rcases member_seq_cases hu with ⟨-, hs⟩ | ⟨hpassed, -⟩
      · exact hs ▸ ih h
      · exact absurd hpassed.1 (hf.takes _ hm _ _)
    · have hkept : (m :: ms).filter (·.1 ∉ names) = m :: ms.filter (·.1 ∉ names) := by simp [hm]
      rw [hkept]
      rcases member_seq_cases hu with ⟨htaken, -⟩ | ⟨-, hu⟩
      · rw [hf.ignores _ hm] at htaken
        cases htaken
      · exact ⟨u.2, hu, ih h⟩

theorem reads_seq_left (h : (seq f r).Reads ms b) : ∃ g, f.Reads ms g ∧ ∃ a, g a = b := by
  obtain ⟨t, ht, hb⟩ := h
  obtain ⟨g, hg, hb⟩ := bind_eq_ok_iff.mp hb
  obtain ⟨a, -, hb⟩ := bind_eq_ok_iff.mp hb
  exact ⟨g, ⟨t.1, passes_seq_left ht, hg⟩, a, pure_eq_ok_iff.mp hb⟩

theorem reads_seq (hf : f.Named names) (h : (seq f r).Reads ms b) :
    ∃ g a, f.Reads ms g ∧ r.Reads (ms.filter (·.1 ∉ names)) a ∧ g a = b := by
  obtain ⟨t, ht, hb⟩ := h
  obtain ⟨g, hg, hb⟩ := bind_eq_ok_iff.mp hb
  obtain ⟨a, ha, hb⟩ := bind_eq_ok_iff.mp hb
  exact ⟨g, a, ⟨t.1, passes_seq_left ht, hg⟩, ⟨t.2, passes_seq_right hf ht, ha⟩,
    pure_eq_ok_iff.mp hb⟩

/-- A field that has its value keeps it. -/
theorem passes_field_some {t : Option α} (h : (field [name] dec absent).Passes ms (some a) t) :
    t = some a := by
  induction ms with
  | nil => exact h.symm
  | cons m ms ih =>
    obtain ⟨u, hu, h⟩ := h
    by_cases hm : m.1 = name
    · simp [field, hm] at hu
    · obtain rfl : u = some a := by simpa [field, hm] using hu
      exact ih h

theorem reads_field (h : (field [name] dec absent).Reads ms a) :
    (∃ d, ms.lookup name = some d ∧ dec d = .ok a) ∨ ms.lookup name = none ∧ absent = .ok a := by
  obtain ⟨t, ht, ha⟩ := h
  change (field [name] dec absent).Passes ms none t at ht
  induction ms with
  | nil =>
    obtain rfl : none = t := ht
    exact .inr ⟨rfl, ha⟩
  | cons m ms ih =>
    obtain ⟨u, hu, ht⟩ := ht
    by_cases hm : m.1 = name
    · left
      cases hd : dec m.2 with
      | error e => simp [field, hm, hd] at hu
      | ok x =>
        obtain rfl : some x = u := Except.ok.inj (by simpa [field, hm, hd] using hu)
        obtain rfl := passes_field_some ht
        obtain rfl : x = a := Except.ok.inj ha
        have hbeq : (name == m.1) = true := by simpa using hm.symm
        exact ⟨m.2, by rw [List.lookup_cons, hbeq], hd⟩
    · obtain rfl : u = none := by simpa [field, hm] using hu
      have hlookup : (m :: ms).lookup name = ms.lookup name := by
        have hbeq : (name == m.1) = false := by simpa using Ne.symm hm
        rw [List.lookup_cons, hbeq]
      rw [hlookup]
      exact ih ht

theorem reads_others {xs : List (String × Json)} (h : others.Reads ms xs) :
    Document.jsonMembers ms = .ok xs := by
  -- what has been taken so far stands in front
  suffices hpasses : ∀ s t : List (String × Json), others.Passes ms s t →
      ∃ ys, Document.jsonMembers ms = .ok ys ∧ t = s ++ ys by
    obtain ⟨t, ht, hxs⟩ := h
    obtain rfl : t = xs := Except.ok.inj hxs
    obtain ⟨ys, hys, rfl⟩ := hpasses [] t ht
    exact hys
  clear h
  induction ms with
  | nil => exact fun s t ht => ⟨[], rfl, (List.append_nil s).symm ▸ ht.symm⟩
  | cons m ms ih =>
    rintro s t ⟨u, hu, ht⟩
    obtain ⟨ys, hys, rfl⟩ := ih u t ht
    cases hx : m.2.json with
    | error e => simp [others, hx, bind, Except.bind] at hu
    | ok x =>
      obtain rfl : s ++ [(m.1, x)] = u :=
        Except.ok.inj (by simpa [others, hx, bind, Except.bind, Pure.pure, Except.pure] using hu)
      exact ⟨(m.1, x) :: ys, Document.jsonMembers_cons_eq_ok.mpr ⟨x, ys, hx, hys, rfl⟩, by simp⟩

/-- The first item of an array is the first field. -/
theorem elements_map_field_cons {k : α → β} {closed : Bool} {d : Document}
    {ds rest : List Document}
    (h : (map k (field names dec absent)).elements closed (d :: ds) = .ok (b, rest)) :
    ∃ a, dec d = .ok a ∧ k a = b := by
  cases hd : dec d with
  | error e => simp [map, field, hd, bind, Except.bind] at h
  | ok a =>
    have hpair : (k a, ds) = (b, rest) := by
      simpa [map, field, hd, bind, Except.bind, Pure.pure, Except.pure] using h
    exact ⟨a, rfl, (Prod.mk.inj hpair).1⟩

/-- Nothing is read of members without one of the name. -/
def Needs (r : Record α) (name : String) : Prop :=
  ∀ ms a, r.Reads ms a → name ∈ ms.map (·.1)

theorem needs_required : (required name dec).Needs name := by
  intro ms a h
  rcases reads_field h with ⟨d, hd, -⟩ | ⟨-, habsent⟩
  · exact List.mem_map_of_mem (mem_of_lookup hd)
  · cases habsent

theorem needs_map {k : α → β} (h : r.Needs name) : (map k r).Needs name := by
  intro ms b hb
  obtain ⟨a, ha, -⟩ := reads_map hb
  exact h ms a ha

theorem needs_seq (h : f.Needs name) : (seq f r).Needs name := by
  intro ms b hb
  obtain ⟨g, hg, -⟩ := reads_seq_left hb
  exact h ms g hg

theorem Needs.ofObject_ne_ok (h : r.Needs name) (hname : name ∉ ms.map (·.1)) (ending : Ending)
    (a : α) : r.ofObject (.object ms ending) ≠ .ok a :=
  fun ha => hname (h ms a (reads_of_ofObject ha))

/-- Whatever a value is read of, it has the property. -/
structure Ensures (r : Record α) (P : α → Prop) : Prop where
  reads : ∀ ms a, r.Reads ms a → P a
  elements : ∀ closed ds a rest, r.elements closed ds = .ok (a, rest) → P a

theorem ensures_required {P : α → Prop} (h : ∀ d a, dec d = .ok a → P a) :
    (required name dec).Ensures P where
  reads ms a ha := by
    rcases reads_field ha with ⟨d, -, hd⟩ | ⟨-, habsent⟩
    · exact h d a hd
    · cases habsent
  elements closed ds a rest ha := by
    cases ds with
    | nil => cases closed <;> cases ha
    | cons d ds =>
      obtain ⟨x, hx, hpair⟩ := bind_eq_ok_iff.mp ha
      obtain ⟨rfl, -⟩ := Prod.mk.inj (pure_eq_ok_iff.mp hpair)
      exact h d x hx

theorem ensures_map {k : α → β} {P : β → Prop} (h : r.Ensures fun a => P (k a)) :
    (map k r).Ensures P where
  reads ms b hb := by
    obtain ⟨a, ha, rfl⟩ := reads_map hb
    exact h.reads ms a ha
  elements closed ds b rest hb := by
    obtain ⟨⟨a, rest'⟩, ha, hpair⟩ := map_eq_ok_iff.mp hb
    obtain ⟨rfl, -⟩ := Prod.mk.inj hpair
    exact h.elements closed ds a rest' ha

theorem ensures_seq {P : β → Prop} (h : f.Ensures fun g => ∀ a, P (g a)) :
    (seq f r).Ensures P where
  reads ms b hb := by
    obtain ⟨g, hg, a, rfl⟩ := reads_seq_left hb
    exact h.reads ms g hg a
  elements closed ds b rest hb := by
    obtain ⟨⟨g, ds'⟩, hg, hb⟩ := bind_eq_ok_iff.mp hb
    obtain ⟨⟨a, rest'⟩, -, hpair⟩ := bind_eq_ok_iff.mp hb
    obtain ⟨rfl, -⟩ := Prod.mk.inj (pure_eq_ok_iff.mp hpair)
    exact h.elements closed ds g ds' hg a

theorem Ensures.of_decoder_eq_ok {P : α → Prop} (h : r.Ensures P) {d : Document}
    (ha : r.decoder d = .ok a) : P a := by
  cases d with
  | object ms ending => exact h.reads ms a (reads_of_ofObject ha)
  | array ds ending =>
    obtain ⟨⟨x, rest⟩, hx, ha⟩ := bind_eq_ok_iff.mp ha
    obtain rfl : x = a := by
      simp only at ha
      split at ha
      · exact pure_eq_ok_iff.mp ha
      · exact absurd ha throw_ne_ok
    exact h.elements _ ds x rest hx
  | _ => nomatch ha

end Record

end LayerGraph
