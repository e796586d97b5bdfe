import LayerGraph.Proofs.JsonValues
import Mathlib

namespace LayerGraph

namespace Record

variable {α β : Type}

/-- The key is not of the record. -/
def Ignores (r : Record α) (key : String) : Prop := ∀ d s, r.member key d s = none

/-- Takes the members one after the other. -/
def Takes (r : Record α) : List (String × Document) → r.State → r.State → Prop
  | [], s, t => s = t
  | (key, d) :: ms, s, t => ∃ u, r.member key d s = some (.ok u) ∧ Takes r ms u t

/-- The members are those of a value. -/
def Holds (r : Record α) (ms : List (String × Document)) (a : α) : Prop :=
  ∃ t, r.Takes ms r.start t ∧ r.finish t = .ok a

/-- No value has the member. -/
def Rejects (r : Record α) (key : String) (d : Document) : Prop :=
  ∀ s, ∃ e, r.member key d s = some (.error e)

theorem members_of_takes {r : Record α} {ms : List (String × Document)} {s t : r.State}
    (h : r.Takes ms s t) : r.members ms .closed s = r.finish t := by
  induction ms generalizing s with
  | nil =>
    obtain rfl : s = t := h
    rfl
  | cons m ms ih =>
    obtain ⟨u, hu, h⟩ := h
    rw [members, hu]
    exact ih h

theorem ofObject_of_holds {r : Record α} {ms : List (String × Document)} {a : α}
    (h : r.Holds ms a) : r.ofObject (.object ms .closed) = .ok a := by
  obtain ⟨t, ht, ha⟩ := h
  exact (members_of_takes ht).trans ha

theorem decoder_of_holds {r : Record α} {ms : List (String × Document)} {a : α}
    (h : r.Holds ms a) : r.decoder (.object ms .closed) = .ok a :=
  ofObject_of_holds h

theorem members_of_rejects {r : Record α} {ms : List (String × Document)} {m : String × Document}
    (hm : m ∈ ms) (hr : r.Rejects m.1 m.2) (ending : Ending) (s : r.State) (a : α) :
    r.members ms ending s ≠ .ok a := by
  induction ms generalizing s with
  | nil => simp at hm
  | cons n ms ih =>
    intro h
    rw [members] at h
    rcases List.mem_cons.mp hm with rfl | hm
    · obtain ⟨e, he⟩ := hr s
      rw [he] at h
      simp [bind, Except.bind] at h
    · cases hn : r.member n.1 n.2 s with
      | none =>
        rw [hn] at h
        cases hd : n.2.skip with
        | error e => simp [hd, bind, Except.bind] at h
        | ok u => exact ih hm s (by simpa [hd, bind, Except.bind] using h)
      | some t =>
        rw [hn] at h
        cases t with
        | error e => simp [bind, Except.bind] at h
        | ok t => exact ih hm t h

variable {f : Record (α → β)} {r : Record α} {key : String} {names : List String}
  {dec : Decoder α} {absent : Except Fault α} {d : Document}

theorem ignores_field (hkey : names.contains key = false) : (field names dec absent).Ignores key := by
  intro d s
  simp only [field, hkey]
  rfl

theorem ignores_map {k : α → β} (h : r.Ignores key) : (map k r).Ignores key := h

theorem ignores_seq (hf : f.Ignores key) (hr : r.Ignores key) : (seq f r).Ignores key := by
  intro d s
  simp only [seq, hf d s.1, hr d s.2]
  rfl

theorem rejects_field {e : Fault} (hkey : names.contains key = true) (hd : dec d = .error e) :
    (field names dec absent).Rejects key d := by
  intro s
  cases s with
  | none => exact ⟨e, by simp only [field, hkey, hd]; rfl⟩
  | some a => exact ⟨.mismatch, by simp only [field, hkey]; rfl⟩

theorem rejects_seq_left (h : f.Rejects key d) : (seq f r).Rejects key d := by
  intro s
  obtain ⟨e, he⟩ := h s.1
  exact ⟨e, by simp only [seq, he]; rfl⟩

theorem rejects_seq_right (hf : f.Ignores key) (h : r.Rejects key d) :
    (seq f r).Rejects key d := by
  intro s
  obtain ⟨e, he⟩ := h s.2
  exact ⟨e, by simp only [seq, hf d s.1, he]; rfl⟩

theorem holds_field {a : α} (hkey : names.contains key = true) (hd : dec d = .ok a) :
    (field names dec absent).Holds [(key, d)] a := by
  refine ⟨some a, ⟨some a, ?_, rfl⟩, rfl⟩
  simp only [field, hkey, hd]
  rfl

theorem holds_map {k : α → β} {ms : List (String × Document)} {a : α} (h : r.Holds ms a) :
    (map k r).Holds ms (k a) := by
  obtain ⟨t, ht, ha⟩ := h
  have htakes : ∀ ms s, r.Takes ms s t → (map k r).Takes ms s t := by
    intro ms
    induction ms with
    | nil => exact fun _ h => h
    | cons m ms ih =>
      rintro s ⟨u, hu, h⟩
      exact ⟨u, hu, ih u h⟩
  refine ⟨t, htakes _ _ ht, ?_⟩
  simp only [map, ha]
  rfl

theorem takes_append {ms ns : List (String × Document)} {s t u : r.State} (hms : r.Takes ms s t)
    (hns : r.Takes ns t u) : r.Takes (ms ++ ns) s u := by
  induction ms generalizing s with
  | nil =>
    obtain rfl : s = t := hms
    exact hns
  | cons m ms ih =>
    obtain ⟨v, hv, hms⟩ := hms
    exact ⟨v, hv, ih hms⟩

theorem takes_seq_left {ms : List (String × Document)} {s t : f.State} (h : f.Takes ms s t)
    (v : r.State) : (seq f r).Takes ms (s, v) (t, v) := by
  induction ms generalizing s with
  | nil => exact congrArg (·, v) h
  | cons m ms ih =>
    obtain ⟨u, hu, h⟩ := h
    exact ⟨(u, v), by simp only [seq, hu]; rfl, ih h⟩

/-- Members of the fields so far, then one of the next field. -/
theorem holds_seq {ms : List (String × Document)} {g : α → β} {a : α} (hf : f.Holds ms g)
    (hignores : f.Ignores key) (hr : r.Holds [(key, d)] a) :
    (seq f r).Holds (ms ++ [(key, d)]) (g a) := by
  obtain ⟨t, ht, hg⟩ := hf
  obtain ⟨v, ⟨u, hu, rfl⟩, ha⟩ := hr
  refine ⟨(t, u), takes_append (takes_seq_left ht r.start) ⟨(t, u), ?_, rfl⟩, ?_⟩
  · simp only [seq, hignores d t, hu]
    rfl
  · simp only [seq, hg, ha]
    rfl

/-- The next field is left out. -/
theorem holds_seq_absent {ms : List (String × Document)} {g : α → β} {a : α} (hf : f.Holds ms g)
    (hr : r.finish r.start = .ok a) : (seq f r).Holds ms (g a) := by
  obtain ⟨t, ht, hg⟩ := hf
  refine ⟨(t, r.start), takes_seq_left ht r.start, ?_⟩
  simp only [seq, hg, hr]
  rfl

/-- Members of the fields so far, then members that are of none of them. -/
theorem holds_seq_others {f : Record (List (String × Json) → β)} {ms ns : List (String × Document)}
    {g : List (String × Json) → β} {xs : List (String × Json)} (hf : f.Holds ms g)
    (hignores : ∀ m ∈ ns, f.Ignores m.1) (hns : Document.jsonMembers ns = .ok xs) :
    (seq f others).Holds (ms ++ ns) (g xs) := by
  obtain ⟨t, ht, hg⟩ := hf
  have hothers : ∀ acc : List (String × Json), (seq f others).Takes ns (t, acc) (t, acc ++ xs) := by
    induction ns generalizing xs with
    | nil =>
      obtain rfl : [] = xs := Except.ok.inj hns
      exact fun acc => congrArg (t, ·) (List.append_nil acc).symm
    | cons n ns ih =>
      intro acc
      obtain ⟨x, ys, hx, hys, rfl⟩ := Document.jsonMembers_cons_eq_ok.mp hns
      have hrest := ih (fun m hm => hignores m (List.mem_cons_of_mem n hm)) hys (acc ++ [(n.1, x)])
      rw [List.append_assoc] at hrest
      refine ⟨(t, acc ++ [(n.1, x)]), ?_, hrest⟩
      simp only [seq, others, hignores n List.mem_cons_self n.2 t, hx]
      rfl
  refine ⟨(t, xs), takes_append (takes_seq_left (r := others) ht []) (hothers []), ?_⟩
  simp only [seq, hg]
  rfl

theorem holds_refine {k : α → Except Fault β} {ms : List (String × Document)} {a : α} {b : β}
    (h : r.Holds ms a) (hk : k a = .ok b) : (refine r k).Holds ms b := by
  obtain ⟨t, ht, ha⟩ := h
  have htakes : ∀ ms s, r.Takes ms s t → (refine r k).Takes ms s t := by
    intro ms
    induction ms with
    | nil => exact fun _ h => h
    | cons m ms ih =>
      rintro s ⟨u, hu, h⟩
      exact ⟨u, hu, ih u h⟩
  refine ⟨t, htakes _ _ ht, ?_⟩
  simp only [refine, ha]
  exact hk

end Record

end LayerGraph
