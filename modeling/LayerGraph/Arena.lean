import Mathlib

namespace LayerGraph

@[ext]
structure Arena (α : Type) where
  slots : List (Option α) := []
  /-- The empty slots, the one vacated last first. -/
  vacant : List Nat := []

namespace Arena

variable {α : Type} {a : Arena α} {x : α} {f : α → α} {i j : Nat}

def get? (a : Arena α) (i : Nat) : Option α := a.slots[i]?.join

def entries (a : Arena α) : List α := a.slots.filterMap id

def next (a : Arena α) : Nat := a.vacant.headD a.slots.length

def insert (a : Arena α) (x : α) : Arena α :=
  match a.vacant with
  | [] => { a with slots := a.slots ++ [some x] }
  | i :: rest => ⟨a.slots.set i (some x), rest⟩

def erase (a : Arena α) (i : Nat) : Arena α := ⟨a.slots.set i none, i :: a.vacant⟩

def modify (a : Arena α) (i : Nat) (f : α → α) : Arena α :=
  { a with slots := a.slots.modify i (·.map f) }

def map (a : Arena α) (f : α → α) : Arena α := { a with slots := a.slots.map (·.map f) }

/-- The empty slots are listed, each once. -/
structure Sound (a : Arena α) : Prop where
  nodup : a.vacant.Nodup
  mem_vacant : ∀ i, i ∈ a.vacant ↔ a.slots[i]? = some none

theorem get?_eq_some_iff : a.get? i = some x ↔ a.slots[i]? = some (some x) :=
  Option.join_eq_some_iff

theorem lt_length_of_get? (h : a.get? i = some x) : i < a.slots.length :=
  (List.getElem?_eq_some_iff.mp (get?_eq_some_iff.mp h)).1

theorem mem_entries : x ∈ a.entries ↔ ∃ i, a.get? i = some x := by
  simp only [entries, get?_eq_some_iff, ← List.mem_iff_getElem?, List.mem_filterMap, id,
    exists_eq_right]

theorem get?_inj {κ : Type} {key : α → κ} {y : α} (hkeys : (a.entries.map key).Nodup)
    (hi : a.get? i = some x) (hj : a.get? j = some y) (hxy : key x = key y) : i = j := by
  rw [List.Nodup, List.pairwise_map, entries, List.pairwise_filterMap] at hkeys
  have hlt : ∀ {i j x y}, a.get? i = some x → a.get? j = some y → i < j → key x ≠ key y := by
    intro i j x y hi hj hij
    obtain ⟨hi, hx⟩ := List.getElem?_eq_some_iff.mp (get?_eq_some_iff.mp hi)
    obtain ⟨hj, hy⟩ := List.getElem?_eq_some_iff.mp (get?_eq_some_iff.mp hj)
    exact List.pairwise_iff_getElem.mp hkeys i j hi hj hij _ hx _ hy
  rcases Nat.lt_trichotomy i j with h | h | h
  · exact absurd hxy (hlt hi hj h)
  · exact h
  · exact absurd hxy.symm (hlt hj hi h)

theorem slots_ext {l : List (Option α)} (hlength : a.slots.length = l.length)
    (hget : ∀ i, a.get? i = l[i]?.join) : a.slots = l := by
  apply List.ext_getElem hlength
  intro i h h'
  simpa [get?, h, h'] using hget i

theorem Sound.get?_next (ha : a.Sound) : a.get? a.next = none := by
  unfold next
  cases hv : a.vacant with
  | nil => simp [get?]
  | cons i rest => simp [get?, (ha.mem_vacant i).mp (hv ▸ List.mem_cons_self)]

theorem Sound.get?_insert (ha : a.Sound) (x : α) (j : Nat) :
    (a.insert x).get? j = if j = a.next then some x else a.get? j := by
  unfold insert next
  cases hv : a.vacant with
  | nil =>
    unfold get?
    rcases Nat.lt_trichotomy j a.slots.length with h | rfl | h
    · rw [List.getElem?_append_left h]
      exact (if_neg (Nat.ne_of_lt h)).symm
    · simp
    · rw [List.getElem?_eq_none (by simpa using h), List.getElem?_eq_none (Nat.le_of_lt h)]
      exact (if_neg (Nat.ne_of_gt h)).symm
  | cons i rest =>
    have hi := (ha.mem_vacant i).mp (hv ▸ List.mem_cons_self)
    have hlt : i < a.slots.length := (List.getElem?_eq_some_iff.mp hi).1
    by_cases hij : j = i
    · simp [get?, hij, hlt]
    · simp [get?, hij, Ne.symm hij]

theorem Sound.insert (ha : a.Sound) (x : α) : (a.insert x).Sound where
  nodup := by
    have hn := ha.nodup
    unfold Arena.insert
    cases hv : a.vacant with
    | nil => simp
    | cons i rest =>
      rw [hv] at hn
      exact (List.nodup_cons.mp hn).2
  mem_vacant j := by
    have hn := ha.nodup
    have hj := ha.mem_vacant j
    unfold Arena.insert
    cases hv : a.vacant with
    | nil =>
      rw [hv] at hj
      simp only [List.not_mem_nil, false_iff, List.getElem?_append] at hj ⊢
      split
      · exact hj
      · cases j - a.slots.length <;> simp
    | cons i rest =>
      rw [hv, List.nodup_cons] at hn
      have hi := (ha.mem_vacant i).mp (hv ▸ List.mem_cons_self)
      have hlt : i < a.slots.length := (List.getElem?_eq_some_iff.mp hi).1
      rw [hv, List.mem_cons] at hj
      simp only [List.getElem?_set]
      by_cases hij : i = j
      · subst hij
        simp [hn.1, hlt]
      · rw [if_neg hij, ← hj, or_iff_right (Ne.symm hij)]

theorem exists_filterMap_set {l : List (Option α)} (hi : l[i]? = some none) (x : α) :
    ∃ before after, l.filterMap id = before ++ after ∧
      (l.set i (some x)).filterMap id = before ++ x :: after := by
  have hlt : i < l.length := (List.getElem?_eq_some_iff.mp hi).1
  have hsplit : l = l.take i ++ none :: l.drop (i + 1) := by
    rw [← (List.getElem?_eq_some_iff.mp hi).2, List.getElem_cons_drop, List.take_append_drop]
  refine ⟨(l.take i).filterMap id, (l.drop (i + 1)).filterMap id, ?_, ?_⟩
  · exact (congrArg (List.filterMap id) hsplit).trans (by simp)
  · simp [List.set_eq_take_append_cons_drop, hlt]

/-- A new entry comes between the others, which stay in their order. -/
theorem Sound.exists_entries_insert (ha : a.Sound) (x : α) :
    ∃ before after, a.entries = before ++ after ∧
      (a.insert x).entries = before ++ x :: after := by
  unfold Arena.insert
  cases hv : a.vacant with
  | nil => exact ⟨a.entries, [], by simp, by simp [entries]⟩
  | cons i rest => exact exists_filterMap_set ((ha.mem_vacant i).mp (hv ▸ List.mem_cons_self)) x

theorem Sound.entries_insert_perm (ha : a.Sound) (x : α) :
    (a.insert x).entries.Perm (x :: a.entries) := by
  obtain ⟨before, after, he, hi⟩ := ha.exists_entries_insert x
  rw [he, hi]
  exact List.perm_middle

theorem get?_erase (a : Arena α) (i j : Nat) :
    (a.erase i).get? j = if j = i then none else a.get? j := by
  simp only [erase, get?, List.getElem?_set, eq_comm (a := j)]
  split
  · split <;> rfl
  · rfl

theorem Sound.erase (ha : a.Sound) (hi : a.get? i = some x) : (a.erase i).Sound where
  nodup := by
    refine List.nodup_cons.mpr ⟨?_, ha.nodup⟩
    rw [ha.mem_vacant, get?_eq_some_iff.mp hi]
    simp
  mem_vacant j := by
    have hlt := lt_length_of_get? hi
    simp only [Arena.erase, List.mem_cons, ha.mem_vacant, List.getElem?_set, eq_comm (a := j)]
    split
    · simp [*]
    · simp [*]

@[simp] theorem length_erase (a : Arena α) (i : Nat) :
    (a.erase i).slots.length = a.slots.length := List.length_set

theorem length_foldl_erase (a : Arena α) (is : List Nat) :
    (is.foldl erase a).slots.length = a.slots.length := by
  induction is generalizing a with
  | nil => rfl
  | cons i is ih => rw [List.foldl_cons, ih, length_erase]

theorem get?_foldl_erase (a : Arena α) (is : List Nat) (j : Nat) :
    (is.foldl erase a).get? j = if j ∈ is then none else a.get? j := by
  induction is generalizing a with
  | nil => simp
  | cons i is ih =>
    rw [List.foldl_cons, ih, get?_erase]
    by_cases hj : j ∈ is <;> by_cases hji : j = i <;> simp [hj, hji]

theorem Sound.foldl_erase {is : List Nat} (ha : a.Sound) (his : is.Nodup)
    (hget : ∀ i ∈ is, ∃ x, a.get? i = some x) : (is.foldl Arena.erase a).Sound := by
  induction is generalizing a with
  | nil => exact ha
  | cons i is ih =>
    obtain ⟨hi, his⟩ := List.nodup_cons.mp his
    obtain ⟨⟨x, hx⟩, hrest⟩ := List.forall_mem_cons.mp hget
    apply ih (ha.erase hx) his
    intro j hj
    have hji : j ≠ i := ne_of_mem_of_not_mem hj hi
    rw [get?_erase, if_neg hji]
    exact hrest j hj

theorem entries_foldl_erase {is : List Nat} {p : α → Bool}
    (his : ∀ i x, a.get? i = some x → (i ∈ is ↔ p x = true)) :
    (is.foldl erase a).entries = a.entries.filter (!p ·) := by
  have hslots : (is.foldl erase a).slots = a.slots.map (·.filter (!p ·)) := by
    apply slots_ext
    · rw [length_foldl_erase, List.length_map]
    · intro i
      rw [get?_foldl_erase, List.getElem?_map]
      cases hx : a.get? i with
      | none =>
        rw [ite_self]
        unfold get? at hx
        rcases hs : a.slots[i]? with _ | _ | x <;> simp_all
      | some x =>
        have hi := his i x hx
        rw [get?_eq_some_iff.mp hx]
        cases hp : p x <;> simp [Option.filter, hp, hi]
  unfold entries
  rw [hslots, List.filterMap_map, List.filter_filterMap]
  rfl

theorem get?_modify (a : Arena α) (i : Nat) (f : α → α) (j : Nat) :
    (a.modify i f).get? j = if j = i then (a.get? j).map f else a.get? j := by
  simp only [modify, get?, List.getElem?_modify, eq_comm (a := j)]
  split
  · cases a.slots[j]? <;> rfl
  · cases a.slots[j]? <;> rfl

@[simp] theorem length_modify (a : Arena α) (i : Nat) (f : α → α) :
    (a.modify i f).slots.length = a.slots.length := List.length_modify _ _ _

theorem foldl_modify {is : List Nat} (his : is.Nodup) (a : Arena α) (f : α → α) :
    (is.foldl (·.modify · f) a).vacant = a.vacant ∧
      (is.foldl (·.modify · f) a).slots.length = a.slots.length ∧
      ∀ j, (is.foldl (·.modify · f) a).get? j =
        if j ∈ is then (a.get? j).map f else a.get? j := by
  induction is generalizing a with
  | nil => simp
  | cons i is ih =>
    obtain ⟨hi, his⟩ := List.nodup_cons.mp his
    obtain ⟨hvacant, hlength, hget⟩ := ih his (a.modify i f)
    refine ⟨hvacant, hlength.trans (length_modify a i f), ?_⟩
    intro j
    rw [List.foldl_cons, hget, get?_modify]
    by_cases hj : j ∈ is
    · simp [hj, ne_of_mem_of_not_mem hj hi]
    · by_cases hji : j = i
      · simp [hji, hi]
      · simp [hj, hji]

theorem get?_map (a : Arena α) (f : α → α) (i : Nat) : (a.map f).get? i = (a.get? i).map f := by
  simp only [get?, map, List.getElem?_map]
  exact Option.join_map_eq_map_join

theorem foldl_modify_eq_map {is : List Nat} {p : α → Bool} (his : is.Nodup)
    (hp : ∀ i x, a.get? i = some x → (i ∈ is ↔ p x = true)) :
    is.foldl (·.modify · f) a = a.map fun x => if p x then f x else x := by
  obtain ⟨hvacant, hlength, hget⟩ := foldl_modify his a f
  refine Arena.ext (slots_ext ?_ ?_) hvacant
  · rw [hlength, map, List.length_map]
  · intro i
    rw [hget]
    refine Eq.trans ?_ (get?_map a _ i).symm
    cases hx : a.get? i with
    | none => simp
    | some x =>
      have hi := hp i x hx
      by_cases hpx : p x = true <;> simp [hi, hpx]

end Arena

end LayerGraph
