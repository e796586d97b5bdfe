import Mathlib

namespace LayerGraph

section Pairs

variable {α β : Type} {R : α → β → Prop} {P : β → Prop} {l : List α} {u : List β}

theorem exists_of_forall₂ {a : α} (h : List.Forall₂ R l u) (ha : a ∈ l) : ∃ b ∈ u, R a b := by
  induction h with
  | nil => cases ha
  | @cons a' b l u hab _ ih =>
    rcases List.mem_cons.mp ha with rfl | ha
    · exact ⟨b, List.mem_cons_self, hab⟩
    · obtain ⟨b', hb', hab'⟩ := ih ha
      exact ⟨b', List.mem_cons_of_mem b hb', hab'⟩

theorem exists_forall₂ (h : ∀ a ∈ l, ∃ b, R a b) : ∃ u, List.Forall₂ R l u := by
  induction l with
  | nil => exact ⟨[], .nil⟩
  | cons a l ih =>
    obtain ⟨b, hb⟩ := h a List.mem_cons_self
    obtain ⟨u, hu⟩ := ih fun x hx => h x (List.mem_cons_of_mem a hx)
    exact ⟨b :: u, .cons hb hu⟩

theorem of_forall₂ (h : List.Forall₂ R l u) (hR : ∀ a b, R a b → P b) : ∀ b ∈ u, P b := by
  intro b hb
  obtain ⟨a, -, hab⟩ := exists_of_forall₂ h.flip hb
  exact hR a b hab

theorem forall₂_and_right (h : List.Forall₂ R l u) (hP : ∀ b ∈ u, P b) :
    List.Forall₂ (fun a b => P b ∧ R a b) l u := by
  apply List.Forall₂.flip
  rw [show flip (fun a b => P b ∧ R a b) = fun b a => P b ∧ flip R b a from rfl,
    List.forall₂_and_left]
  exact ⟨hP, h.flip⟩

theorem filterMap_eq_of_forall₂ {f : α → Option β}
    (h : List.Forall₂ (fun a b => f a = some b) l u) : l.filterMap f = u := by
  induction h with
  | nil => rfl
  | cons hab _ ih => rw [List.filterMap_cons_some hab, ih]

/-- Lists that one function does not tell apart, when it tells at least as much as the other. -/
theorem map_eq_map_of_map_eq_map {γ δ : Type} {f : α → γ} {k : α → δ} {l l' : List α}
    (h : l.map f = l'.map f) (hk : ∀ a ∈ l, ∀ b ∈ l', f a = f b → k a = k b) :
    l.map k = l'.map k := by
  induction l generalizing l' with
  | nil =>
    obtain rfl := List.map_eq_nil_iff.mp h.symm
    rfl
  | cons a l ih =>
    obtain ⟨b, l', rfl, hab, hl⟩ := List.map_eq_cons_iff.mp h.symm
    rw [List.map_cons, List.map_cons, hk a List.mem_cons_self b List.mem_cons_self hab.symm,
      ih hl.symm fun x hx y hy => hk x (List.mem_cons_of_mem a hx) y (List.mem_cons_of_mem b hy)]

end Pairs

theorem sublist_pair_antisymm {α : Type} {l : List α} {x y : α} (hl : l.Nodup)
    (hxy : [x, y].Sublist l) (hyx : [y, x].Sublist l) : x = y := by
  induction l with
  | nil => cases hxy
  | cons a l ih =>
    rw [List.nodup_cons] at hl
    rcases List.sublist_cons_iff.mp hxy with hxy' | ⟨r, hr, -⟩
    · rcases List.sublist_cons_iff.mp hyx with hyx' | ⟨r, hr, -⟩
      · exact ih hl.2 hxy' hyx'
      · obtain ⟨rfl, rfl⟩ := List.cons.inj hr
        have hy : y ∈ l := hxy'.subset (List.mem_cons_of_mem x List.mem_cons_self)
        exact absurd hy hl.1
    · obtain ⟨rfl, rfl⟩ := List.cons.inj hr
      rcases List.sublist_cons_iff.mp hyx with hyx' | ⟨r, hr, -⟩
      · have hx : x ∈ l := hyx'.subset (List.mem_cons_of_mem y List.mem_cons_self)
        exact absurd hx hl.1
      · exact (List.cons.inj hr).1.symm

theorem find?_eq_some_of_nodup {α β : Type} [DecidableEq β] {f : α → β} {l : List α} {a : α}
    (hl : (l.map f).Nodup) (ha : a ∈ l) : l.find? (f · = f a) = some a := by
  cases hb : l.find? (f · = f a) with
  | none => exact absurd (List.find?_eq_none.mp hb a ha) (by simp)
  | some b =>
    have hba : f b = f a := by simpa using List.find?_some hb
    exact congrArg some (List.inj_on_of_nodup_map hl (List.mem_of_find?_eq_some hb) ha hba)

theorem nodup_map_concat {α β : Type} {f : α → β} {l : List α} {a : α} (hl : (l.map f).Nodup)
    (ha : ∀ x ∈ l, f x ≠ f a) : ((l ++ [a]).map f).Nodup := by
  rw [List.map_append, List.map_singleton, List.nodup_append]
  refine ⟨hl, List.nodup_singleton _, ?_⟩
  rintro i hi j hj rfl
  obtain ⟨x, hx, rfl⟩ := List.mem_map.mp hi
  exact ha x hx (List.mem_singleton.mp hj)

section Sorting

variable {α β : Type} [LinearOrder β] {key : α → β} {l shuffled : List α}

theorem pairwise_mergeSort_key (key : α → β) (l : List α) :
    (l.mergeSort fun a b => key a ≤ key b).Pairwise fun a b => key a ≤ key b := by
  apply (List.pairwise_mergeSort _ _ l).imp
  · intro a b hab
    simpa using hab
  · intro a b c hab hbc
    simp only [decide_eq_true_eq] at hab hbc ⊢
    exact hab.trans hbc
  · intro a b
    simpa using le_total (key a) (key b)

/-- How a list was shuffled makes no difference after sorting by a key that tells all apart. -/
theorem mergeSort_congr_perm (hl : (l.map key).Nodup) (hp : shuffled.Perm l) :
    (shuffled.mergeSort fun a b => key a ≤ key b) = l.mergeSort fun a b => key a ≤ key b := by
  have hperm := (List.mergeSort_perm shuffled fun a b => key a ≤ key b).trans hp
  have hsorted := List.mergeSort_perm l fun a b => key a ≤ key b
  apply (hperm.trans hsorted.symm).eq_of_pairwise ?_ (pairwise_mergeSort_key key shuffled)
    (pairwise_mergeSort_key key l)
  intro a b ha hb hab hba
  exact List.inj_on_of_nodup_map hl (hperm.subset ha) (hsorted.subset hb) (le_antisymm hab hba)

/-- What is in order by a key of its own comes out of sorting, however it was shuffled. -/
theorem mergeSort_eq_of_perm (h : l.Pairwise fun a b => key a < key b) (hp : shuffled.Perm l) :
    (shuffled.mergeSort fun a b => key a ≤ key b) = l := by
  have hkeys : (l.map key).Nodup := List.pairwise_map.mpr (h.imp ne_of_lt)
  rw [mergeSort_congr_perm hkeys hp]
  exact List.mergeSort_of_pairwise (h.imp fun hab => by simpa using hab.le)

end Sorting

/-- What is asked of each place in a list behind those before it fails at a first place, or nowhere. -/
theorem forall_or_exists_first {α : Type} (P : List α → α → Prop) (l : List α) :
    (∀ before a after, l = before ++ a :: after → P before a) ∨
      ∃ before a after, l = before ++ a :: after ∧
        (∀ b x c, before = b ++ x :: c → P b x) ∧ ¬ P before a := by
  induction l using List.reverseRecOn with
  | nil => exact .inl fun before _ _ h => absurd h (by simp)
  | append_singleton l a ih =>
    rcases ih with hall | ⟨before, x, after, rfl, hbefore, hx⟩
    · by_cases ha : P l a
      · left
        intro before x after hl
        rcases after.eq_nil_or_concat with rfl | ⟨after, y, rfl⟩
        · obtain ⟨rfl, hax⟩ := List.append_inj' hl rfl
          obtain rfl := List.head_eq_of_cons_eq hax
          exact ha
        · have hlast : l ++ [a] = (before ++ x :: after) ++ [y] := by simpa using hl
          obtain ⟨rfl, -⟩ := List.append_inj' hlast rfl
          exact hall before x after rfl
      · exact .inr ⟨l, a, [], rfl, hall, ha⟩
    · exact .inr ⟨before, x, after ++ [a], by simp, hbefore, hx⟩

theorem mem_of_lookup {κ α : Type} [DecidableEq κ] {l : List (κ × α)} {k : κ} {a : α}
    (h : l.lookup k = some a) : (k, a) ∈ l := by
  obtain ⟨l₁, l₂, rfl, -⟩ := List.lookup_eq_some_iff.mp h
  simp

theorem lookup_filter {κ α : Type} [DecidableEq κ] (p : κ → Bool) (l : List (κ × α)) (k : κ) :
    (l.filter (p ·.1)).lookup k = if p k then l.lookup k else none := by
  induction l with
  | nil => simp
  | cons a l ih =>
    obtain ⟨k', i⟩ := a
    rw [List.filter_cons, List.lookup_cons]
    by_cases hk : k = k'
    · subst hk
      cases hp : p k <;> simp [ih, hp]
    · have hbeq : (k == k') = false := by simpa using hk
      cases hp : p k' <;> simp [ih, hbeq, List.lookup_cons]

/-- What a running maximum starts with and what it runs over are not above it. -/
theorem le_foldl_max {α : Type} [LE α] [Max α] [Std.IsPreorder α] (hleft : ∀ a b : α, a ≤ max a b)
    (hright : ∀ a b : α, b ≤ max a b) {l : List α} {a x : α} (hx : x = a ∨ x ∈ l) :
    x ≤ l.foldl max a := by
  induction l generalizing a x with
  | nil =>
    obtain rfl : x = a := by simpa using hx
    exact Std.le_refl x
  | cons b l ih =>
    rw [List.foldl_cons]
    have hrun : max a b ≤ l.foldl max (max a b) := ih (.inl rfl)
    rcases hx with rfl | hx
    · exact Std.le_trans (hleft x b) hrun
    · rcases List.mem_cons.mp hx with rfl | hx
      · exact Std.le_trans (hright a x) hrun
      · exact ih (.inr hx)

section Parts

variable {α : Type} {a : α} {l l' r r' : List α}

/-- Where a list is parted at a mark, it is parted nowhere else but at another of the marks. -/
theorem append_mark_eq_iff : l ++ a :: r = l' ++ a :: r' ↔ (l = l' ∧ r = r') ∨
    (∃ m, l' = l ++ a :: m ∧ r = m ++ a :: r') ∨ ∃ m, l = l' ++ a :: m ∧ r' = m ++ a :: r := by
  constructor
  · intro h
    rcases List.append_eq_append_iff.mp h with ⟨m, hl, hr⟩ | ⟨m, hl, hr⟩
    · cases m with
      | nil => exact .inl ⟨by simpa using hl.symm, by simpa using hr⟩
      | cons b m =>
        obtain ⟨rfl, hrest⟩ := List.cons.inj hr
        exact .inr (.inl ⟨m, hl, hrest⟩)
    · cases m with
      | nil => exact .inl ⟨by simpa using hl, by simpa using hr.symm⟩
      | cons b m =>
        obtain ⟨rfl, hrest⟩ := List.cons.inj hr
        exact .inr (.inr ⟨m, hl, hrest⟩)
  · rintro (⟨rfl, rfl⟩ | ⟨m, rfl, rfl⟩ | ⟨m, rfl, rfl⟩) <;> simp

/-- What is before a mark and what is behind it, when the mark is not in the first part. -/
theorem append_mark_inj (hl : a ∉ l) (hl' : a ∉ l') (h : l ++ a :: r = l' ++ a :: r') :
    l = l' ∧ r = r' := by
  rcases append_mark_eq_iff.mp h with h | ⟨m, rfl, -⟩ | ⟨m, rfl, -⟩
  · exact h
  · exact absurd (by simp) hl'
  · exact absurd (by simp) hl

/-- The same when the mark is not in the second part. -/
theorem append_mark_inj_last (hr : a ∉ r) (hr' : a ∉ r') (h : l ++ a :: r = l' ++ a :: r') :
    l = l' ∧ r = r' := by
  rcases append_mark_eq_iff.mp h with h | ⟨m, -, rfl⟩ | ⟨m, -, rfl⟩
  · exact h
  · exact absurd (by simp) hr
  · exact absurd (by simp) hr'

/--
Blocks of one length with something behind them are told apart when there are as many of them, or
when what is behind does not begin like a block of the other list.
-/
theorem flatten_append_inj {n : Nat} {bs cs : List (List α)} (hbs : ∀ b ∈ bs, b.length = n)
    (hcs : ∀ c ∈ cs, c.length = n) (h : bs.flatten ++ r = cs.flatten ++ r')
    (hend : bs.length = cs.length ∨ (∀ b ∈ bs, ¬ b <+: r') ∧ ∀ c ∈ cs, ¬ c <+: r) :
    bs = cs ∧ r = r' := by
  induction bs generalizing cs with
  | nil =>
    cases cs with
    | nil => exact ⟨rfl, h⟩
    | cons c cs =>
      rw [List.flatten_nil, List.nil_append, List.flatten_cons, List.append_assoc] at h
      rcases hend with hlen | ⟨-, hbegin⟩
      · cases hlen
      · exact absurd ⟨_, h.symm⟩ (hbegin c List.mem_cons_self)
  | cons b bs ih =>
    cases cs with
    | nil =>
      rw [List.flatten_nil, List.nil_append, List.flatten_cons, List.append_assoc] at h
      rcases hend with hlen | ⟨hbegin, -⟩
      · cases hlen
      · exact absurd ⟨_, h⟩ (hbegin b List.mem_cons_self)
    | cons c cs =>
      rw [List.forall_mem_cons] at hbs hcs
      rw [List.flatten_cons, List.flatten_cons, List.append_assoc, List.append_assoc] at h
      obtain ⟨rfl, hrest⟩ := List.append_inj h (hbs.1.trans hcs.1.symm)
      have hend' : bs.length = cs.length ∨ (∀ b ∈ bs, ¬ b <+: r') ∧ ∀ c ∈ cs, ¬ c <+: r :=
        hend.imp Nat.succ.inj fun hbegin =>
          ⟨(List.forall_mem_cons.mp hbegin.1).2, (List.forall_mem_cons.mp hbegin.2).2⟩
      obtain ⟨rfl, hr⟩ := ih hbs.2 hcs.2 hrest hend'
      exact ⟨rfl, hr⟩

end Parts

end LayerGraph
