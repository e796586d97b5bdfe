import LayerGraph.Proofs.DepthFirst

namespace LayerGraph

namespace Graph

variable {g : Graph} {a b id : NodeId} {n : Node}

/-- Data come out of the block. -/
inductive Feeds (g : Graph) : NodeId → Prop where
  | registered {n : Node} (hn : n ∈ g.nodes) (hk : n.isPlaceholder = false) : Feeds g n.id
  | through {a b : NodeId} (ha : Feeds g a) (hb : b ∈ g.successors a)
    (hp : g.isPlaceholder b = true) : Feeds g b

theorem mem_successors_iff : b ∈ g.successors a ↔ ∃ e ∈ g.edges, e.source = a ∧ e.target = b := by
  simp [successors, outgoing, and_assoc]

theorem exists_of_isPlaceholder_eq_false (h : g.isPlaceholder id = false) :
    ∃ n ∈ g.nodes, n.id = id ∧ n.isPlaceholder = false := by
  unfold isPlaceholder at h
  split at h
  · rename_i n hn
    exact ⟨n, mem_of_node? hn, node?_id hn, h⟩
  · cases h

theorem isPlaceholder_of_mem (hg : WellFormed g) (hn : n ∈ g.nodes) :
    g.isPlaceholder n.id = n.isPlaceholder := by
  unfold isPlaceholder
  rw [(node?_eq_some_iff hg.ids_nodup).mpr ⟨hn, rfl⟩]

theorem Feeds.mem_ids (hg : WellFormed g) (h : g.Feeds a) : a ∈ g.ids := by
  cases h with
  | registered hn _ => exact List.mem_map_of_mem hn
  | through _ hb _ => exact successors_subset hg _ hb

/-- The placeholders that the walk finds are those that data come to. -/
theorem mem_fedPlaceholders_iff (hg : WellFormed g) :
    id ∈ g.fedPlaceholders ↔ g.Feeds id ∧ g.isPlaceholder id = true := by
  have hnext : ∀ a ∈ g.ids, (g.successors a).filter g.isPlaceholder ⊆ g.ids := fun a _ =>
    List.Subset.trans List.filter_sublist.subset (successors_subset hg a)
  have hstart : (g.nodes.filter (!·.isPlaceholder)).flatMap
      (fun n => (g.successors n.id).filter g.isPlaceholder) ⊆ g.ids := by
    intro a ha
    obtain ⟨n, hn, ha⟩ := List.mem_flatMap.mp ha
    exact hnext n.id (List.mem_map_of_mem (List.mem_of_mem_filter hn)) ha
  refine (mem_walk_iff hg.ids_nodup hnext hstart).trans ?_
  constructor
  · rintro ⟨a, ha, hpath⟩
    obtain ⟨n, hn, ha⟩ := List.mem_flatMap.mp ha
    obtain ⟨hn, hk⟩ := List.mem_filter.mp hn
    obtain ⟨ha, hp⟩ := List.mem_filter.mp ha
    induction hpath with
    | refl => exact ⟨.through (.registered hn (by simpa using hk)) ha hp, hp⟩
    | tail _ hbc ih =>
      obtain ⟨hbc, hp⟩ := List.mem_filter.mp hbc
      exact ⟨.through ih.1 hbc hp, hp⟩
  · rintro ⟨h, hp⟩
    induction h with
    | registered hn hk =>
      rw [isPlaceholder_of_mem hg hn, hk] at hp
      cases hp
    | @through a b _ hb hp ih =>
      have hmem : b ∈ (g.successors a).filter g.isPlaceholder := List.mem_filter.mpr ⟨hb, hp⟩
      cases ha : g.isPlaceholder a with
      | false =>
        -- the walk starts right behind registered blocks
        obtain ⟨n, hn, rfl, hk⟩ := exists_of_isPlaceholder_eq_false ha
        exact ⟨b, List.mem_flatMap.mpr ⟨n, List.mem_filter.mpr ⟨hn, by simp [hk]⟩, hmem⟩, .refl⟩
      | true =>
        obtain ⟨x, hx, hxa⟩ := ih ha
        exact ⟨x, hx, hxa.tail hmem⟩

theorem feeds_iff (hg : WellFormed g) :
    g.Feeds id ↔ g.isPlaceholder id = false ∨ id ∈ g.fedPlaceholders := by
  rw [mem_fedPlaceholders_iff hg]
  cases hp : g.isPlaceholder id with
  | true => simp
  | false =>
    obtain ⟨n, hn, rfl, hk⟩ := exists_of_isPlaceholder_eq_false hp
    simpa using Feeds.registered hn hk

open Classical in
theorem startCandidates_eq (hg : WellFormed g) :
    g.startCandidates = (g.nodes.filter fun n =>
      n.isPlaceholder = false ∧ ∀ a, n.id ∈ g.successors a → ¬ g.Feeds a).map (·.id) := by
  refine congrArg (List.map Node.id) (List.filter_congr ?_)
  intro n _
  have hsource : ∀ a,
      (g.isPlaceholder a && !g.fedPlaceholders.contains a) = true ↔ ¬ g.Feeds a := by
    intro a
    rw [feeds_iff hg]
    simp
  rw [Bool.eq_iff_iff, Bool.and_eq_true, List.all_eq_true, decide_eq_true_eq]
  simp only [hsource, mem_successors_iff, incoming, List.mem_filter, decide_eq_true_eq,
    Bool.not_eq_true']
  apply and_congr_right
  intro _
  constructor
  · rintro h a ⟨e, he, rfl, ht⟩
    exact h e ⟨he, ht⟩
  · rintro h e ⟨he, ht⟩
    exact h e.source ⟨e, he, rfl, ht⟩

theorem nodup_startCandidates (hg : WellFormed g) : g.startCandidates.Nodup :=
  hg.ids_nodup.sublist (List.filter_sublist.map _)

end Graph

end LayerGraph
