import LayerGraph.Proofs.Placeholders
import LayerGraph.Proofs.Rebuilt

namespace LayerGraph

section Walks

variable {α : Type} {next next' : α → List α} {t x a a' : α}
  {seen seen' todo todo' order order' : List α}

/-- The way to `t` may lead by `x`; no other way does. -/
def Diverted (t x a a' : α) : Prop := a ≠ x ∧ (a' = a ∨ a = t ∧ a' = x)

theorem Diverted.refl (ha : a ≠ x) : Diverted t x a a := ⟨ha, .inl rfl⟩

/-- Two walks, the second with a detour by `x`, have come as far as each other. -/
structure Abreast (t x : α) (seen seen' : List α) : Prop where
  mem_iff : ∀ a, a ≠ x → (a ∈ seen' ↔ a ∈ seen)
  passed : x ∈ seen' → t ∈ seen

theorem Abreast.visit (h : Abreast t x seen seen') (ha : a ≠ x) :
    Abreast t x (seen ++ [a]) (seen' ++ [a]) where
  mem_iff b hb := by simp [h.mem_iff b hb]
  passed hx := by
    have hx : x ∈ seen' := by simpa [Ne.symm ha] using hx
    exact List.mem_append_left _ (h.passed hx)

/-- The detour is made at the first visit of `t`. -/
theorem Abreast.detour (h : Abreast t x seen seen') :
    Abreast t x (seen ++ [t]) (seen' ++ [x, t]) where
  mem_iff b hb := by simp [h.mem_iff b hb, hb]
  passed _ := by simp

/-- The detour is made when `t` has been visited on another way. -/
theorem Abreast.detour_of_mem (h : Abreast t x seen seen') (ht : t ∈ seen) :
    Abreast t x seen (seen' ++ [x]) where
  mem_iff b hb := by simp [h.mem_iff b hb, hb]
  passed _ := ht

variable [DecidableEq α]

/-- A walk with the detour visits the same, in the same order, besides `x`. -/
theorem DepthFirst.exists_diverted (h : DepthFirst next seen todo order) (hx : next' x = [t])
    (hnext : ∀ a, a ≠ x → List.Forall₂ (Diverted t x) (next a) (next' a))
    (hseen : Abreast t x seen seen') (htodo : List.Forall₂ (Diverted t x) todo todo') :
    ∃ order', DepthFirst next' seen' todo' order' ∧ order'.filter (· ≠ x) = order ∧
      Abreast t x (seen ++ order) (seen' ++ order') := by
  induction h generalizing seen' todo' with
  | done =>
    cases htodo
    exact ⟨[], .done, rfl, by simpa using hseen⟩
  | @pass seen todo order a ha _ ih =>
    cases htodo with
    | @cons _ a' _ todo' haa htodo =>
    obtain ⟨hax, rfl | ⟨rfl, rfl⟩⟩ := haa
    · obtain ⟨order', h', horder, hend⟩ := ih hseen htodo
      exact ⟨order', .pass ((hseen.mem_iff _ hax).mpr ha) h', horder, hend⟩
    · by_cases hxs : a' ∈ seen'
      · obtain ⟨order', h', horder, hend⟩ := ih hseen htodo
        exact ⟨order', .pass hxs h', horder, hend⟩
      · have hbelow : DepthFirst next' (seen' ++ [a']) (next' a') [] := by
          rw [hx]
          exact .pass (List.mem_append_left _ ((hseen.mem_iff a hax).mpr ha)) .done
        obtain ⟨order', h', horder, hend⟩ := ih (hseen.detour_of_mem ha) htodo
        refine ⟨a' :: [] ++ order', .visit hxs hbelow h', by simpa using horder, ?_⟩
        simpa using hend
  | @visit seen todo below order a ha _ _ ihbelow ihrest =>
    cases htodo with
    | @cons _ a' _ todo' haa htodo =>
    have hax := haa.1
    have ha' : a ∉ seen' := fun h => ha ((hseen.mem_iff a hax).mp h)
    obtain ⟨-, rfl | ⟨rfl, rfl⟩⟩ := haa
    · obtain ⟨below', hb, hbelow, hmid⟩ := ihbelow (hseen.visit hax) (hnext a' hax)
      simp only [List.append_assoc, List.singleton_append] at hmid
      obtain ⟨order', h', horder, hend⟩ := ihrest hmid htodo
      refine ⟨a' :: below' ++ order', .visit ha' hb h', ?_, by simpa using hend⟩
      rw [List.filter_append, List.filter_cons_of_pos (by simpa using hax), hbelow, horder]
    · -- what is not passed yet is the detour, as what it leads to is not visited yet
      have hxs : a' ∉ seen' := fun h => ha (hseen.passed h)
      obtain ⟨below', hb, hbelow, hmid⟩ := ihbelow hseen.detour (hnext a hax)
      simp only [List.append_assoc, List.cons_append, List.nil_append] at hmid hb
      have hvisit : DepthFirst next' (seen' ++ [a']) (next' a') (a :: below' ++ []) := by
        rw [hx]
        apply DepthFirst.visit
        · simp [ha', hax]
        · simpa using hb
        · exact .done
      rw [List.append_nil] at hvisit
      obtain ⟨order', h', horder, hend⟩ := ihrest hmid htodo
      refine ⟨a' :: (a :: below') ++ order', .visit hxs hvisit h', ?_, by simpa using hend⟩
      rw [List.filter_append, List.filter_cons_of_neg (by simp),
        List.filter_cons_of_pos (by simpa using hax), hbelow, horder]

end Walks

namespace Graph

/-- Some connections to `t` lead by a placeholder `x` in the second graph, which is new there. -/
structure Detour (t : NodeId) (x : Node) (g g' : Graph) : Prop where
  wellFormed : WellFormed g
  wellFormed' : WellFormed g'
  isPlaceholder_node : x.isPlaceholder = true
  nodes_eq : g'.nodes = g.nodes ++ [x]
  members_eq : ∀ f, g'.members f = g.members f
  successors_node : g'.successors x.id = [t]
  diverted : ∀ a, a ≠ x.id → List.Forall₂ (Diverted t x.id) (g.successors a) (g'.successors a)

namespace Detour

variable {g g' : Graph} {t a b id : NodeId} {x : Node}

theorem withPlaceholder (h : Detour t x g g') : WithPlaceholder x g.nodes [] g g' where
  wellFormed := h.wellFormed
  wellFormed' := h.wellFormed'
  isPlaceholder_node := h.isPlaceholder_node
  nodes_eq := (List.append_nil _).symm
  nodes_eq' := h.nodes_eq
  members_eq := h.members_eq

theorem not_mem_ids (h : Detour t x g g') : x.id ∉ g.ids := h.withPlaceholder.not_mem_ids

theorem isPlaceholder_eq (h : Detour t x g g') : g'.isPlaceholder = g.isPlaceholder :=
  h.withPlaceholder.isPlaceholder_eq

theorem isPlaceholder_id (h : Detour t x g g') : g'.isPlaceholder x.id = true :=
  h.withPlaceholder.isPlaceholder_id

theorem mem_successors (h : Detour t x g g') (ha : a ≠ x.id) (hb : b ∈ g.successors a) :
    b ∈ g'.successors a ∨ b = t ∧ x.id ∈ g'.successors a := by
  obtain ⟨b', hb', -, rfl | ⟨rfl, rfl⟩⟩ := exists_of_forall₂ (h.diverted a ha) hb
  · exact .inl hb'
  · exact .inr ⟨rfl, hb'⟩

theorem mem_successors' (h : Detour t x g g') (ha : a ≠ x.id) (hb : b ∈ g'.successors a) :
    b ∈ g.successors a ∨ b = x.id ∧ t ∈ g.successors a := by
  obtain ⟨b', hb', -, rfl | ⟨rfl, rfl⟩⟩ := exists_of_forall₂ (h.diverted a ha).flip hb
  · exact .inl hb'
  · exact .inr ⟨rfl, hb'⟩

theorem ne_of_mem_successors (h : Detour t x g g') (hb : b ∈ g.successors a) : b ≠ x.id := by
  rintro rfl
  exact h.not_mem_ids (successors_subset h.wellFormed a hb)

theorem ne_of_feeds (h : Detour t x g g') (ha : g.Feeds a) : a ≠ x.id :=
  h.withPlaceholder.ne_of_feeds ha

theorem feeds_of_feeds (h : Detour t x g g') (ha : g.Feeds a) : g'.Feeds a := by
  induction ha with
  | @registered n hn hk =>
    have hn' : n ∈ g'.nodes := by
      rw [h.nodes_eq]
      exact List.mem_append_left _ hn
    exact .registered hn' hk
  | @through a b ha hb hp ih =>
    rw [← h.isPlaceholder_eq] at hp
    rcases h.mem_successors (h.ne_of_feeds ha) hb with hb | ⟨rfl, hx⟩
    · exact .through ih hb hp
    · have hx : g'.Feeds x.id := .through ih hx h.isPlaceholder_id
      exact .through hx (by simp [h.successors_node]) hp

/-- Data come out of the new placeholder only when they would come to `t` without it. -/
theorem feeds_of_feeds' (h : Detour t x g g') (ha : g'.Feeds a) :
    (a ≠ x.id → g.Feeds a) ∧ (a = x.id → ∃ b, g.Feeds b ∧ t ∈ g.successors b) := by
  induction ha with
  | @registered n hn hk =>
    rw [h.nodes_eq, List.mem_append, List.mem_singleton] at hn
    rcases hn with hn | rfl
    · refine ⟨fun _ => .registered hn hk, ?_⟩
      intro hx
      exact absurd (hx ▸ List.mem_map_of_mem hn) h.not_mem_ids
    · rw [h.isPlaceholder_node] at hk
      cases hk
  | @through a b _ hb hp ih =>
    rw [h.isPlaceholder_eq] at hp
    by_cases hax : a = x.id
    · obtain ⟨c, hc, ht⟩ := ih.2 hax
      obtain rfl : b = t := by simpa [hax, h.successors_node] using hb
      exact ⟨fun _ => .through hc ht hp, fun hbx => absurd hbx (h.ne_of_mem_successors ht)⟩
    · rcases h.mem_successors' hax hb with hb | ⟨rfl, ht⟩
      · have hbx := h.ne_of_mem_successors hb
        exact ⟨fun _ => .through (ih.1 hax) hb hp, fun hne => absurd hne hbx⟩
      · exact ⟨fun hne => absurd rfl hne, fun _ => ⟨a, ih.1 hax, ht⟩⟩

/-- Data come to the same registered blocks. -/
theorem exists_feeds_iff (h : Detour t x g g') (hb : b ≠ x.id) :
    (∃ a, b ∈ g'.successors a ∧ g'.Feeds a) ↔ ∃ a, b ∈ g.successors a ∧ g.Feeds a := by
  constructor
  · rintro ⟨a, hba, ha⟩
    by_cases hax : a = x.id
    · obtain rfl : b = t := by simpa [hax, h.successors_node] using hba
      obtain ⟨c, hc, ht⟩ := (h.feeds_of_feeds' ha).2 hax
      exact ⟨c, ht, hc⟩
    · rcases h.mem_successors' hax hba with hba | ⟨hbx, -⟩
      · exact ⟨a, hba, (h.feeds_of_feeds' ha).1 hax⟩
      · exact absurd hbx hb
  · rintro ⟨a, hba, ha⟩
    rcases h.mem_successors (h.ne_of_feeds ha) hba with hba | ⟨rfl, hx⟩
    · exact ⟨a, hba, h.feeds_of_feeds ha⟩
    · exact ⟨x.id, by simp [h.successors_node],
        .through (h.feeds_of_feeds ha) hx h.isPlaceholder_id⟩

theorem findStart_eq (h : Detour t x g g') : g'.findStart = g.findStart :=
  h.withPlaceholder.findStart_eq fun _ => h.exists_feeds_iff

theorem filter_reach (h : Detour t x g g') {start : NodeId} (hs : g.findStart = .ok start) :
    (g'.reach start).filter (· ≠ x.id) = g.reach start := by
  have hstart := mem_ids_of_findStart hs
  have hne : start ≠ x.id := fun hne => h.not_mem_ids (hne ▸ hstart)
  have hwalk := depthFirst_reach h.wellFormed hstart
  have hnone : Abreast t x.id [] [] := ⟨by simp, by simp⟩
  obtain ⟨order', hwalk', horder, -⟩ :=
    hwalk.exists_diverted h.successors_node h.diverted hnone (.cons (.refl hne) .nil)
  rw [← (depthFirst_iff_reach h.wellFormed' (h.withPlaceholder.ids_subset hstart)).mp hwalk',
    horder]

theorem alongside (h : Detour t x g g') : WithPlaceholder.Alongside x g g' :=
  ⟨h.findStart_eq, fun _ => h.filter_reach⟩

theorem compile_eq (h : Detour t x g g') (fallback : Training) (options : CompileOptions) :
    g'.compile fallback options = (g.compile fallback options).map fun c =>
      { c with skipped := c.skipped ++ [⟨x.id, x.block.kindName⟩] } := by
  rw [h.withPlaceholder.compile_eq h.alongside]
  cases hc : g.compile fallback options with
  | error e => rfl
  | ok c =>
    have hskipped := h.withPlaceholder.skipped_of_compile hc
    simp [Except.map, WithPlaceholder.skipped, hskipped]

end Detour

section Documents

variable {d : GraphDocument} {g : Graph} {es₁ es₂ bs cs : List Edge} {e f : EdgeId}
  {s t a : NodeId} {x : Node}

/-- What a document connects when a placeholder is put on one of its connections. -/
theorem mem_of_mem_insert {c : Edge} (hsplit : es₁ ++ ⟨e, s, x.id⟩ :: es₂ = bs ++ cs)
    (hc : c ∈ bs ++ ⟨f, x.id, t⟩ :: cs) :
    c = ⟨f, x.id, t⟩ ∨ c = ⟨e, s, x.id⟩ ∨ c ∈ es₁ ++ es₂ := by
  rwa [List.perm_middle.mem_iff, ← hsplit, List.mem_cons, List.perm_middle.mem_iff,
    List.mem_cons] at hc

theorem nodup_ids_insert (hsplit : es₁ ++ ⟨e, s, x.id⟩ :: es₂ = bs ++ cs)
    (hnodup : ((es₁ ++ ⟨e, s, t⟩ :: es₂).map (·.id)).Nodup)
    (hf : ∀ c ∈ es₁ ++ ⟨e, s, t⟩ :: es₂, c.id ≠ f) :
    ((bs ++ ⟨f, x.id, t⟩ :: cs).map (·.id)).Nodup := by
  have hsame : (bs ++ cs).map (·.id) = (es₁ ++ ⟨e, s, t⟩ :: es₂).map (·.id) := by
    rw [← hsplit]
    simp
  rw [(List.perm_middle.map _).nodup_iff, List.map_cons, hsame]
  refine List.nodup_cons.mpr ⟨?_, hnodup⟩
  intro hm
  obtain ⟨c, hc, hcf⟩ := List.mem_map.mp hm
  exact hf c hc hcf

theorem edge_ends_insert {ns : List Node} (hsplit : es₁ ++ ⟨e, s, x.id⟩ :: es₂ = bs ++ cs)
    (hid : ∀ n ∈ ns, n.id ≠ x.id)
    (hends : ∀ c ∈ es₁ ++ ⟨e, s, t⟩ :: es₂, c.source ≠ c.target ∧
      (∃ n ∈ ns, n.id = c.source) ∧ ∃ n ∈ ns, n.id = c.target) :
    ∀ c ∈ bs ++ ⟨f, x.id, t⟩ :: cs, c.source ≠ c.target ∧
      (∃ n ∈ ns ++ [x], n.id = c.source) ∧ ∃ n ∈ ns ++ [x], n.id = c.target := by
  have hold : ∀ i, (∃ n ∈ ns, n.id = i) → ∃ n ∈ ns ++ [x], n.id = i := by
    rintro i ⟨n, hn, hni⟩
    exact ⟨n, List.mem_append_left _ hn, hni⟩
  have hne : ∀ i, (∃ n ∈ ns, n.id = i) → i ≠ x.id := by
    rintro i ⟨n, hn, rfl⟩
    exact hid n hn
  have hnew : ∃ n ∈ ns ++ [x], n.id = x.id := ⟨x, by simp, rfl⟩
  obtain ⟨-, hs, ht⟩ := hends ⟨e, s, t⟩ (by simp)
  intro c hc
  rcases mem_of_mem_insert hsplit hc with rfl | rfl | hc
  · exact ⟨Ne.symm (hne t ht), hnew, hold t ht⟩
  · exact ⟨hne s hs, hold s hs, hnew⟩
  · obtain ⟨hne, hs, ht⟩ := hends c (List.perm_middle.mem_iff.mpr (List.mem_cons_of_mem _ hc))
    exact ⟨hne, hold _ hs, hold _ ht⟩

/-- The connection from the placeholder comes out of no other block. -/
theorem filter_source_insert (hsplit : es₁ ++ ⟨e, s, x.id⟩ :: es₂ = bs ++ cs) (ha : a ≠ x.id) :
    (bs ++ ⟨f, x.id, t⟩ :: cs).filter (·.source = a) =
      (es₁ ++ ⟨e, s, x.id⟩ :: es₂).filter (·.source = a) := by
  rw [hsplit, List.filter_append, List.filter_append,
    List.filter_cons_of_neg (by simpa using Ne.symm ha)]

theorem forall₂_diverted (hsplit : es₁ ++ ⟨e, s, x.id⟩ :: es₂ = bs ++ cs)
    (htargets : ∀ c ∈ es₁ ++ ⟨e, s, t⟩ :: es₂, c.target ≠ x.id) (ha : a ≠ x.id) :
    List.Forall₂ (Diverted t x.id)
      (((es₁ ++ ⟨e, s, t⟩ :: es₂).filter (·.source = a)).map (·.target))
      (((bs ++ ⟨f, x.id, t⟩ :: cs).filter (·.source = a)).map (·.target)) := by
  have hrefl : ∀ es ⊆ es₁ ++ ⟨e, s, t⟩ :: es₂, List.Forall₂ (Diverted t x.id)
      ((es.filter (·.source = a)).map (·.target)) ((es.filter (·.source = a)).map (·.target)) := by
    intro es hes
    rw [List.forall₂_same]
    intro b hb
    obtain ⟨c, hc, rfl⟩ := List.mem_map.mp hb
    exact .refl (htargets c (hes (List.mem_of_mem_filter hc)))
  have h₁ := hrefl es₁ (List.subset_append_left _ _)
  have h₂ := hrefl es₂ fun c hc => List.mem_append_right _ (List.mem_cons_of_mem _ hc)
  rw [filter_source_insert hsplit ha]
  simp only [List.filter_append, List.map_append]
  apply List.rel_append h₁
  by_cases hs : s = a
  · rw [List.filter_cons_of_pos (by simpa using hs), List.filter_cons_of_pos (by simpa using hs)]
    have ht : t ≠ x.id := htargets ⟨e, s, t⟩ (by simp)
    exact .cons ⟨ht, .inr ⟨rfl, rfl⟩⟩ h₂
  · rwa [List.filter_cons_of_neg (by simpa using hs), List.filter_cons_of_neg (by simpa using hs)]

/-- Nothing else comes out of the placeholder. -/
theorem targets_of_placeholder (hsplit : es₁ ++ ⟨e, s, x.id⟩ :: es₂ = bs ++ cs)
    (hsources : ∀ c ∈ es₁ ++ ⟨e, s, t⟩ :: es₂, c.source ≠ x.id) :
    ((bs ++ ⟨f, x.id, t⟩ :: cs).filter (·.source = x.id)).map (·.target) = [t] := by
  have hnone : (bs ++ cs).filter (·.source = x.id) = [] := by
    rw [← hsplit, List.filter_eq_nil_iff]
    intro c hc
    rw [List.perm_middle.mem_iff, List.mem_cons] at hc
    rcases hc with rfl | hc
    · simpa using hsources ⟨e, s, t⟩ (by simp)
    · simpa using hsources c (List.perm_middle.mem_iff.mpr (List.mem_cons_of_mem _ hc))
  rw [List.filter_append, List.append_eq_nil_iff] at hnone
  rw [List.filter_append, List.filter_cons_of_pos (by simp), hnone.1, hnone.2]
  rfl

/-- A document with a placeholder on one of its connections makes a graph with this detour. -/
theorem exists_detour (hd : ofDocument d = .ok g) (hedges : d.edges = es₁ ++ ⟨e, s, t⟩ :: es₂)
    (hsplit : es₁ ++ ⟨e, s, x.id⟩ :: es₂ = bs ++ cs) (hx : x.isPlaceholder = true)
    (hid : ∀ n ∈ d.nodes, n.id ≠ x.id) (hf : ∀ c ∈ d.edges, c.id ≠ f) :
    ∃ g', ofDocument ⟨d.nodes ++ [x], bs ++ ⟨f, x.id, t⟩ :: cs⟩ = .ok g' ∧ Detour t x g g' := by
  obtain ⟨hc, rfl⟩ := of_ofDocument_eq_ok hd
  change g.edges = _ at hedges
  change ∀ n ∈ g.nodes, n.id ≠ x.id at hid
  change ∀ c ∈ g.edges, c.id ≠ f at hf
  have hnodup := hc.wellFormed.edges_nodup
  have hends := hc.wellFormed.edge_ends
  simp only [contains_iff] at hends
  rw [hedges] at hf hnodup hends
  have hids : ((g.nodes ++ [x]).map (·.id)).Nodup := by
    rw [List.map_append, List.map_singleton, List.nodup_append]
    refine ⟨hc.wellFormed.ids_nodup, List.nodup_singleton _, ?_⟩
    intro i hi j hj
    obtain ⟨n, hn, rfl⟩ := List.mem_map.mp hi
    obtain rfl := List.mem_singleton.mp hj
    exact hid n hn
  obtain ⟨g', hd', hc', hdoc'⟩ :=
    @exists_ofDocument ⟨g.nodes ++ [x], bs ++ ⟨f, x.id, t⟩ :: cs⟩ hids
      (nodup_ids_insert hsplit hnodup hf) (edge_ends_insert hsplit hid hends)
  obtain ⟨hnodes, hedges'⟩ := GraphDocument.mk.inj hdoc'
  refine ⟨g', hd', hc.wellFormed, hc'.wellFormed, hx, hnodes, ?_, ?_, ?_⟩
  · intro k
    apply members_eq_of_inSlotOrder hc.wellFormed hc'.wellFormed
      (hnodes ▸ List.sublist_append_left _ _) ?_ (hc.inSlotOrder k) (hc'.inSlotOrder k)
    intro n hn hk
    rw [hnodes, List.mem_append, List.mem_singleton] at hn
    rcases hn with hn | rfl
    · exact hn
    · -- placeholders are in no family
      obtain ⟨kind, data, hb⟩ := Block.eq_unknown_of_isPlaceholder hx
      rw [Node.family?, hb] at hk
      cases hk
  · have hsources : ∀ c ∈ es₁ ++ ⟨e, s, t⟩ :: es₂, c.source ≠ x.id := by
      intro c hc
      obtain ⟨-, ⟨n, hn, hni⟩, -⟩ := hends c hc
      exact hni ▸ hid n hn
    unfold successors outgoing
    rw [hedges']
    exact targets_of_placeholder hsplit hsources
  · have htargets : ∀ c ∈ es₁ ++ ⟨e, s, t⟩ :: es₂, c.target ≠ x.id := by
      intro c hc
      obtain ⟨-, -, n, hn, hni⟩ := hends c hc
      exact hni ▸ hid n hn
    intro a ha
    unfold successors outgoing
    rw [hedges', hedges]
    exact forall₂_diverted hsplit htargets ha

/--
A placeholder is put on a connection: the connection leads to the placeholder instead, and a new
one, anywhere among the others, leads on from there. The graph compiles to the same, or fails with
the same error, but for the placeholder among the blocks that are left out.
-/
theorem compile_detour (hd : ofDocument d = .ok g) (hedges : d.edges = es₁ ++ ⟨e, s, t⟩ :: es₂)
    (hsplit : es₁ ++ ⟨e, s, x.id⟩ :: es₂ = bs ++ cs) (hx : x.isPlaceholder = true)
    (hid : ∀ n ∈ d.nodes, n.id ≠ x.id) (hf : ∀ c ∈ d.edges, c.id ≠ f) :
    ∃ g', ofDocument ⟨d.nodes ++ [x], bs ++ ⟨f, x.id, t⟩ :: cs⟩ = .ok g' ∧
      ∀ fallback options, g'.compile fallback options = (g.compile fallback options).map fun c =>
        { c with skipped := c.skipped ++ [⟨x.id, x.block.kindName⟩] } := by
  obtain ⟨g', hd', h⟩ := exists_detour hd hedges hsplit hx hid hf
  exact ⟨g', hd', h.compile_eq⟩

end Documents

/-- A placeholder between the two layers. -/
def bridged : GraphDocument where
  nodes := [.new ⟨"in"⟩ 0 (.input ⟨4, 4⟩), .new ⟨"gap"⟩ 0 (.unknown "codeBlock" .null),
    .new ⟨"out"⟩ 1 (.output ⟨4, 2⟩)]
  edges := [⟨⟨"1"⟩, ⟨"in"⟩, ⟨"gap"⟩⟩, ⟨⟨"2"⟩, ⟨"gap"⟩, ⟨"out"⟩⟩]

/-- Another placeholder behind the first one. -/
theorem compile_detour_bridged :
    let note : Node := .new ⟨"note"⟩ 0 (.unknown "textBlock" .null)
    let d : GraphDocument := ⟨bridged.nodes ++ [note],
      [⟨⟨"3"⟩, ⟨"note"⟩, ⟨"out"⟩⟩, ⟨⟨"1"⟩, ⟨"in"⟩, ⟨"gap"⟩⟩, ⟨⟨"2"⟩, ⟨"gap"⟩, ⟨"note"⟩⟩]⟩
    let model : Model :=
      { layers := [("fcl_input1", .input 4), ("fcl_output1", .dense 3 10 .softmax)]
        training := {} }
    ∃ g g', ofDocument bridged = .ok g ∧ ofDocument d = .ok g' ∧
      g.compile {} {} = .ok ⟨model, [⟨⟨"gap"⟩, "codeBlock"⟩], [], []⟩ ∧
      g'.compile {} {} =
        .ok ⟨model, [⟨⟨"gap"⟩, "codeBlock"⟩, ⟨⟨"note"⟩, "textBlock"⟩], [], []⟩ := by
  intro note d model
  let g : Graph :=
    { slots := bridged.nodes.map some, neural := [⟨"in"⟩, ⟨"out"⟩], edges := bridged.edges }
  have hd : ofDocument bridged = .ok g := by decide +kernel
  have hfed : g.fedPlaceholders = [⟨"gap"⟩] :=
    (walk_eq_visited (n := 2) (by decide) (by decide) (by decide) (by decide)).trans (by decide)
  have hreach : g.reach ⟨"in"⟩ = [⟨"in"⟩, ⟨"gap"⟩, ⟨"out"⟩] :=
    (walk_eq_visited (n := 3) (by decide) (by decide) (by decide) (by decide)).trans (by decide)
  have hstart : g.findStart = .ok ⟨"in"⟩ := by
    unfold findStart startCandidates
    rw [hfed]
    decide
  have hcompile : g.compile {} {} = .ok ⟨model, [⟨⟨"gap"⟩, "codeBlock"⟩], [], []⟩ := by
    unfold compile linearize
    rw [hstart]
    dsimp only
    rw [hreach]
    decide +kernel
  have hedges : bridged.edges = [⟨⟨"1"⟩, ⟨"in"⟩, ⟨"gap"⟩⟩] ++ ⟨⟨"2"⟩, ⟨"gap"⟩, ⟨"out"⟩⟩ :: [] := rfl
  have hsplit : [(⟨⟨"1"⟩, ⟨"in"⟩, ⟨"gap"⟩⟩ : Edge)] ++ ⟨⟨"2"⟩, ⟨"gap"⟩, note.id⟩ :: [] =
      [] ++ [⟨⟨"1"⟩, ⟨"in"⟩, ⟨"gap"⟩⟩, ⟨⟨"2"⟩, ⟨"gap"⟩, note.id⟩] := rfl
  obtain ⟨g', hd', h⟩ :=
    compile_detour (f := ⟨"3"⟩) hd hedges hsplit rfl (by decide) (by decide)
  refine ⟨g, g', hd, hd', hcompile, ?_⟩
  rw [h, hcompile]
  rfl

end Graph

end LayerGraph
