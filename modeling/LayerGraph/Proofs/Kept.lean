import LayerGraph.IndexedGraph
import LayerGraph.Proofs.History
import LayerGraph.Proofs.Lists

namespace LayerGraph

/-- The index leads from each key to the place that holds it. -/
def Indexes {κ : Type} [DecidableEq κ] (index : List (κ × Nat)) (keyAt : Nat → Option κ) : Prop :=
  ∀ k i, index.lookup k = some i ↔ keyAt i = some k

namespace Indexes

variable {κ : Type} [DecidableEq κ] {index : List (κ × Nat)} {keyAt keyAt' : Nat → Option κ}
  {k : κ} {i j : Nat}

theorem inj (h : Indexes index keyAt) (hi : keyAt i = some k) (hj : keyAt j = some k) : i = j :=
  Option.some.inj (((h k i).mpr hi).symm.trans ((h k j).mpr hj))

theorem lookup_eq_none_iff (h : Indexes index keyAt) :
    index.lookup k = none ↔ ∀ i, keyAt i ≠ some k := by
  rw [Option.eq_none_iff_forall_ne_some]
  exact forall_congr' fun i => not_congr (h k i)

theorem insert (h : Indexes index keyAt) (hk : index.lookup k = none) (hi : keyAt i = none)
    (hkeys : ∀ j, keyAt' j = if j = i then some k else keyAt j) :
    Indexes ((k, i) :: index) keyAt' := by
  intro l j
  rw [List.lookup_cons, hkeys]
  by_cases hl : l = k
  · subst hl
    have hnone := h.lookup_eq_none_iff.mp hk j
    by_cases hj : j = i <;> simp [hj, hnone, eq_comm (a := i)]
  · have hbeq : (l == k) = false := by simpa using hl
    by_cases hj : j = i
    · simp [hbeq, hj, h l i, hi, Ne.symm hl]
    · simp [hbeq, hj, h l j]

theorem filter (h : Indexes index keyAt) {p : κ → Bool}
    (hkeys : ∀ j, keyAt' j = (keyAt j).filter p) :
    Indexes (index.filter (p ·.1)) keyAt' := by
  intro k j
  rw [lookup_filter, hkeys, Option.filter_eq_some_iff, ← h k j]
  cases p k <;> simp

end Indexes

namespace Graph

variable {g : Graph} {n : Node} {i : Nat}

theorem ids_mapNode {k : Node → Node} (hid : ∀ n, (k n).id = n.id) (id : NodeId) :
    (g.mapNode id k).nodes.map (·.id) = g.nodes.map (·.id) := by
  rw [nodes_mapNode, List.map_map]
  apply List.map_congr_left
  intro n _
  simp only [Function.comp_apply]
  split
  · exact hid n
  · rfl

/-- A node is changed in its slot. -/
theorem arena_mapNode {k : Node → Node} (hids : (g.nodes.map (·.id)).Nodup)
    (hi : g.arena.get? i = some n) : (g.mapNode n.id k).arena = g.arena.modify i k := by
  have hslot : ∀ j m, g.arena.get? j = some m → (j ∈ [i] ↔ decide (m.id = n.id) = true) := by
    intro j m hm
    rw [List.mem_singleton, decide_eq_true_eq]
    refine ⟨?_, Arena.get?_inj (a := g.arena) hids hm hi⟩
    rintro rfl
    rw [Option.some.inj (hm.symm.trans hi)]
  have hmodify := Arena.foldl_modify_eq_map (f := k) (List.nodup_singleton i) hslot
  simp only [decide_eq_true_eq] at hmodify
  rw [mapNode_eq_mapNodes]
  exact hmodify.symm

end Graph

namespace IndexedGraph

variable {s : IndexedGraph} {g : Graph} {id : NodeId} {i j k : Nat} {n : Node} {f : Family}
  {e : FlowEdge} {x : Edge}

/-- The nodes of the graph are in the slots that the index says. -/
structure KeepsNodes (s : IndexedGraph) (g : Graph) : Prop where
  nodes_eq : s.nodes = g.arena
  indexes : Indexes s.nodeIndex s.idAt

/-- The families list the slots of the nodes that those of the graph list. -/
def KeepsFamilies (s : IndexedGraph) (g : Graph) : Prop :=
  ∀ f, (s.familySlots f).map s.idAt = (g.family f).map some

/-- The connections of the graph are in slots, in the order of their numbers. -/
structure KeepsEdges (s : IndexedGraph) (g : Graph) : Prop where
  sound : s.edges.Sound
  indexes : Indexes s.edgeIndex s.edgeIdAt
  ordinal_lt : ∀ e ∈ s.edges.entries, e.ordinal < s.nextOrdinal
  inOrder : ∃ es, es.Perm s.edges.entries ∧ es.Pairwise (·.ordinal < ·.ordinal) ∧
    List.Forall₂ (fun e x => s.named e = some x) es g.edges

structure Keeps (s : IndexedGraph) (g : Graph) : Prop where
  nodes : s.KeepsNodes g
  families : s.KeepsFamilies g
  edges : s.KeepsEdges g

theorem idAt_eq_some_iff : s.idAt i = some id ↔ ∃ n, s.nodes.get? i = some n ∧ n.id = id := by
  simp [idAt]

theorem named_eq_some_iff : s.named e = some x ↔
    e.id = x.id ∧ s.idAt e.source = some x.source ∧ s.idAt e.target = some x.target := by
  obtain ⟨xi, xs, xt⟩ := x
  unfold named
  cases s.idAt e.source <;> cases s.idAt e.target <;> simp [and_comm]

namespace KeepsNodes

variable (h : s.KeepsNodes g) (hids : (g.nodes.map (·.id)).Nodup)

include h in
theorem mem_nodes_iff : n ∈ g.nodes ↔ ∃ i, s.nodes.get? i = some n := by
  rw [h.nodes_eq, Graph.mem_nodes_iff]

include h hids

theorem get?_eq (i : Nat) : s.nodes.get? i = (s.idAt i).bind g.node? := by
  unfold idAt
  cases hn : s.nodes.get? i with
  | none => rfl
  | some n =>
    have hmem : n ∈ g.nodes := h.mem_nodes_iff.mpr ⟨i, hn⟩
    exact ((Graph.node?_eq_some_iff hids).mpr ⟨hmem, rfl⟩).symm

theorem node?_eq (id : NodeId) : s.node? id = g.node? id := by
  unfold node?
  cases hi : s.slot? id with
  | some i =>
    rw [Option.bind_some, h.get?_eq hids, (h.indexes id i).mp hi]
    rfl
  | none =>
    have hnone := h.indexes.lookup_eq_none_iff.mp hi
    cases hn : g.node? id with
    | none => rfl
    | some n =>
      obtain ⟨i, hi⟩ := h.mem_nodes_iff.mp (Graph.mem_of_node? hn)
      exact absurd (idAt_eq_some_iff.mpr ⟨n, hi, Graph.node?_id hn⟩) (hnone i)

omit hids in
theorem isSome_slot? (id : NodeId) : (s.slot? id).isSome = g.contains id := by
  rw [Bool.eq_iff_iff, Graph.contains_iff, Option.isSome_iff_exists]
  simp only [slot?, h.indexes id, idAt_eq_some_iff, h.mem_nodes_iff]
  constructor
  · rintro ⟨i, n, hi, hn⟩
    exact ⟨n, ⟨i, hi⟩, hn⟩
  · rintro ⟨n, ⟨i, hi⟩, hn⟩
    exact ⟨i, n, hi, hn⟩

/-- A node is found in its slot, or not at all. -/
theorem get_cases (id : NodeId) :
    (s.get id = .error (.nodeNotFound id) ∧ g.get id = .error (.nodeNotFound id)) ∨
      ∃ i n, s.get id = .ok (i, n) ∧ g.get id = .ok n ∧ s.nodes.get? i = some n ∧ n.id = id := by
  unfold IndexedGraph.get Graph.get
  rw [← h.node?_eq hids]
  unfold node?
  cases hi : s.slot? id with
  | none => exact .inl ⟨rfl, rfl⟩
  | some i =>
    rw [Option.bind_some]
    obtain ⟨n, hn, hni⟩ := idAt_eq_some_iff.mp ((h.indexes id i).mp hi)
    simp only [hn]
    exact .inr ⟨i, n, rfl, rfl, hn, hni⟩

end KeepsNodes

theorem exists_file_eq (s : IndexedGraph) (i : Nat) (n : Node) :
    ∃ is js, s.file i n = { s with neural := is, spatial := js } := by
  unfold file
  cases n.family? with
  | none => exact ⟨s.neural, s.spatial, rfl⟩
  | some f => cases f <;> exact ⟨_, _, rfl⟩

theorem familySlots_setFamilySlots (s : IndexedGraph) (f k : Family) (is : List Nat) :
    (s.setFamilySlots f is).familySlots k = if k = f then is else s.familySlots k := by
  cases f <;> cases k <;> rfl

theorem nodes_setFamilySlots (s : IndexedGraph) (f : Family) (is : List Nat) :
    (s.setFamilySlots f is).nodes = s.nodes := by cases f <;> rfl

theorem familySlots_unfile (s : IndexedGraph) (i : Nat) (f : Family) :
    (s.unfile i).familySlots f = (s.familySlots f).filter (· ≠ i) := by cases f <;> rfl

theorem KeepsFamilies.unfile (h : s.KeepsFamilies g) (hn : s.KeepsNodes g)
    (hi : s.idAt i = some id) : (s.unfile i).KeepsFamilies (g.unfile id) := by
  intro f
  have hne : ∀ j, decide (j ≠ i) = decide (s.idAt j ≠ some id) := by
    intro j
    rw [decide_eq_decide]
    refine not_congr ⟨?_, fun hj => hn.indexes.inj hj hi⟩
    rintro rfl
    exact hi
  rw [familySlots_unfile, Graph.family_unfile, List.filter_congr fun j _ => hne j]
  have hidAt : (s.unfile i).idAt = s.idAt := rfl
  have hfilter := congrArg (List.filter fun o => decide (o ≠ some id)) (h f)
  rw [List.filter_map, List.filter_map] at hfilter
  rw [hidAt]
  simpa [Function.comp_def] using hfilter

theorem KeepsFamilies.file (h : s.KeepsFamilies g) (hn : s.KeepsNodes g)
    (hids : (g.nodes.map (·.id)).Nodup) (hi : s.nodes.get? i = some n) :
    (s.file i n).KeepsFamilies (g.file n) := by
  cases hk : n.family? with
  | none =>
    simp only [IndexedGraph.file, Graph.file, hk]
    exact h
  | some k =>
    have hlater : ∀ j, (!s.comesAfter n.sequenceIndex j) =
        (s.idAt j).all (!g.comesAfter n.sequenceIndex ·) := by
      intro j
      unfold IndexedGraph.comesAfter Graph.comesAfter
      rw [hn.get?_eq hids]
      cases s.idAt j <;> rfl
    intro l
    simp only [IndexedGraph.file, Graph.file, hk, familySlots_setFamilySlots,
      Graph.family_setFamily, hlater]
    have hidAt : ∀ is, (s.setFamilySlots k is).idAt = s.idAt := by
      intro is
      unfold idAt
      rw [nodes_setFamilySlots]
    rw [hidAt]
    split
    · have hid : s.idAt i = some n.id := idAt_eq_some_iff.mpr ⟨n, hi, rfl⟩
      have htake := congrArg (List.takeWhile fun o => o.all (!g.comesAfter n.sequenceIndex ·)) (h k)
      have hdrop := congrArg (List.dropWhile fun o => o.all (!g.comesAfter n.sequenceIndex ·)) (h k)
      rw [List.takeWhile_map, List.takeWhile_map] at htake
      rw [List.dropWhile_map, List.dropWhile_map] at hdrop
      simp only [List.map_append, List.map_cons, hid]
      exact congrArg₂ (fun a b => a ++ some n.id :: b) htake hdrop
    · exact h l

theorem KeepsNodes.insert (h : s.KeepsNodes g) (hg : g.arena.Sound)
    (hn : s.slot? n.id = none) :
    KeepsNodes { s with
      nodes := s.nodes.insert n
      nodeIndex := (n.id, s.nodes.next) :: s.nodeIndex } (g.place n) where
  nodes_eq := by
    rw [Graph.arena_place, ← h.nodes_eq]
  indexes := by
    rw [← h.nodes_eq] at hg
    refine h.indexes.insert hn ?_ ?_
    · unfold idAt
      rw [hg.get?_next]
      rfl
    · intro j
      unfold idAt
      rw [hg.get?_insert]
      split <;> rfl

theorem idAt_modifyNode {k : Node → Node} (hid : ∀ n, (k n).id = n.id) (i : Nat) :
    (s.modifyNode i k).idAt = s.idAt := by
  funext j
  simp only [idAt, modifyNode, Arena.get?_modify]
  split
  · cases s.nodes.get? j <;> simp [hid]
  · rfl

theorem KeepsNodes.modify {k : Node → Node} (h : s.KeepsNodes g)
    (hids : (g.nodes.map (·.id)).Nodup) (hid : ∀ n, (k n).id = n.id)
    (hi : s.nodes.get? i = some n) : (s.modifyNode i k).KeepsNodes (g.mapNode n.id k) where
  nodes_eq := by
    change s.nodes.modify i k = (g.mapNode n.id k).arena
    rw [h.nodes_eq] at hi ⊢
    rw [Graph.arena_mapNode hids hi]
  indexes := by
    rw [idAt_modifyNode hid]
    exact h.indexes

theorem KeepsNodes.file (h : s.KeepsNodes g) (i : Nat) (n : Node) :
    (s.file i n).KeepsNodes (g.file n) := by
  obtain ⟨is, js, hfile⟩ := exists_file_eq s i n
  rw [hfile]
  have harena : (g.file n).arena = g.arena := by
    unfold Graph.arena
    rw [Graph.slots_file, Graph.vacant_file]
  exact ⟨h.nodes_eq.trans harena.symm, h.indexes⟩

theorem KeepsFamilies.mono {s' : IndexedGraph} {g' : Graph} (h : s.KeepsFamilies g)
    (hslots : ∀ f, s'.familySlots f = s.familySlots f) (hfamily : ∀ f, g'.family f = g.family f)
    (hid : ∀ f, ∀ i ∈ s.familySlots f, ∀ id, s.idAt i = some id → s'.idAt i = some id) :
    s'.KeepsFamilies g' := by
  intro f
  rw [hslots, hfamily, ← h f]
  apply List.map_congr_left
  intro i hi
  have hmem : s.idAt i ∈ (g.family f).map some := h f ▸ List.mem_map_of_mem hi
  obtain ⟨id, -, hid'⟩ := List.mem_map.mp hmem
  rw [← hid', hid f i hi id hid'.symm]

namespace KeepsEdges

variable (h : s.KeepsEdges g)

include h

theorem exists_named (he : e ∈ s.edges.entries) : ∃ x ∈ g.edges, s.named e = some x := by
  obtain ⟨es, hperm, -, hes⟩ := h.inOrder
  exact exists_of_forall₂ hes (hperm.mem_iff.mpr he)

theorem exists_entry (hx : x ∈ g.edges) : ∃ e ∈ s.edges.entries, s.named e = some x := by
  obtain ⟨es, hperm, -, hes⟩ := h.inOrder
  obtain ⟨e, he, hex⟩ := exists_of_forall₂ hes.flip hx
  exact ⟨e, hperm.mem_iff.mp he, hex⟩

/-- A connection is found in its slot, or not at all. -/
theorem edge_cases (hids : (g.edges.map (·.id)).Nodup) (id : EdgeId) :
    (s.edgeSlot? id = none ∧ g.edge? id = none) ∨
      ∃ k e x, s.edgeSlot? id = some k ∧ s.edges.get? k = some e ∧ s.named e = some x ∧
        g.edge? id = some x ∧ e.id = id := by
  cases hk : s.edgeSlot? id with
  | none =>
    refine .inl ⟨rfl, Graph.edge?_eq_none_iff.mpr ?_⟩
    intro hid
    obtain ⟨x, hx, rfl⟩ := List.mem_map.mp hid
    obtain ⟨e, he, hex⟩ := h.exists_entry hx
    obtain ⟨k, hek⟩ := Arena.mem_entries.mp he
    refine h.indexes.lookup_eq_none_iff.mp hk k ?_
    rw [edgeIdAt, hek, Option.map_some, (named_eq_some_iff.mp hex).1]
  | some k =>
    have hid : s.edgeIdAt k = some id := (h.indexes id k).mp hk
    obtain ⟨e, he, hei⟩ := Option.map_eq_some_iff.mp hid
    obtain ⟨x, hx, hex⟩ := h.exists_named (Arena.mem_entries.mpr ⟨k, he⟩)
    have hxi : x.id = id := (named_eq_some_iff.mp hex).1.symm.trans hei
    exact .inr ⟨k, e, x, rfl, he, hex, (Graph.edge?_eq_some_iff hids).mpr ⟨hx, hxi⟩, hei⟩

theorem edge?_eq (hids : (g.edges.map (·.id)).Nodup) (id : EdgeId) : s.edge? id = g.edge? id := by
  unfold IndexedGraph.edge?
  rcases h.edge_cases hids id with ⟨hs, hg⟩ | ⟨k, e, x, hk, he, hex, hg, -⟩
  · rw [hs, hg]
    rfl
  · rw [hk, hg]
    simp [he, hex]

/-- The connections of some kind, oldest first. -/
theorem filterMap_named_oldestFirst {p : FlowEdge → Bool} {q : Edge → Bool}
    (hpq : ∀ e x, s.named e = some x → (p e = true ↔ q x = true)) :
    (oldestFirst (s.edges.entries.filter p)).filterMap s.named = g.edges.filter q := by
  obtain ⟨es, hperm, hlt, hes⟩ := h.inOrder
  have hsorted : oldestFirst (s.edges.entries.filter p) = es.filter p :=
    mergeSort_eq_of_perm (hlt.filter p) (hperm.symm.filter p)
  rw [hsorted]
  exact filterMap_eq_of_forall₂ (List.rel_filter (fun e x hx => hpq e x hx) hes)

theorem edgeList_eq : s.edgeList = g.edges := by
  have hall := h.filterMap_named_oldestFirst (p := fun _ => true) (q := fun _ => true) (by simp)
  rwa [List.filter_true, List.filter_true] at hall

theorem mono {s' : IndexedGraph} {g' : Graph}
    (hs : s'.edges = s.edges) (hindex : s'.edgeIndex = s.edgeIndex)
    (hordinal : s'.nextOrdinal = s.nextOrdinal) (hg : g'.edges = g.edges)
    (hid : ∀ i id, s.idAt i = some id → s'.idAt i = some id) : s'.KeepsEdges g' where
  sound := hs ▸ h.sound
  indexes := by
    unfold edgeIdAt
    rw [hindex, hs]
    exact h.indexes
  ordinal_lt := by
    rw [hs, hordinal]
    exact h.ordinal_lt
  inOrder := by
    obtain ⟨es, hperm, hlt, hnamed⟩ := h.inOrder
    rw [hs, hg]
    refine ⟨es, hperm, hlt, hnamed.imp ?_⟩
    intro e x hx
    obtain ⟨hi, hs, ht⟩ := named_eq_some_iff.mp hx
    exact named_eq_some_iff.mpr ⟨hi, hid _ _ hs, hid _ _ ht⟩

/-- Connections are told by their ids. -/
theorem mem_filterMap_edgeIdAt (ks : List Nat) (hk : s.edges.get? k = some e) :
    e.id ∈ ks.filterMap s.edgeIdAt ↔ k ∈ ks := by
  have hid : s.edgeIdAt k = some e.id := congrArg (Option.map _) hk
  rw [List.mem_filterMap]
  constructor
  · rintro ⟨j, hj, hje⟩
    exact h.indexes.inj hje hid ▸ hj
  · intro hk
    exact ⟨k, hk, hid⟩

theorem indexes_foldl_erase (ks : List Nat) :
    Indexes (s.edgeIndex.filter (·.1 ∉ ks.filterMap s.edgeIdAt))
      fun k => ((ks.foldl Arena.erase s.edges).get? k).map (·.id) := by
  refine h.indexes.filter (p := (· ∉ ks.filterMap s.edgeIdAt)) ?_
  intro k
  rw [Arena.get?_foldl_erase]
  cases he : s.edges.get? k with
  | none => simp [edgeIdAt, he]
  | some e =>
    have hk := h.mem_filterMap_edgeIdAt ks he
    by_cases hks : k ∈ ks <;> simp [edgeIdAt, he, Option.filter, hk, hks]

/-- Some connections are taken out, the same from the slots as from the graph. -/
theorem erase {s' : IndexedGraph} {g' : Graph} {ks : List Nat} {p : FlowEdge → Bool}
    {q : Edge → Bool} (hks : ks.Nodup)
    (hmem : ∀ k, k ∈ ks ↔ ∃ e, s.edges.get? k = some e ∧ p e = true)
    (hpq : ∀ e x, s.named e = some x → (p e = true ↔ q x = true))
    (hs : s'.edges = ks.foldl Arena.erase s.edges)
    (hindex : s'.edgeIndex = s.edgeIndex.filter (·.1 ∉ ks.filterMap s.edgeIdAt))
    (hordinal : s'.nextOrdinal = s.nextOrdinal) (hg : g'.edges = g.edges.filter (!q ·))
    (hnamed : ∀ e x, p e = false → s.named e = some x → s'.named e = some x) :
    s'.KeepsEdges g' := by
  have hget : ∀ k e, s.edges.get? k = some e → (k ∈ ks ↔ p e = true) := by
    intro k e he
    simp [hmem, he]
  have hentries : s'.edges.entries = s.edges.entries.filter (!p ·) := by
    rw [hs, Arena.entries_foldl_erase hget]
  refine ⟨?_, ?_, ?_, ?_⟩
  · rw [hs]
    refine h.sound.foldl_erase hks ?_
    intro k hk
    obtain ⟨e, he, -⟩ := (hmem k).mp hk
    exact ⟨e, he⟩
  · unfold edgeIdAt
    rw [hindex, hs]
    exact h.indexes_foldl_erase ks
  · intro e he
    rw [hentries] at he
    rw [hordinal]
    exact h.ordinal_lt e (List.mem_of_mem_filter he)
  · obtain ⟨es, hperm, hlt, hes⟩ := h.inOrder
    refine ⟨es.filter (!p ·), hentries ▸ hperm.filter _, hlt.filter _, ?_⟩
    have hfilter : List.Forall₂ (fun e x => s.named e = some x) (es.filter (!p ·))
        (g.edges.filter (!q ·)) := by
      refine List.rel_filter ?_ hes
      intro e x hx
      simp [← Bool.not_eq_true, hpq e x hx]
    have hkept : ∀ e ∈ es.filter (!p ·), p e = false := by simp
    rw [hg]
    refine ((List.forall₂_and_left _ _).mpr ⟨hkept, hfilter⟩).imp ?_
    rintro e x ⟨hp, hx⟩
    exact hnamed e x hp hx

theorem insert {i j : Nat} (hx : s.edgeSlot? x.id = none)
    (hi : s.idAt i = some x.source) (hj : s.idAt j = some x.target) :
    KeepsEdges { s with
      edges := s.edges.insert ⟨x.id, s.nextOrdinal, i, j⟩
      edgeIndex := (x.id, s.edges.next) :: s.edgeIndex
      nextOrdinal := s.nextOrdinal + 1 } { g with edges := g.edges ++ [x] } where
  sound := h.sound.insert _
  indexes := by
    refine h.indexes.insert hx ?_ ?_
    · unfold edgeIdAt
      rw [h.sound.get?_next]
      rfl
    · intro k
      unfold edgeIdAt
      rw [h.sound.get?_insert]
      split <;> rfl
  ordinal_lt e he := by
    rcases List.mem_cons.mp ((h.sound.entries_insert_perm _).mem_iff.mp he) with rfl | he
    · exact Nat.lt_succ_self _
    · exact Nat.lt_succ_of_lt (h.ordinal_lt e he)
  inOrder := by
    obtain ⟨es, hperm, hlt, hes⟩ := h.inOrder
    refine ⟨es ++ [⟨x.id, s.nextOrdinal, i, j⟩], ?_, ?_, ?_⟩
    · refine (List.perm_append_singleton _ es).trans ?_
      exact (hperm.cons _).trans (h.sound.entries_insert_perm _).symm
    · refine List.pairwise_append.mpr ⟨hlt, List.pairwise_singleton _ _, ?_⟩
      intro e he e' he'
      obtain rfl := List.mem_singleton.mp he'
      exact h.ordinal_lt e (hperm.mem_iff.mp he)
    · exact List.rel_append hes (.cons (named_eq_some_iff.mpr ⟨rfl, hi, hj⟩) .nil)

end KeepsEdges

end IndexedGraph

end LayerGraph
