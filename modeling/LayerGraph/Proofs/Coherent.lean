import LayerGraph.Arena
import LayerGraph.Graph

namespace LayerGraph

namespace Graph

variable {g h : Graph} {id : NodeId} {n : Node}

/--
Slots, families and connections fit together. The node with the id `left` is in no family: it is on
its way from one place to another.
-/
structure Coherent (left : Option NodeId) (g : Graph) : Prop where
  ids_nodup : (g.nodes.map (·.id)).Nodup
  vacant_nodup : g.vacant.Nodup
  mem_vacant : ∀ i, i ∈ g.vacant ↔ g.slots[i]? = some none
  family_nodup : ∀ f, (g.family f).Nodup
  mem_family : ∀ f id,
    id ∈ g.family f ↔ some id ≠ left ∧ ∃ n ∈ g.nodes, n.id = id ∧ n.family? = some f
  sorted : ∀ f, (g.members f).Pairwise fun m n => m.sequenceIndex ≤ n.sequenceIndex
  edges_nodup : (g.edges.map (·.id)).Nodup
  edge_ends : ∀ e ∈ g.edges,
    e.source ≠ e.target ∧ g.contains e.source = true ∧ g.contains e.target = true

abbrev WellFormed (g : Graph) : Prop := Coherent none g

/-- The slots of a graph. -/
def arena (g : Graph) : Arena Node := ⟨g.slots, g.vacant⟩

theorem mem_nodes_iff : n ∈ g.nodes ↔ ∃ i, g.arena.get? i = some n :=
  Arena.mem_entries (a := g.arena)

theorem Coherent.sound {left : Option NodeId} (hg : Coherent left g) : g.arena.Sound :=
  ⟨hg.vacant_nodup, hg.mem_vacant⟩

theorem node?_id (hn : g.node? id = some n) : n.id = id := by
  have h := List.find?_some hn
  simpa using h

theorem mem_of_node? (hn : g.node? id = some n) : n ∈ g.nodes := List.mem_of_find?_eq_some hn

theorem mem_nodes_of_mem_filterMap {ids : List NodeId} (hn : n ∈ ids.filterMap g.node?) :
    n ∈ g.nodes := by
  obtain ⟨id, -, hid⟩ := List.mem_filterMap.mp hn
  exact mem_of_node? hid

theorem node?_eq_some_iff (hg : (g.nodes.map (·.id)).Nodup) :
    g.node? id = some n ↔ n ∈ g.nodes ∧ n.id = id := by
  constructor
  · intro hn
    exact ⟨mem_of_node? hn, node?_id hn⟩
  · rintro ⟨hn, rfl⟩
    cases hm : g.node? n.id with
    | none =>
      have := List.find?_eq_none.mp hm n hn
      simp at this
    | some m =>
      exact congrArg some (List.inj_on_of_nodup_map hg (mem_of_node? hm) hn (node?_id hm))

theorem eq_of_node? {m : Node} (hg : (g.nodes.map (·.id)).Nodup) (hn : g.node? id = some n)
    (hm : m ∈ g.nodes) (hmi : m.id = id) : m = n :=
  Option.some.inj (((node?_eq_some_iff hg).mpr ⟨hm, hmi⟩).symm.trans hn)

theorem contains_iff : g.contains id = true ↔ ∃ n ∈ g.nodes, n.id = id := by
  simp [contains, node?]

theorem node?_congr (hg : (g.nodes.map (·.id)).Nodup) (hh : (h.nodes.map (·.id)).Nodup)
    (hn : ∀ n, n.id = id → (n ∈ g.nodes ↔ n ∈ h.nodes)) : g.node? id = h.node? id := by
  apply Option.ext
  intro n
  rw [node?_eq_some_iff hg, node?_eq_some_iff hh]
  constructor
  · rintro ⟨hm, hid⟩
    exact ⟨(hn n hid).mp hm, hid⟩
  · rintro ⟨hm, hid⟩
    exact ⟨(hn n hid).mpr hm, hid⟩

theorem contains_congr (hnodes : h.nodes = g.nodes) : h.contains = g.contains := by
  funext id
  unfold contains node?
  rw [hnodes]

theorem get_eq_ok_iff {g : Graph} {id : NodeId} {n : Node} :
    g.get id = .ok n ↔ g.node? id = some n := by
  unfold get
  cases g.node? id <;> simp

theorem map_id_filterMap_node? {ids : List NodeId} (hids : ∀ id ∈ ids, g.contains id = true) :
    (ids.filterMap g.node?).map (·.id) = ids := by
  induction ids with
  | nil => rfl
  | cons id ids ih =>
    obtain ⟨n, hn⟩ := Option.isSome_iff_exists.mp (hids id List.mem_cons_self)
    rw [List.filterMap_cons_some hn, List.map_cons, node?_id hn,
      ih fun j hj => hids j (List.mem_cons_of_mem id hj)]

namespace Coherent

variable {left : Option NodeId}

theorem contains_of_mem_family (hg : Coherent left g) {f : Family} (hid : id ∈ g.family f) :
    g.contains id = true := by
  obtain ⟨-, n, hn, hni, -⟩ := (hg.mem_family f id).mp hid
  exact contains_iff.mpr ⟨n, hn, hni⟩

theorem map_id_members (hg : Coherent left g) (f : Family) :
    (g.members f).map (·.id) = g.family f :=
  map_id_filterMap_node? fun _ hid => hg.contains_of_mem_family hid

theorem mem_members (hg : Coherent left g) {f : Family} :
    n ∈ g.members f ↔ n ∈ g.nodes ∧ n.family? = some f ∧ some n.id ≠ left := by
  unfold members
  rw [List.mem_filterMap]
  constructor
  · rintro ⟨id, hid, hn⟩
    obtain ⟨hl, m, hm, hmi, hf⟩ := (hg.mem_family f id).mp hid
    have hmn : m = n := by
      have := (node?_eq_some_iff hg.ids_nodup).mpr ⟨hm, hmi⟩
      exact Option.some.inj (this.symm.trans hn)
    subst hmn
    exact ⟨hm, hf, hmi ▸ hl⟩
  · rintro ⟨hn, hf, hl⟩
    exact ⟨n.id, (hg.mem_family f n.id).mpr ⟨hl, n, hn, rfl, hf⟩,
      (node?_eq_some_iff hg.ids_nodup).mpr ⟨hn, rfl⟩⟩

theorem members_nodup (hg : Coherent left g) (f : Family) : (g.members f).Nodup := by
  apply List.Nodup.of_map (·.id)
  rw [hg.map_id_members f]
  exact hg.family_nodup f

end Coherent

theorem members_congr {f : Family} (hf : h.family f = g.family f)
    (hn : ∀ id ∈ g.family f, h.node? id = g.node? id) : h.members f = g.members f := by
  unfold members
  rw [hf]
  exact List.filterMap_congr hn

theorem family_empty (f : Family) : Graph.empty.family f = [] := by cases f <;> rfl

theorem wellFormed_empty : WellFormed Graph.empty where
  ids_nodup := List.nodup_nil
  vacant_nodup := List.nodup_nil
  mem_vacant i := by simp [Graph.empty]
  family_nodup f := by simp [family_empty]
  mem_family f id := by
    rw [family_empty]
    simp [nodes, Graph.empty]
  sorted f := by simp [members, family_empty]
  edges_nodup := List.nodup_nil
  edge_ends e he := by simp [Graph.empty] at he

def mapNodes (g : Graph) (f : Node → Node) : Graph := { g with slots := g.slots.map (·.map f) }

theorem nodes_mapNodes (g : Graph) (f : Node → Node) : (g.mapNodes f).nodes = g.nodes.map f := by
  simp only [nodes, mapNodes, List.filterMap_map, List.map_filterMap]
  rfl

theorem mapNode_eq_mapNodes (g : Graph) (id : NodeId) (f : Node → Node) :
    g.mapNode id f = g.mapNodes fun n => if n.id = id then f n else n := rfl

theorem mapNode_congr {f k : Node → Node} (hfk : ∀ n ∈ g.nodes, n.id = id → f n = k n) :
    g.mapNode id f = g.mapNode id k := by
  have hs : ∀ s ∈ g.slots, s.map (fun n => if n.id = id then f n else n) =
      s.map (fun n => if n.id = id then k n else n) := by
    intro s hs
    cases s with
    | none => rfl
    | some n =>
      have hn : n ∈ g.nodes := List.mem_filterMap.mpr ⟨some n, hs, rfl⟩
      by_cases hi : n.id = id
      · simp only [Option.map_some, if_pos hi, hfk n hn hi]
      · simp only [Option.map_some, if_neg hi]
  unfold mapNode
  rw [List.map_congr_left hs]

theorem mapNode_eq_self {f : Node → Node} (hf : ∀ n ∈ g.nodes, n.id = id → f n = n) :
    g.mapNode id f = g := by
  rw [mapNode_congr (k := fun n => n) hf]
  simp [mapNode]

@[simp] theorem family_mapNodes (g : Graph) (f : Node → Node) (k : Family) :
    (g.mapNodes f).family k = g.family k := by cases k <;> rfl

theorem node?_mapNodes {f : Node → Node} (hid : ∀ n, (f n).id = n.id) (id : NodeId) :
    (g.mapNodes f).node? id = (g.node? id).map f := by
  unfold node?
  rw [nodes_mapNodes, List.find?_map]
  congr 2
  funext n
  simp [hid]

theorem contains_mapNodes {f : Node → Node} (hid : ∀ n, (f n).id = n.id) (id : NodeId) :
    (g.mapNodes f).contains id = g.contains id := by
  simp [contains, node?_mapNodes hid]

theorem members_mapNodes {f : Node → Node} (hid : ∀ n, (f n).id = n.id) (k : Family) :
    (g.mapNodes f).members k = (g.members k).map f := by
  unfold members
  rw [family_mapNodes, List.map_filterMap]
  apply List.filterMap_congr
  intro id _
  exact node?_mapNodes hid id

/-- Nodes that are in a family stay in it, and in their order. -/
theorem Coherent.mapNodes {left : Option NodeId} {f : Node → Node} (hg : Coherent left g)
    (hid : ∀ n, (f n).id = n.id)
    (hfamily : ∀ n ∈ g.nodes, some n.id ≠ left → (f n).family? = n.family?)
    (horder : ∀ k, ∀ m ∈ g.members k, ∀ n ∈ g.members k, m.sequenceIndex ≤ n.sequenceIndex →
      (f m).sequenceIndex ≤ (f n).sequenceIndex) :
    Coherent left (g.mapNodes f) where
  ids_nodup := by
    rw [nodes_mapNodes, List.map_map]
    have he : (fun n : Node => n.id) ∘ f = (·.id) := by
      funext n
      exact hid n
    rw [he]
    exact hg.ids_nodup
  vacant_nodup := hg.vacant_nodup
  mem_vacant i := by
    change i ∈ g.vacant ↔ (g.slots.map (·.map f))[i]? = some none
    rw [hg.mem_vacant i, List.getElem?_map]
    cases g.slots[i]? with
    | none => simp
    | some s => cases s <;> simp
  family_nodup k := by
    rw [family_mapNodes]
    exact hg.family_nodup k
  mem_family k id := by
    rw [family_mapNodes, hg.mem_family, nodes_mapNodes]
    apply and_congr_right
    intro hl
    constructor
    · rintro ⟨n, hn, rfl, hk⟩
      exact ⟨f n, List.mem_map_of_mem hn, hid n, (hfamily n hn hl).trans hk⟩
    · rintro ⟨m, hm, hmi, hk⟩
      obtain ⟨n, hn, rfl⟩ := List.mem_map.mp hm
      have hni : n.id = id := (hid n).symm.trans hmi
      exact ⟨n, hn, hni, (hfamily n hn (hni ▸ hl)).symm.trans hk⟩
  sorted k := by
    rw [members_mapNodes hid, List.pairwise_map]
    exact (hg.sorted k).imp_of_mem fun hm hn hle => horder k _ hm _ hn hle
  edges_nodup := hg.edges_nodup
  edge_ends e he := by
    rw [contains_mapNodes hid, contains_mapNodes hid]
    exact hg.edge_ends e he

/-- Changes of a node that concern neither its family nor its place there. -/
theorem Coherent.mapNode {left : Option NodeId} {f : Node → Node} (hg : Coherent left g)
    (hid : ∀ n, (f n).id = n.id)
    (hfamily : ∀ n, g.node? id = some n → some id ≠ left → (f n).family? = n.family?)
    (horder : ∀ n, some id ≠ left → (f n).sequenceIndex = n.sequenceIndex) :
    Coherent left (g.mapNode id f) := by
  rw [mapNode_eq_mapNodes]
  apply hg.mapNodes
  · intro n
    split
    · exact hid n
    · rfl
  · intro n hn hl
    split
    · rename_i hni
      exact hfamily n ((node?_eq_some_iff hg.ids_nodup).mpr ⟨hn, hni⟩) (hni ▸ hl)
    · rfl
  · intro k m hm n hn hle
    have hm' := (hg.mem_members.mp hm).2.2
    have hn' := (hg.mem_members.mp hn).2.2
    have he : ∀ x : Node, some x.id ≠ left →
        (if x.id = id then f x else x).sequenceIndex = x.sequenceIndex := by
      intro x hx
      split
      · rename_i hxi
        exact horder x (hxi ▸ hx)
      · rfl
    rw [he m hm', he n hn']
    exact hle

theorem nodes_unfile (g : Graph) (id : NodeId) : (g.unfile id).nodes = g.nodes := rfl

theorem family_unfile (g : Graph) (id : NodeId) (k : Family) :
    (g.unfile id).family k = (g.family k).filter (· ≠ id) := by cases k <;> rfl

theorem members_unfile_sublist (g : Graph) (id : NodeId) (k : Family) :
    ((g.unfile id).members k).Sublist (g.members k) := by
  have he : (g.unfile id).members k = ((g.family k).filter (· ≠ id)).filterMap g.node? := by
    rw [← family_unfile]
    rfl
  rw [he]
  exact List.filter_sublist.filterMap g.node?

theorem Coherent.unfile (hg : WellFormed g) (id : NodeId) : Coherent (some id) (g.unfile id) where
  ids_nodup := hg.ids_nodup
  vacant_nodup := hg.vacant_nodup
  mem_vacant := hg.mem_vacant
  family_nodup k := by
    rw [family_unfile]
    exact (hg.family_nodup k).filter _
  mem_family k j := by
    rw [family_unfile, List.mem_filter, hg.mem_family k j]
    simp [nodes_unfile, and_comm]
  sorted k := (hg.sorted k).sublist (members_unfile_sublist g id k)
  edges_nodup := hg.edges_nodup
  edge_ends := hg.edge_ends

theorem nodes_setFamily (g : Graph) (k : Family) (ids : List NodeId) :
    (g.setFamily k ids).nodes = g.nodes := by cases k <;> rfl

theorem node?_setFamily (g : Graph) (k : Family) (ids : List NodeId) :
    (g.setFamily k ids).node? = g.node? := by cases k <;> rfl

theorem family_setFamily (g : Graph) (k l : Family) (ids : List NodeId) :
    (g.setFamily k ids).family l = if l = k then ids else g.family l := by
  cases k <;> cases l <;> rfl

/-- The members of a family that a sequence index does not come before, and the others. -/
theorem members_split (g : Graph) (i : UInt32) {ids : List NodeId}
    (hids : ∀ id ∈ ids, g.contains id = true) :
    (ids.takeWhile (!g.comesAfter i ·)).filterMap g.node? =
        (ids.filterMap g.node?).takeWhile (fun m => m.sequenceIndex ≤ i) ∧
      (ids.dropWhile (!g.comesAfter i ·)).filterMap g.node? =
        (ids.filterMap g.node?).dropWhile (fun m => m.sequenceIndex ≤ i) := by
  -- every id has its node, so both lists are split at the same place
  induction ids with
  | nil => exact ⟨rfl, rfl⟩
  | cons id ids ih =>
    obtain ⟨n, hn⟩ := Option.isSome_iff_exists.mp (hids id List.mem_cons_self)
    obtain ⟨iht, ihd⟩ := ih fun j hj => hids j (List.mem_cons_of_mem id hj)
    have hc : (!g.comesAfter i id) = decide (n.sequenceIndex ≤ i) := by
      rw [comesAfter, hn, Option.any_some, ← decide_not, decide_eq_decide]
      exact UInt32.not_lt
    rw [List.filterMap_cons_some hn, List.takeWhile_cons, List.takeWhile_cons,
      List.dropWhile_cons, List.dropWhile_cons, hc]
    by_cases hi : n.sequenceIndex ≤ i
    · simp only [hi, decide_true, if_true, List.filterMap_cons_some hn, iht, ihd, and_self]
    · simp only [hi, decide_false, Bool.false_eq_true, if_false, List.filterMap_nil,
        List.filterMap_cons_some hn, and_self]

theorem lt_of_mem_dropWhile {i : UInt32} {l : List Node}
    (hl : l.Pairwise fun m n => m.sequenceIndex ≤ n.sequenceIndex) :
    ∀ m ∈ l.dropWhile (fun m => m.sequenceIndex ≤ i), i < m.sequenceIndex := by
  induction l with
  | nil => simp
  | cons n l ih =>
    rw [List.pairwise_cons] at hl
    rw [List.dropWhile_cons]
    by_cases hi : n.sequenceIndex ≤ i
    · simpa [hi] using ih hl.2
    · -- the first member that is kept is not above those behind it
      have hlt : i < n.sequenceIndex := UInt32.not_le.mp hi
      simp only [hi, decide_false, Bool.false_eq_true, if_false]
      intro m hm
      rcases List.mem_cons.mp hm with rfl | hm
      · exact hlt
      · exact UInt32.lt_of_lt_of_le hlt (hl.1 m hm)

/-- Where a node is filed: behind the members that do not come after it. -/
theorem members_file {k : Family} (hn : g.node? n.id = some n) (hk : n.family? = some k)
    (hids : ∀ id ∈ g.family k, g.contains id = true) (l : Family) :
    (g.file n).members l =
      if l = k then
        (g.members k).takeWhile (fun m => m.sequenceIndex ≤ n.sequenceIndex) ++
          n :: (g.members k).dropWhile (fun m => m.sequenceIndex ≤ n.sequenceIndex)
      else g.members l := by
  obtain ⟨ht, hd⟩ := members_split g n.sequenceIndex hids
  unfold members
  simp only [file, hk, node?_setFamily, family_setFamily]
  split
  · rw [List.filterMap_append, List.filterMap_cons_some hn, ht, hd]
  · rfl

theorem file_of_family?_eq_none (hn : n.family? = none) : g.file n = g := by
  simp only [file, hn]

theorem nodes_file (g : Graph) (n : Node) : (g.file n).nodes = g.nodes := by
  unfold file
  cases n.family? with
  | none => rfl
  | some k => exact nodes_setFamily _ _ _

theorem slots_file (g : Graph) (n : Node) : (g.file n).slots = g.slots := by
  unfold file
  cases n.family? with
  | none => rfl
  | some k => cases k <;> rfl

theorem vacant_file (g : Graph) (n : Node) : (g.file n).vacant = g.vacant := by
  unfold file
  cases n.family? with
  | none => rfl
  | some k => cases k <;> rfl

theorem edges_file (g : Graph) (n : Node) : (g.file n).edges = g.edges := by
  unfold file
  cases n.family? with
  | none => rfl
  | some k => cases k <;> rfl

theorem node?_file (g : Graph) (n : Node) : (g.file n).node? = g.node? := by
  funext id
  simp only [node?, nodes_file]

/-- Filing puts the id into the list of its family, in front of those that come after it. -/
theorem family_file_perm {k : Family} (hk : n.family? = some k) (l : Family) :
    ((g.file n).family l).Perm (if l = k then n.id :: g.family l else g.family l) := by
  simp only [file, hk, family_setFamily]
  split
  · rename_i hl
    subst hl
    apply List.perm_middle.trans
    rw [List.takeWhile_append_dropWhile]
  · exact List.Perm.refl _

theorem mem_family_file (g : Graph) (n : Node) (k : Family) (j : NodeId) :
    j ∈ (g.file n).family k ↔ j ∈ g.family k ∨ j = n.id ∧ n.family? = some k := by
  cases hk : n.family? with
  | none => simp [file_of_family?_eq_none hk]
  | some l =>
    rw [(family_file_perm hk k).mem_iff]
    split
    · simp [*, or_comm]
    · rename_i hkl
      simp [Ne.symm hkl]

theorem family_file_nodup (hg : Coherent (some n.id) g) (k : Family) :
    ((g.file n).family k).Nodup := by
  cases hk : n.family? with
  | none =>
    rw [file_of_family?_eq_none hk]
    exact hg.family_nodup k
  | some l =>
    rw [(family_file_perm hk k).nodup_iff]
    split
    · have hout : n.id ∉ g.family k := fun hm => ((hg.mem_family k n.id).mp hm).1 rfl
      exact List.nodup_cons.mpr ⟨hout, hg.family_nodup k⟩
    · exact hg.family_nodup k

/-- A node goes behind those whose sequence index is not greater. -/
theorem pairwise_insert_takeWhile {l : List Node}
    (hl : l.Pairwise fun m n => m.sequenceIndex ≤ n.sequenceIndex) (n : Node) :
    (l.takeWhile (·.sequenceIndex ≤ n.sequenceIndex) ++
      n :: l.dropWhile (·.sequenceIndex ≤ n.sequenceIndex)).Pairwise
        fun m n => m.sequenceIndex ≤ n.sequenceIndex := by
  have hlt := lt_of_mem_dropWhile (i := n.sequenceIndex) hl
  have hle : ∀ m ∈ l.takeWhile (·.sequenceIndex ≤ n.sequenceIndex),
      m.sequenceIndex ≤ n.sequenceIndex := by
    intro m hm
    simpa using List.mem_takeWhile_imp hm
  rw [List.pairwise_append, List.pairwise_cons]
  refine ⟨hl.sublist (List.takeWhile_sublist _), ⟨?_, hl.sublist (List.dropWhile_sublist _)⟩, ?_⟩
  · intro m hm
    exact UInt32.le_of_lt (hlt m hm)
  · intro a ha b hb
    rcases List.mem_cons.mp hb with rfl | hb
    · exact hle a ha
    · exact UInt32.le_trans (hle a ha) (UInt32.le_of_lt (hlt b hb))

theorem sorted_file (hg : Coherent (some n.id) g) (hn : n ∈ g.nodes) (k : Family) :
    ((g.file n).members k).Pairwise fun m n => m.sequenceIndex ≤ n.sequenceIndex := by
  have hnode : g.node? n.id = some n := (node?_eq_some_iff hg.ids_nodup).mpr ⟨hn, rfl⟩
  cases hk : n.family? with
  | none =>
    rw [file_of_family?_eq_none hk]
    exact hg.sorted k
  | some l =>
    rw [members_file hnode hk fun _ hid => hg.contains_of_mem_family hid]
    split
    · exact pairwise_insert_takeWhile (hg.sorted l) n
    · exact hg.sorted k

theorem Coherent.file (hg : Coherent (some n.id) g) (hn : n ∈ g.nodes) :
    WellFormed (g.file n) where
  ids_nodup := by
    rw [nodes_file]
    exact hg.ids_nodup
  vacant_nodup := by
    rw [vacant_file]
    exact hg.vacant_nodup
  mem_vacant := by
    rw [vacant_file, slots_file]
    exact hg.mem_vacant
  family_nodup := family_file_nodup hg
  mem_family k j := by
    rw [mem_family_file, hg.mem_family, nodes_file]
    constructor
    · rintro (⟨-, hj⟩ | ⟨rfl, hk⟩)
      · exact ⟨nofun, hj⟩
      · exact ⟨nofun, n, hn, rfl, hk⟩
    · rintro ⟨-, m, hm, rfl, hk⟩
      by_cases hmn : m.id = n.id
      · have hsame : m = n := List.inj_on_of_nodup_map hg.ids_nodup hm hn hmn
        exact .inr ⟨hmn, hsame ▸ hk⟩
      · exact .inl ⟨by simpa using hmn, m, hm, rfl, hk⟩
  sorted := sorted_file hg hn
  edges_nodup := by
    rw [edges_file]
    exact hg.edges_nodup
  edge_ends e he := by
    simp only [contains, node?_file]
    exact hg.edge_ends e (edges_file g n ▸ he)

end Graph

end LayerGraph
