import LayerGraph.Proofs.Coherent

namespace LayerGraph

namespace Graph

variable {g h : Graph} {id : NodeId} {n : Node}

theorem arena_place (g : Graph) (n : Node) : (g.place n).arena = g.arena.insert n := by
  unfold place arena Arena.insert
  cases g.vacant <;> rfl

theorem nodes_place_perm (hg : WellFormed g) (n : Node) :
    (g.place n).nodes.Perm (n :: g.nodes) := by
  change (g.place n).arena.entries.Perm (n :: g.arena.entries)
  rw [arena_place]
  exact hg.sound.entries_insert_perm n

theorem sound_place (hg : WellFormed g) (n : Node) : (g.place n).arena.Sound := by
  rw [arena_place]
  exact hg.sound.insert n

theorem family_place (g : Graph) (n : Node) (k : Family) : (g.place n).family k = g.family k := by
  unfold place
  cases g.vacant <;> cases k <;> rfl

theorem edges_place (g : Graph) (n : Node) : (g.place n).edges = g.edges := by
  unfold place
  cases g.vacant <;> rfl

theorem mem_nodes_place {m : Node} (hg : WellFormed g) (hm : m.id ≠ n.id) :
    m ∈ (g.place n).nodes ↔ m ∈ g.nodes := by
  rw [(nodes_place_perm hg n).mem_iff, List.mem_cons, or_iff_right]
  rintro rfl
  exact hm rfl

theorem ids_nodup_place (hg : WellFormed g) (hn : g.contains n.id = false) :
    ((g.place n).nodes.map (·.id)).Nodup := by
  rw [((nodes_place_perm hg n).map _).nodup_iff, List.map_cons, List.nodup_cons]
  refine ⟨?_, hg.ids_nodup⟩
  intro hm
  obtain ⟨m, hm, hmi⟩ := List.mem_map.mp hm
  rw [contains_iff.mpr ⟨m, hm, hmi⟩] at hn
  cases hn

theorem not_mem_family (hg : WellFormed g) (hn : g.contains n.id = false) (f : Family) :
    n.id ∉ g.family f := by
  intro hm
  rw [hg.contains_of_mem_family hm] at hn
  cases hn

theorem members_place (hg : WellFormed g) (hn : g.contains n.id = false) (f : Family) :
    (g.place n).members f = g.members f := by
  apply members_congr (family_place g n f)
  intro id hid
  have hne : id ≠ n.id := fun he => not_mem_family hg hn f (he ▸ hid)
  apply node?_congr (ids_nodup_place hg hn) hg.ids_nodup
  intro m hm
  exact mem_nodes_place hg (hm ▸ hne)

theorem contains_place (hg : WellFormed g) (n : Node) {id : NodeId} (hid : g.contains id = true) :
    (g.place n).contains id = true := by
  obtain ⟨m, hm, hmi⟩ := contains_iff.mp hid
  exact contains_iff.mpr ⟨m, (nodes_place_perm hg n).mem_iff.mpr (List.mem_cons_of_mem n hm), hmi⟩

/-- In its slot, a node is not yet in its family. -/
theorem Coherent.place (hg : WellFormed g) (hn : g.contains n.id = false) :
    Coherent (some n.id) (g.place n) where
  ids_nodup := ids_nodup_place hg hn
  vacant_nodup := (sound_place hg n).nodup
  mem_vacant := (sound_place hg n).mem_vacant
  family_nodup k := by
    rw [family_place]
    exact hg.family_nodup k
  mem_family k j := by
    rw [family_place]
    constructor
    · intro hj
      have hjn : j ≠ n.id := fun he => not_mem_family hg hn k (he ▸ hj)
      obtain ⟨-, m, hm, rfl, hk⟩ := (hg.mem_family k j).mp hj
      exact ⟨by simpa using hjn, m, (mem_nodes_place hg hjn).mpr hm, rfl, hk⟩
    · rintro ⟨hjn, m, hm, rfl, hk⟩
      have hmn : m.id ≠ n.id := by simpa using hjn
      exact (hg.mem_family k m.id).mpr ⟨nofun, m, (mem_nodes_place hg hmn).mp hm, rfl, hk⟩
  sorted k := by
    rw [members_place hg hn]
    exact hg.sorted k
  edges_nodup := by
    rw [edges_place]
    exact hg.edges_nodup
  edge_ends e he := by
    rw [edges_place] at he
    obtain ⟨hne, hs, ht⟩ := hg.edge_ends e he
    exact ⟨hne, contains_place hg n hs, contains_place hg n ht⟩

theorem add_eq_ok_iff {g h : Graph} {n : Node} :
    g.add n = .ok h ↔ g.contains n.id = false ∧ h = (g.place n).file n := by
  unfold add
  cases g.contains n.id <;> simp [eq_comm]

theorem nodes_add_perm (hg : WellFormed g) (ha : g.add n = .ok h) : h.nodes.Perm (n :: g.nodes) := by
  obtain ⟨-, rfl⟩ := add_eq_ok_iff.mp ha
  rw [nodes_file]
  exact nodes_place_perm hg n

theorem wellFormed_add (hg : WellFormed g) (ha : g.add n = .ok h) : WellFormed h := by
  obtain ⟨hn, rfl⟩ := add_eq_ok_iff.mp ha
  exact (Coherent.place hg hn).file ((nodes_place_perm hg n).mem_iff.mpr List.mem_cons_self)

/-- The graph without a node and the connections at it. -/
def without (g : Graph) (id : NodeId) : Graph :=
  { g.unfile id with
    slots := g.slots.map fun s => if s.any (·.id = id) then none else s
    vacant := g.slots.findIdx (·.any (·.id = id)) :: g.vacant
    edges := g.edges.filter fun e => e.source ≠ id ∧ e.target ≠ id }

theorem remove_eq_ok_iff {g h : Graph} {id : NodeId} {n : Node} :
    g.remove id = .ok (n, h) ↔ g.node? id = some n ∧ h = g.without id := by
  unfold remove get
  cases g.node? id with
  | none => simp [bind, Except.bind]
  | some m =>
    change Except.ok (m, g.without id) = .ok (n, h) ↔ some m = some n ∧ h = g.without id
    simp only [Except.ok.injEq, Prod.mk.injEq, Option.some.injEq, eq_comm]

theorem nodes_without (g : Graph) (id : NodeId) :
    (g.without id).nodes = g.nodes.filter (·.id ≠ id) := by
  simp only [nodes, without, List.filterMap_map, List.filter_filterMap]
  apply List.filterMap_congr
  intro s _
  cases s with
  | none => simp
  | some m => by_cases hm : m.id = id <;> simp [Option.filter, hm]

theorem family_without (g : Graph) (id : NodeId) (k : Family) :
    (g.without id).family k = (g.family k).filter (· ≠ id) := family_unfile g id k

theorem ids_nodup_without (hg : WellFormed g) (id : NodeId) :
    ((g.without id).nodes.map (·.id)).Nodup := by
  rw [nodes_without]
  exact hg.ids_nodup.sublist (List.filter_sublist.map _)

theorem node?_without (hg : WellFormed g) {j : NodeId} (hj : j ≠ id) :
    (g.without id).node? j = g.node? j := by
  apply node?_congr (ids_nodup_without hg id) hg.ids_nodup
  rintro m rfl
  simp [nodes_without, hj]

/-- The slot of the node becomes vacant, and no other. -/
theorem arena_without (hg : WellFormed g) {i : Nat} (hi : g.arena.get? i = some n)
    (hn : n.id = id) : (g.without id).arena = g.arena.erase i := by
  have hslot : g.slots[i]? = some (some n) := Arena.get?_eq_some_iff.mp hi
  have hlt : i < g.slots.length := Arena.lt_length_of_get? hi
  have hiff : ∀ j s, g.slots[j]? = some s → (s.any (·.id = id) = true ↔ j = i) := by
    intro j s hj
    constructor
    · intro hs
      obtain ⟨m, rfl, hm⟩ := (Option.any_eq_true _ _).mp hs
      exact Arena.get?_inj hg.ids_nodup (Arena.get?_eq_some_iff.mpr hj) hi (by simpa [hn] using hm)
    · rintro rfl
      obtain rfl : some n = s := Option.some.inj (hslot.symm.trans hj)
      simpa using hn
  have hvacant : g.slots.findIdx (·.any (·.id = id)) = i := by
    rw [List.findIdx_eq hlt]
    refine ⟨(hiff i _ (List.getElem?_eq_getElem hlt)).mpr rfl, ?_⟩
    intro j hji
    have hj := hiff j _ (List.getElem?_eq_getElem (hji.trans hlt))
    rw [← Bool.not_eq_true, hj]
    exact Nat.ne_of_lt hji
  have hslots : (g.slots.map fun s => if s.any (·.id = id) then none else s) =
      g.slots.set i none := by
    apply List.ext_getElem?
    intro j
    rw [List.getElem?_map, List.getElem?_set]
    cases hj : g.slots[j]? with
    | none => grind
    | some s => grind
  unfold arena without Arena.erase
  rw [hslots, hvacant]

theorem members_without (hg : WellFormed g) (id : NodeId) (f : Family) :
    (g.without id).members f = (g.unfile id).members f := by
  apply members_congr
  · rw [family_without, family_unfile]
  · intro j hj
    rw [family_unfile, List.mem_filter] at hj
    exact node?_without hg (by simpa using hj.2)

theorem sound_without (hg : WellFormed g) (hn : g.node? id = some n) :
    (g.without id).arena.Sound := by
  obtain ⟨i, hi⟩ := mem_nodes_iff.mp (mem_of_node? hn)
  rw [arena_without hg hi (node?_id hn)]
  exact hg.sound.erase hi

theorem wellFormed_without (hg : WellFormed g) (hn : g.node? id = some n) :
    WellFormed (g.without id) where
  ids_nodup := ids_nodup_without hg id
  vacant_nodup := (sound_without hg hn).nodup
  mem_vacant := (sound_without hg hn).mem_vacant
  family_nodup k := by
    rw [family_without]
    exact (hg.family_nodup k).filter _
  mem_family k j := by
    rw [family_without, List.mem_filter, hg.mem_family k j, nodes_without]
    constructor
    · rintro ⟨⟨-, m, hm, rfl, hk⟩, hj⟩
      exact ⟨nofun, m, List.mem_filter.mpr ⟨hm, hj⟩, rfl, hk⟩
    · rintro ⟨-, m, hm, rfl, hk⟩
      obtain ⟨hm, hj⟩ := List.mem_filter.mp hm
      exact ⟨⟨nofun, m, hm, rfl, hk⟩, hj⟩
  sorted k := by
    rw [members_without hg]
    exact (hg.sorted k).sublist (members_unfile_sublist g id k)
  edges_nodup := hg.edges_nodup.sublist (List.filter_sublist.map _)
  edge_ends e he := by
    obtain ⟨he, hne⟩ := List.mem_filter.mp he
    have hne : e.source ≠ id ∧ e.target ≠ id := by simpa using hne
    obtain ⟨hst, hs, ht⟩ := hg.edge_ends e he
    simp only [contains] at hs ht ⊢
    rw [node?_without hg hne.1, node?_without hg hne.2]
    exact ⟨hst, hs, ht⟩

theorem wellFormed_remove (hg : WellFormed g) (hr : g.remove id = .ok (n, h)) : WellFormed h := by
  obtain ⟨hn, rfl⟩ := remove_eq_ok_iff.mp hr
  exact wellFormed_without hg hn

theorem modifyBlock_eq_ok_iff {g h : Graph} {id : NodeId} {f : Block → Except GraphError Block} :
    g.modifyBlock id f = .ok h ↔ ∃ n b, g.node? id = some n ∧ f n.block = .ok b ∧
      h = if b.family? = n.family? then g.mapNode id ({ · with block := b })
        else ((g.mapNode id ({ · with block := b })).unfile id).file { n with block := b } := by
  unfold modifyBlock get
  cases g.node? id with
  | none => simp [bind, Except.bind]
  | some n =>
    cases hb : f n.block with
    | error e => simp [bind, Except.bind, hb]
    | ok b => simp [bind, Except.bind, pure, Except.pure, hb, eq_comm]

theorem mem_nodes_mapNode {f : Node → Node} (hn : g.node? id = some n) :
    f n ∈ (g.mapNode id f).nodes := by
  rw [mapNode_eq_mapNodes, nodes_mapNodes]
  refine List.mem_map.mpr ⟨n, mem_of_node? hn, ?_⟩
  rw [if_pos (node?_id hn)]

/-- A node that changed in its slot is filed anew. -/
theorem wellFormed_refile {f : Node → Node} (hg : WellFormed g) (hid : ∀ n, (f n).id = n.id)
    (hn : g.node? id = some n) : WellFormed (((g.unfile id).mapNode id f).file (f n)) := by
  have hni : (f n).id = id := (hid n).trans (node?_id hn)
  -- out of its family the node may change, as nothing depends on its order there
  apply Coherent.file
  · rw [hni]
    exact (Coherent.unfile hg id).mapNode hid (fun _ _ hl => absurd rfl hl)
      fun _ hl => absurd rfl hl
  · exact mem_nodes_mapNode hn

theorem wellFormed_modifyBlock {f : Block → Except GraphError Block} (hg : WellFormed g)
    (hm : g.modifyBlock id f = .ok h) : WellFormed h := by
  obtain ⟨n, b, hn, -, rfl⟩ := modifyBlock_eq_ok_iff.mp hm
  split
  · rename_i hk
    apply hg.mapNode
    · intro _
      rfl
    · intro m hm _
      obtain rfl : n = m := Option.some.inj (hn.symm.trans hm)
      exact hk
    · intro _ _
      rfl
  · exact wellFormed_refile hg (fun _ => rfl) hn

theorem setSequenceIndex_eq_ok_iff {g h : Graph} {id : NodeId} {i : UInt32} :
    g.setSequenceIndex id i = .ok h ↔ ∃ n, g.node? id = some n ∧
      h = if n.sequenceIndex = i then g
        else ((g.unfile id).mapNode id ({ · with sequenceIndex := i })).file
          { n with sequenceIndex := i } := by
  unfold setSequenceIndex get
  cases g.node? id with
  | none => simp [bind, Except.bind]
  | some n =>
    by_cases hi : n.sequenceIndex = i
    · simp [bind, Except.bind, pure, Except.pure, hi, eq_comm]
    · simp only [bind, Except.bind, pure, Except.pure, if_neg hi, Except.ok.injEq,
        Option.some.injEq, exists_eq_left']
      exact eq_comm

theorem wellFormed_setSequenceIndex {i : UInt32} (hg : WellFormed g)
    (hs : g.setSequenceIndex id i = .ok h) : WellFormed h := by
  obtain ⟨n, hn, rfl⟩ := setSequenceIndex_eq_ok_iff.mp hs
  split
  · exact hg
  · exact wellFormed_refile hg (fun _ => rfl) hn

theorem saturate_succ_le {m n : UInt32} (hmn : m ≤ n) :
    saturate (m.toNat + 1) ≤ saturate (n.toNat + 1) := by
  rw [UInt32.le_iff_toNat_le] at hmn ⊢
  rw [toNat_saturate, toNat_saturate]
  omega

theorem le_saturate_succ (n : UInt32) : n ≤ saturate (n.toNat + 1) := by
  rw [UInt32.le_iff_toNat_le, toNat_saturate]
  have := n.toNat_lt
  omega

/-- Raises the sequence index of a node of the family from `start` on. -/
def raised (f : Family) (start : UInt32) (n : Node) : Node :=
  if n.family? = some f ∧ start ≤ n.sequenceIndex then
    { n with sequenceIndex := saturate (n.sequenceIndex.toNat + 1) }
  else n

theorem raised_id (f : Family) (start : UInt32) (n : Node) : (raised f start n).id = n.id := by
  unfold raised
  split <;> rfl

theorem raised_family? (f : Family) (start : UInt32) (n : Node) :
    (raised f start n).family? = n.family? := by
  unfold raised
  split <;> rfl

theorem makeRoom_eq_mapNodes (g : Graph) (f : Family) (start : UInt32) :
    g.makeRoom f start = g.mapNodes (raised f start) := rfl

/-- Raising keeps the order, as all from the start on are raised alike. -/
theorem raised_sequenceIndex_le {f k : Family} {start : UInt32} {m n : Node}
    (hm : m.family? = some k) (hn : n.family? = some k) (hmn : m.sequenceIndex ≤ n.sequenceIndex) :
    (raised f start m).sequenceIndex ≤ (raised f start n).sequenceIndex := by
  unfold raised
  rw [hm, hn]
  by_cases hk : some k = some f
  · by_cases hs : start ≤ m.sequenceIndex
    · rw [if_pos ⟨hk, hs⟩, if_pos ⟨hk, UInt32.le_trans hs hmn⟩]
      exact saturate_succ_le hmn
    · -- only the greater one of the two can be raised
      rw [if_neg fun h => hs h.2]
      split
      · exact UInt32.le_trans hmn (le_saturate_succ _)
      · exact hmn
  · rw [if_neg fun h => hk h.1, if_neg fun h => hk h.1]
    exact hmn

theorem wellFormed_makeRoom (hg : WellFormed g) (f : Family) (start : UInt32) :
    WellFormed (g.makeRoom f start) := by
  rw [makeRoom_eq_mapNodes]
  apply hg.mapNodes (raised_id f start) (fun n _ _ => raised_family? f start n)
  intro k m hm n hn hmn
  exact raised_sequenceIndex_le (hg.mem_members.mp hm).2.1 (hg.mem_members.mp hn).2.1 hmn

theorem setLabel_eq_ok_iff {g h : Graph} {id : NodeId} {label : String} :
    g.setLabel id label = .ok h ↔
      g.contains id = true ∧ h = g.mapNode id ({ · with label }) := by
  unfold setLabel get contains
  cases g.node? id <;> simp [bind, Except.bind, pure, Except.pure, eq_comm]

theorem setPosition_eq_ok_iff {g h : Graph} {id : NodeId} {position : Option Position} :
    g.setPosition id position = .ok h ↔
      g.contains id = true ∧ h = g.mapNode id ({ · with position }) := by
  unfold setPosition get contains
  cases g.node? id <;> simp [bind, Except.bind, pure, Except.pure, eq_comm]

/-- Labels, positions and parameters do not move a node. -/
theorem wellFormed_mapNode {f : Node → Node} (hg : WellFormed g) (hid : ∀ n, (f n).id = n.id)
    (hfamily : ∀ n, (f n).family? = n.family?)
    (horder : ∀ n, (f n).sequenceIndex = n.sequenceIndex) : WellFormed (g.mapNode id f) :=
  hg.mapNode hid (fun n _ _ => hfamily n) fun n _ => horder n

theorem addEdge_eq_ok_iff {g h : Graph} {e : Edge} :
    g.addEdge e = .ok h ↔ g.edge? e.id = none ∧ e.source ≠ e.target ∧ g.contains e.source = true ∧
      g.contains e.target = true ∧ h = { g with edges := g.edges ++ [e] } := by
  unfold addEdge
  cases g.edge? e.id <;> by_cases hst : e.source = e.target <;>
    cases g.contains e.source <;> cases g.contains e.target <;> simp [hst, eq_comm]

theorem edge?_eq_none_iff {e : EdgeId} : g.edge? e = none ↔ e ∉ g.edges.map (·.id) := by
  simp [edge?]

theorem wellFormed_addEdge {e : Edge} (hg : WellFormed g) (ha : g.addEdge e = .ok h) :
    WellFormed h := by
  obtain ⟨he, hst, hs, ht, rfl⟩ := addEdge_eq_ok_iff.mp ha
  refine { hg with edges_nodup := ?_, edge_ends := ?_ }
  · rw [List.map_append, List.map_singleton, List.nodup_append]
    refine ⟨hg.edges_nodup, List.nodup_singleton _, ?_⟩
    intro a ha b hb hab
    obtain rfl : b = e.id := by simpa using hb
    exact edge?_eq_none_iff.mp he (hab ▸ ha)
  · intro x hx
    rcases List.mem_append.mp hx with hx | hx
    · exact hg.edge_ends x hx
    · obtain rfl : x = e := by simpa using hx
      exact ⟨hst, hs, ht⟩

theorem removeEdge_eq_ok_iff {g h : Graph} {id : EdgeId} {e : Edge} :
    g.removeEdge id = .ok (e, h) ↔
      g.edge? id = some e ∧ h = { g with edges := g.edges.filter (·.id ≠ id) } := by
  unfold removeEdge
  cases g.edge? id <;> simp [eq_comm]

theorem wellFormed_removeEdge {e : Edge} {id : EdgeId} (hg : WellFormed g)
    (hr : g.removeEdge id = .ok (e, h)) : WellFormed h := by
  obtain ⟨-, rfl⟩ := removeEdge_eq_ok_iff.mp hr
  refine { hg with edges_nodup := ?_, edge_ends := ?_ }
  · exact hg.edges_nodup.sublist (List.filter_sublist.map _)
  · intro x hx
    exact hg.edge_ends x (List.mem_of_mem_filter hx)

theorem place_mapNodes (g : Graph) (f : Node → Node) (n : Node) :
    (g.mapNodes f).place (f n) = (g.place n).mapNodes f := by
  have hvacant : (g.mapNodes f).vacant = g.vacant := rfl
  unfold place
  rw [hvacant]
  cases g.vacant with
  | nil => simp [mapNodes]
  | cons i rest => simp [mapNodes, List.map_set]

theorem file_mapNodes {f : Node → Node} (hid : ∀ n, (f n).id = n.id)
    (hfamily : ∀ n, (f n).family? = n.family?)
    (horder : ∀ n, (f n).sequenceIndex = n.sequenceIndex) (g : Graph) (n : Node) :
    (g.mapNodes f).file (f n) = (g.file n).mapNodes f := by
  have hlater : (g.mapNodes f).comesAfter n.sequenceIndex = g.comesAfter n.sequenceIndex := by
    funext id
    unfold comesAfter
    rw [node?_mapNodes hid]
    cases g.node? id with
    | none => rfl
    | some m => simp [horder]
  unfold file
  rw [hfamily, hid, horder]
  cases n.family? with
  | none => rfl
  | some k =>
    simp only [hlater, family_mapNodes]
    cases k <;> rfl

theorem add_mapNodes {f : Node → Node} (hid : ∀ n, (f n).id = n.id)
    (hfamily : ∀ n, (f n).family? = n.family?)
    (horder : ∀ n, (f n).sequenceIndex = n.sequenceIndex) (g : Graph) (n : Node) :
    (g.mapNodes f).add (f n) = (g.add n).map (·.mapNodes f) := by
  unfold add
  rw [contains_mapNodes hid, hid, place_mapNodes, file_mapNodes hid hfamily horder]
  cases g.contains n.id <;> rfl

theorem addEdge_mapNodes {f : Node → Node} (hid : ∀ n, (f n).id = n.id) (g : Graph) (e : Edge) :
    (g.mapNodes f).addEdge e = (g.addEdge e).map (·.mapNodes f) := by
  have hedge : (g.mapNodes f).edge? e.id = g.edge? e.id := rfl
  unfold addEdge
  rw [hedge, contains_mapNodes hid, contains_mapNodes hid]
  split
  · rfl
  split
  · rfl
  split
  · rfl
  split
  · rfl
  · rfl

end Graph

/-- A change of a graph, as a value. -/
inductive GraphOperation where
  | add (n : Node)
  | remove (id : NodeId)
  | modifyBlock (id : NodeId) (f : Block → Except GraphError Block)
  | setSequenceIndex (id : NodeId) (i : UInt32)
  | makeRoom (f : Family) (start : UInt32)
  | setLabel (id : NodeId) (label : String)
  | setPosition (id : NodeId) (position : Option Position)
  | addEdge (e : Edge)
  | removeEdge (id : EdgeId)

namespace GraphOperation

def run (g : Graph) : GraphOperation → Except GraphError Graph
  | add n => g.add n
  | remove id => (·.2) <$> g.remove id
  | modifyBlock id f => g.modifyBlock id f
  | setSequenceIndex id i => g.setSequenceIndex id i
  | makeRoom f start => .ok (g.makeRoom f start)
  | setLabel id label => g.setLabel id label
  | setPosition id position => g.setPosition id position
  | addEdge e => g.addEdge e
  | removeEdge id => (·.2) <$> g.removeEdge id

/-- An operation that fails leaves the graph as it is. -/
def apply (g : Graph) (op : GraphOperation) : Graph :=
  match op.run g with
  | .ok h => h
  | .error _ => g

end GraphOperation

namespace Graph

/-- Graphs that operations can build from nothing. -/
def Reachable (g : Graph) : Prop :=
  ∃ ops : List GraphOperation, ops.foldl GraphOperation.apply Graph.empty = g

theorem run_remove_eq_ok_iff {g h : Graph} {id : NodeId} :
    (GraphOperation.remove id).run g = .ok h ↔ ∃ n, g.node? id = some n ∧ h = g.without id := by
  simp only [GraphOperation.run, ← remove_eq_ok_iff]
  cases g.remove id <;> simp [Prod.ext_iff, eq_comm]

theorem run_removeEdge_eq_ok_iff {g h : Graph} {id : EdgeId} :
    (GraphOperation.removeEdge id).run g = .ok h ↔ ∃ e, g.edge? id = some e ∧
      h = { g with edges := g.edges.filter (·.id ≠ id) } := by
  simp only [GraphOperation.run, ← removeEdge_eq_ok_iff]
  cases g.removeEdge id <;> simp [Prod.ext_iff, eq_comm]

theorem wellFormed_run {g h : Graph} {op : GraphOperation} (hg : WellFormed g)
    (hr : op.run g = .ok h) : WellFormed h := by
  cases op with
  | add n => exact wellFormed_add hg hr
  | remove id =>
    obtain ⟨n, hn, rfl⟩ := run_remove_eq_ok_iff.mp hr
    exact wellFormed_without hg hn
  | modifyBlock id f => exact wellFormed_modifyBlock hg hr
  | setSequenceIndex id i => exact wellFormed_setSequenceIndex hg hr
  | makeRoom f start =>
    obtain rfl : g.makeRoom f start = h := by simpa [GraphOperation.run] using hr
    exact wellFormed_makeRoom hg f start
  | setLabel id label =>
    obtain ⟨-, rfl⟩ := setLabel_eq_ok_iff.mp hr
    exact wellFormed_mapNode hg (fun _ => rfl) (fun _ => rfl) fun _ => rfl
  | setPosition id position =>
    obtain ⟨-, rfl⟩ := setPosition_eq_ok_iff.mp hr
    exact wellFormed_mapNode hg (fun _ => rfl) (fun _ => rfl) fun _ => rfl
  | addEdge e => exact wellFormed_addEdge hg hr
  | removeEdge id =>
    obtain ⟨e, he, rfl⟩ := run_removeEdge_eq_ok_iff.mp hr
    exact wellFormed_removeEdge hg (removeEdge_eq_ok_iff.mpr ⟨he, rfl⟩)

theorem wellFormed_apply {g : Graph} (op : GraphOperation) (hg : WellFormed g) :
    WellFormed (op.apply g) := by
  unfold GraphOperation.apply
  cases hr : op.run g with
  | ok h => exact wellFormed_run hg hr
  | error e => exact hg

theorem Reachable.wellFormed {g : Graph} (hg : Reachable g) : WellFormed g := by
  obtain ⟨ops, rfl⟩ := hg
  suffices h : ∀ g, WellFormed g → WellFormed (ops.foldl GraphOperation.apply g) from
    h _ wellFormed_empty
  induction ops with
  | nil => exact fun _ hg => hg
  | cons op ops ih => exact fun g hg => ih _ (wellFormed_apply op hg)

end Graph

end LayerGraph
