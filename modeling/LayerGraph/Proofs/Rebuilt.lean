import LayerGraph.Linearization
import LayerGraph.Proofs.Contents
import LayerGraph.Proofs.WellFormed
import LayerGraph.Revision

namespace LayerGraph

namespace Graph

variable {g h : Graph} {n : Node}

/-- Members of the family that share a sequence index stand as their slots do. -/
def InSlotOrder (g : Graph) (f : Family) : Prop :=
  (g.members f).Pairwise fun m n =>
    m.sequenceIndex = n.sequenceIndex → [m, n].Sublist g.nodes

instance (g : Graph) (f : Family) : Decidable (g.InSlotOrder f) :=
  inferInstanceAs (Decidable ((g.members f).Pairwise fun m n =>
    m.sequenceIndex = n.sequenceIndex → [m, n].Sublist g.nodes))

/-- A graph that was built node by node: no slot was ever vacated. -/
structure Compact (g : Graph) : Prop where
  wellFormed : WellFormed g
  vacant_eq : g.vacant = []
  inSlotOrder : ∀ f, g.InSlotOrder f

theorem compact_empty : Compact Graph.empty where
  wellFormed := wellFormed_empty
  vacant_eq := rfl
  inSlotOrder f := by
    unfold InSlotOrder members
    rw [family_empty]
    exact List.Pairwise.nil

theorem nodes_place_of_compact (hg : Compact g) (n : Node) : (g.place n).nodes = g.nodes ++ [n] := by
  unfold place
  rw [hg.vacant_eq]
  simp [nodes]

theorem vacant_place_of_compact (hg : Compact g) (n : Node) : (g.place n).vacant = [] := by
  unfold place
  rw [hg.vacant_eq]

theorem InSlotOrder.append {f : Family} {l : List Node} (hg : g.InSlotOrder f) (n : Node)
    (hl : l.Sublist (g.members f)) :
    l.Pairwise fun a b => a.sequenceIndex = b.sequenceIndex → [a, b].Sublist (g.nodes ++ [n]) := by
  apply (hg.sublist hl).imp
  intro a b hab he
  exact (hab he).trans (List.sublist_append_left _ _)

theorem inSlotOrder_file (hg : Compact g) (hn : g.contains n.id = false) (f : Family) :
    ((g.place n).file n).InSlotOrder f := by
  have hplace := members_place hg.wellFormed hn
  have hnodes := nodes_place_of_compact hg n
  have hs := hg.inSlotOrder f
  unfold InSlotOrder
  rw [nodes_file, hnodes]
  cases hk : n.family? with
  | none =>
    rw [file_of_family?_eq_none hk, hplace]
    exact hs.append n (List.Sublist.refl _)
  | some k =>
    have hcoherent := Coherent.place hg.wellFormed hn
    have hmem : n ∈ (g.place n).nodes := by
      rw [hnodes]
      exact List.mem_append_right _ (List.mem_singleton_self n)
    have hnode : (g.place n).node? n.id = some n :=
      (node?_eq_some_iff hcoherent.ids_nodup).mpr ⟨hmem, rfl⟩
    rw [members_file hnode hk (fun _ hid => hcoherent.contains_of_mem_family hid) f, hplace, hplace]
    split
    · rename_i hf
      subst hf
      have hsorted := hg.wellFormed.sorted f
      have hsplit := List.takeWhile_append_dropWhile
        (p := fun m : Node => decide (m.sequenceIndex ≤ n.sequenceIndex)) (l := g.members f)
      rw [List.pairwise_append, List.pairwise_cons]
      refine ⟨hs.append n (List.takeWhile_sublist _), ⟨?_, ?_⟩, ?_⟩
      · -- those behind have a greater sequence index
        intro m hm he
        have hlt := lt_of_mem_dropWhile hsorted m hm
        rw [he] at hlt
        exact absurd hlt (UInt32.lt_irrefl _)
      · exact hs.append n (List.dropWhile_sublist _)
      · -- those before have their slots before the last one, which the node took
        intro m hm b hb he
        rcases List.mem_cons.mp hb with rfl | hb
        · have hmg : m ∈ g.nodes :=
            (hg.wellFormed.mem_members.mp ((List.takeWhile_sublist _).subset hm)).1
          exact (List.singleton_sublist.mpr hmg).append (List.Sublist.refl [b])
        · have hall := hs.append n (List.Sublist.refl _)
          rw [← hsplit, List.pairwise_append] at hall
          exact hall.2.2 m hm b hb he
    · exact hs.append n (List.Sublist.refl _)

theorem compact_add (hg : Compact g) (ha : g.add n = .ok h) :
    Compact h ∧ h.nodes = g.nodes ++ [n] ∧ h.edges = g.edges := by
  have hh := wellFormed_add hg.wellFormed ha
  obtain ⟨hn, rfl⟩ := add_eq_ok_iff.mp ha
  refine ⟨⟨hh, ?_, inSlotOrder_file hg hn⟩, ?_, ?_⟩
  · rw [vacant_file, vacant_place_of_compact hg]
  · rw [nodes_file, nodes_place_of_compact hg]
  · rw [edges_file, edges_place]

/-- Connections can be added between nodes that there are, when no two have an id in common. -/
theorem foldlM_addEdge_eq_ok_iff {es : List Edge} (hg : (g.edges.map (·.id)).Nodup) :
    es.foldlM addEdge g = .ok h ↔ ((g.edges ++ es).map (·.id)).Nodup ∧
      (∀ e ∈ es, e.source ≠ e.target ∧ g.contains e.source = true ∧ g.contains e.target = true) ∧
      h = { g with edges := g.edges ++ es } := by
  induction es generalizing g with
  | nil =>
    rw [foldlM_nil_eq_ok_iff, List.append_nil, eq_comm]
    simp [hg]
  | cons e es ih =>
    have hassoc : g.edges ++ e :: es = (g.edges ++ [e]) ++ es := by simp
    rw [foldlM_cons_eq_ok_iff, List.forall_mem_cons, hassoc]
    constructor
    · rintro ⟨g₁, hadd, hrest⟩
      obtain ⟨he, hst, hs, ht, rfl⟩ := addEdge_eq_ok_iff.mp hadd
      have hnew : ∀ x ∈ g.edges, x.id ≠ e.id := fun x hx hxe =>
        edge?_eq_none_iff.mp he (hxe ▸ List.mem_map_of_mem hx)
      obtain ⟨hids, hends, rfl⟩ := (ih (nodup_map_concat hg hnew)).mp hrest
      exact ⟨hids, ⟨⟨hst, hs, ht⟩, hends⟩, rfl⟩
    · rintro ⟨hids, ⟨⟨hst, hs, ht⟩, hends⟩, rfl⟩
      have hids' : ((g.edges ++ [e]).map (·.id)).Nodup := by
        rw [List.map_append] at hids
        exact hids.of_append_left
      have he : g.edge? e.id = none := by
        rw [edge?_eq_none_iff]
        intro hm
        rw [List.map_append, List.nodup_append] at hids'
        exact hids'.2.2 e.id hm e.id (by simp) rfl
      exact ⟨_, addEdge_eq_ok_iff.mpr ⟨he, hst, hs, ht, rfl⟩, (ih hids').mpr ⟨hids, hends, rfl⟩⟩

theorem wellFormed_addEdges {es : List Edge} (hg : WellFormed g)
    (hids : ((g.edges ++ es).map (·.id)).Nodup)
    (hends : ∀ e ∈ es,
      e.source ≠ e.target ∧ g.contains e.source = true ∧ g.contains e.target = true) :
    WellFormed { g with edges := g.edges ++ es } where
  ids_nodup := hg.ids_nodup
  vacant_nodup := hg.vacant_nodup
  mem_vacant := hg.mem_vacant
  family_nodup := hg.family_nodup
  mem_family := hg.mem_family
  sorted := hg.sorted
  edges_nodup := hids
  edge_ends := List.forall_mem_append.mpr ⟨hg.edge_ends, hends⟩

theorem compact_foldlM_add {ns : List Node} (hg : Compact g) (h' : ns.foldlM add g = .ok h) :
    Compact h ∧ h.nodes = g.nodes ++ ns ∧ h.edges = g.edges := by
  induction ns generalizing g with
  | nil =>
    obtain rfl := foldlM_nil_eq_ok_iff.mp h'
    exact ⟨hg, by simp, rfl⟩
  | cons n ns ih =>
    obtain ⟨g₁, h₁, hrest⟩ := foldlM_cons_eq_ok_iff.mp h'
    obtain ⟨hc, hnodes, hedges⟩ := compact_add hg h₁
    obtain ⟨hch, hns, he⟩ := ih hc hrest
    exact ⟨hch, by rw [hns, hnodes, List.append_assoc]; rfl, he.trans hedges⟩

/-- A graph that was made of a document has its nodes and connections, in their order. -/
theorem of_ofDocument_eq_ok {doc : GraphDocument} (h' : ofDocument doc = .ok h) :
    Compact h ∧ h.toDocument = doc := by
  obtain ⟨g₁, hn, he⟩ := bind_eq_ok_iff.mp h'
  obtain ⟨hc, hnodes, hnone⟩ := compact_foldlM_add compact_empty hn
  obtain ⟨hids, hends, rfl⟩ := (foldlM_addEdge_eq_ok_iff hc.wellFormed.edges_nodup).mp he
  refine ⟨⟨wellFormed_addEdges hc.wellFormed hids hends, hc.vacant_eq, hc.inSlotOrder⟩, ?_⟩
  change (⟨g₁.nodes, g₁.edges ++ doc.edges⟩ : GraphDocument) = doc
  rw [hnodes, hnone]
  rfl

theorem exists_foldlM_add {ns : List Node} (hg : Compact g)
    (hids : ((g.nodes ++ ns).map (·.id)).Nodup) : ∃ h, ns.foldlM add g = .ok h := by
  induction ns generalizing g with
  | nil => exact ⟨g, rfl⟩
  | cons n ns ih =>
    -- the id is new, as it does not stand twice in the list
    have hn : g.contains n.id = false := by
      rw [Bool.eq_false_iff, ne_eq, contains_iff]
      rintro ⟨m, hm, hmn⟩
      rw [List.map_append, List.nodup_append] at hids
      exact hids.2.2 m.id (List.mem_map_of_mem hm) n.id (by simp) hmn
    have hadd : g.add n = .ok ((g.place n).file n) := add_eq_ok_iff.mpr ⟨hn, rfl⟩
    obtain ⟨hc, hnodes, -⟩ := compact_add hg hadd
    obtain ⟨h, hh⟩ := ih hc (by rw [hnodes, List.append_assoc]; exact hids)
    exact ⟨h, foldlM_cons_eq_ok_iff.mpr ⟨_, hadd, hh⟩⟩

/-- Distinct ids, and connections between two different nodes, are all that a document needs. -/
theorem exists_ofDocument {doc : GraphDocument} (hids : (doc.nodes.map (·.id)).Nodup)
    (hedges : (doc.edges.map (·.id)).Nodup)
    (hends : ∀ e ∈ doc.edges, e.source ≠ e.target ∧
      (∃ n ∈ doc.nodes, n.id = e.source) ∧ ∃ n ∈ doc.nodes, n.id = e.target) :
    ∃ h, ofDocument doc = .ok h ∧ Compact h ∧ h.toDocument = doc := by
  obtain ⟨g₁, hg₁⟩ := exists_foldlM_add compact_empty hids
  obtain ⟨hc, hnodes, hnone⟩ := compact_foldlM_add compact_empty hg₁
  have hcontains : ∀ id, g₁.contains id = true ↔ ∃ n ∈ doc.nodes, n.id = id := by
    intro id
    rw [contains_iff, hnodes]
    rfl
  simp only [← hcontains] at hends
  have hedges' : ((g₁.edges ++ doc.edges).map (·.id)).Nodup := by
    rw [hnone]
    exact hedges
  have hh := (foldlM_addEdge_eq_ok_iff hc.wellFormed.edges_nodup).mpr ⟨hedges', hends, rfl⟩
  have hok : ofDocument doc = .ok _ := bind_eq_ok_iff.mpr ⟨g₁, hg₁, hh⟩
  exact ⟨_, hok, of_ofDocument_eq_ok hok⟩

theorem addBlock_eq_ok_iff {row : StoredBlock} :
    GraphRows.addBlock g row = .ok h ↔ ∃ n, row.toNode = .ok n ∧ g.add n = .ok h := by
  simp only [GraphRows.addBlock, bind_eq_ok_iff, mapError_eq_ok_iff]

theorem addStored_eq_ok_iff {e : Edge} : g.addStored e = .ok h ↔ g.addEdge e = .ok h :=
  mapError_eq_ok_iff

theorem foldlM_addBlock_eq_ok_iff {blocks : List StoredBlock} :
    blocks.foldlM GraphRows.addBlock g = .ok h ↔ ∃ ns : List Node,
      List.Forall₂ (fun row n => row.toNode = .ok n) blocks ns ∧ ns.foldlM add g = .ok h := by
  induction blocks generalizing g with
  | nil =>
    rw [foldlM_nil_eq_ok_iff]
    constructor
    · rintro rfl
      exact ⟨[], .nil, rfl⟩
    · rintro ⟨ns, hns, h'⟩
      cases hns
      exact foldlM_nil_eq_ok_iff.mp h'
  | cons row rows ih =>
    simp only [foldlM_cons_eq_ok_iff, addBlock_eq_ok_iff, ih]
    constructor
    · rintro ⟨g₁, ⟨n, hn, hadd⟩, ns, hns, h'⟩
      exact ⟨n :: ns, .cons hn hns, foldlM_cons_eq_ok_iff.mpr ⟨g₁, hadd, h'⟩⟩
    · rintro ⟨ns, hns, h'⟩
      cases hns with
      | cons hn hns =>
        obtain ⟨g₁, hadd, h'⟩ := foldlM_cons_eq_ok_iff.mp h'
        exact ⟨g₁, ⟨_, hn, hadd⟩, _, hns, h'⟩

theorem foldlM_addStored_eq_ok_iff {edges : List Edge} :
    edges.foldlM addStored g = .ok h ↔ edges.foldlM addEdge g = .ok h := by
  induction edges generalizing g with
  | nil => rw [foldlM_nil_eq_ok_iff, foldlM_nil_eq_ok_iff]
  | cons e es ih => simp only [foldlM_cons_eq_ok_iff, addStored_eq_ok_iff, ih]

/-- Rows make a graph when the document of the nodes that are read from them does. -/
theorem ofRows_eq_ok_iff {blocks : List StoredBlock} {edges : List Edge} :
    Graph.ofRows blocks edges = .ok h ↔ ∃ ns : List Node,
      List.Forall₂ (fun row n => row.toNode = .ok n) blocks ns ∧
        ofDocument ⟨ns, edges⟩ = .ok h := by
  simp only [Graph.ofRows, ofDocument, bind_eq_ok_iff, foldlM_addBlock_eq_ok_iff,
    foldlM_addStored_eq_ok_iff]
  constructor
  · rintro ⟨g₁, ⟨ns, hns, hg₁⟩, hh⟩
    exact ⟨ns, hns, g₁, hg₁, hh⟩
  · rintro ⟨ns, hns, g₁, hg₁, hh⟩
    exact ⟨g₁, ⟨ns, hns, hg₁⟩, hh⟩

/-- A graph that was made of rows has their nodes and connections, in their order. -/
theorem of_ofRows_eq_ok {blocks : List StoredBlock} {edges : List Edge}
    (h' : Graph.ofRows blocks edges = .ok h) :
    Compact h ∧ List.Forall₂ (fun row n => row.toNode = .ok n) blocks h.nodes ∧
      h.edges = edges := by
  obtain ⟨ns, hrows, hh⟩ := ofRows_eq_ok_iff.mp h'
  obtain ⟨hc, hd⟩ := of_ofDocument_eq_ok hh
  obtain ⟨hnodes, hedges⟩ := GraphDocument.mk.inj hd
  exact ⟨hc, hnodes ▸ hrows, hedges⟩

/-- Rows that have the nodes of a graph make a graph with these nodes and connections. -/
theorem exists_ofRows {blocks : List StoredBlock} (hg : WellFormed g)
    (hrows : List.Forall₂ (fun row n => row.toNode = .ok n) blocks g.nodes) :
    ∃ h, Graph.ofRows blocks g.edges = .ok h ∧ Compact h ∧ h.toDocument = g.toDocument := by
  have hends := hg.edge_ends
  simp only [contains_iff] at hends
  have hdoc : ∃ h, ofDocument g.toDocument = .ok h ∧ Compact h ∧ h.toDocument = g.toDocument :=
    exists_ofDocument hg.ids_nodup hg.edges_nodup hends
  obtain ⟨h, hh, hc, hd⟩ := hdoc
  exact ⟨h, ofRows_eq_ok_iff.mpr ⟨g.nodes, hrows, hh⟩, hc, hd⟩

/-- A family in the order of the slots is determined by the nodes of the family. -/
theorem members_eq_of_inSlotOrder {f : Family} (hg : WellFormed g) (hh : WellFormed h)
    (hsub : g.nodes.Sublist h.nodes)
    (hsame : ∀ n ∈ h.nodes, n.family? = some f → n ∈ g.nodes)
    (hgf : g.InSlotOrder f) (hhf : h.InSlotOrder f) : h.members f = g.members f := by
  have horder : ∀ {k : Graph}, WellFormed k → k.InSlotOrder f → k.nodes.Sublist h.nodes →
      (k.members f).Pairwise fun m n => m.sequenceIndex ≤ n.sequenceIndex ∧
        (m.sequenceIndex = n.sequenceIndex → [m, n].Sublist h.nodes) := by
    intro k hk hkf hkn
    exact (hk.sorted f).and (hkf.imp fun hslot he => (hslot he).trans hkn)
  -- both are sorted by index and then slot, and have the same members
  apply List.Perm.eq_of_pairwise ?_ (horder hh hhf (List.Sublist.refl _)) (horder hg hgf hsub)
  · rw [List.perm_ext_iff_of_nodup (hh.members_nodup f) (hg.members_nodup f)]
    intro m
    rw [hh.mem_members, hg.mem_members]
    constructor
    · rintro ⟨hm, hf, hl⟩
      exact ⟨hsame m hm hf, hf, hl⟩
    · rintro ⟨hm, hf, hl⟩
      exact ⟨hsub.subset hm, hf, hl⟩
  · rintro m n - - ⟨hmn, hmns⟩ ⟨hnm, hnms⟩
    have he := UInt32.le_antisymm hmn hnm
    exact sublist_pair_antisymm (List.Nodup.of_map _ hh.ids_nodup) (hmns he) (hnms he.symm)

theorem members_eq_of_family_eq {f : Family} (hnodes : h.nodes = g.nodes)
    (hf : h.family f = g.family f) : h.members f = g.members f := by
  apply members_congr hf
  intro id _
  unfold node?
  rw [hnodes]

/-- Building a graph again keeps a family just when it is in the order of the slots. -/
theorem Compact.family_eq_iff (hh : Compact h) (hg : WellFormed g) (hnodes : h.nodes = g.nodes)
    (f : Family) : h.family f = g.family f ↔ g.InSlotOrder f := by
  constructor
  · intro hf
    have hs := hh.inSlotOrder f
    unfold InSlotOrder at hs ⊢
    rwa [members_eq_of_family_eq hnodes hf, hnodes] at hs
  · intro hs
    have hmembers := members_eq_of_inSlotOrder hg hh.wellFormed (hnodes ▸ List.Sublist.refl _)
      (fun n hn _ => hnodes ▸ hn) hs (hh.inSlotOrder f)
    rw [← hg.map_id_members f, ← hh.wellFormed.map_id_members f, hmembers]

theorem node?_of_toDocument_eq (hd : h.toDocument = g.toDocument) : h.node? = g.node? := by
  have hnodes : h.nodes = g.nodes := congrArg GraphDocument.nodes hd
  funext id
  simp only [node?, hnodes]

theorem successors_of_toDocument_eq (hd : h.toDocument = g.toDocument) :
    h.successors = g.successors := by
  have hedges : h.edges = g.edges := congrArg GraphDocument.edges hd
  funext id
  simp only [successors, outgoing, hedges]

theorem linearize_of_toDocument_eq (hd : h.toDocument = g.toDocument) :
    h.linearize = g.linearize := by
  have hnodes : h.nodes = g.nodes := congrArg GraphDocument.nodes hd
  have hincoming : h.incoming = g.incoming := by
    have hedges : h.edges = g.edges := congrArg GraphDocument.edges hd
    funext id
    simp only [incoming, hedges]
  have hnode := node?_of_toDocument_eq hd
  have hnext := successors_of_toDocument_eq hd
  have hplaceholder : h.isPlaceholder = g.isPlaceholder := by
    funext id
    simp only [isPlaceholder, hnode]
  have hstart : h.findStart = g.findStart := by
    simp only [findStart, startCandidates, fedPlaceholders, ids, hnodes, hnext, hincoming,
      hplaceholder]
  unfold linearize reach
  simp only [hstart, hnode, hnext, hnodes, ids]

theorem content_congr {digest : List UInt8 → List UInt8} {t : Training}
    (hd : h.toDocument = g.toDocument) : h.content digest t = g.content digest t := by
  have hnodes : h.nodes = g.nodes := congrArg GraphDocument.nodes hd
  have hedges : h.edges = g.edges := congrArg GraphDocument.edges hd
  unfold content sortedNodes
  rw [hnodes, hedges]

theorem revision_of_toDocument_eq (hd : h.toDocument = g.toDocument) (t : Training) :
    h.revision t = g.revision t := by
  unfold revision revisionBy
  rw [content_congr hd]

end Graph

end LayerGraph
