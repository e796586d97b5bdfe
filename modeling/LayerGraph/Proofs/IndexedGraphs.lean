import LayerGraph.Proofs.Kept

namespace LayerGraph

namespace IndexedGraph

variable {s : IndexedGraph} {g : Graph} {id : NodeId} {i j k : Nat} {n : Node} {f : Family}

theorem keeps_empty : Keeps empty Graph.empty where
  nodes := ⟨rfl, fun _ _ => by simp [empty, idAt, Arena.get?]⟩
  families f := by cases f <;> rfl
  edges :=
    { sound := ⟨List.nodup_nil, by simp [empty]⟩
      indexes := fun _ _ => by simp [empty, edgeIdAt, Arena.get?]
      ordinal_lt := by simp [empty, Arena.entries]
      inOrder := ⟨[], by simp [empty, Arena.entries], .nil, .nil⟩ }

namespace Keeps

theorem place (h : s.Keeps g) (hg : g.arena.Sound) (hn : s.slot? n.id = none) :
    Keeps { s with
      nodes := s.nodes.insert n
      nodeIndex := (n.id, s.nodes.next) :: s.nodeIndex } (g.place n) := by
  have hnodes := h.nodes.insert hg hn
  have hid : ∀ i id, s.idAt i = some id →
      idAt { s with
        nodes := s.nodes.insert n
        nodeIndex := (n.id, s.nodes.next) :: s.nodeIndex } i = some id := by
    intro i id hi
    obtain ⟨m, hm, hmi⟩ := idAt_eq_some_iff.mp hi
    rw [← h.nodes.nodes_eq] at hg
    refine idAt_eq_some_iff.mpr ⟨m, ?_, hmi⟩
    have hne : i ≠ s.nodes.next := by
      rintro rfl
      rw [hg.get?_next] at hm
      cases hm
    rw [hg.get?_insert, if_neg hne, hm]
  exact ⟨hnodes, h.families.mono (fun f => by cases f <;> rfl) (Graph.family_place g n)
      fun _ i _ id => hid i id,
    h.edges.mono rfl rfl rfl (Graph.edges_place g n) hid⟩

theorem file (h : s.Keeps g) (hids : (g.nodes.map (·.id)).Nodup) (hi : s.nodes.get? i = some n) :
    (s.file i n).Keeps (g.file n) := by
  refine ⟨h.nodes.file i n, h.families.file h.nodes hids hi, ?_⟩
  obtain ⟨is, js, hfile⟩ := exists_file_eq s i n
  rw [hfile]
  exact h.edges.mono rfl rfl rfl (Graph.edges_file g n) fun _ _ hi => hi

theorem unfile (h : s.Keeps g) (hi : s.idAt i = some id) : (s.unfile i).Keeps (g.unfile id) :=
  ⟨⟨h.nodes.nodes_eq, h.nodes.indexes⟩, h.families.unfile h.nodes hi,
    h.edges.mono rfl rfl rfl rfl fun _ _ hi => hi⟩

theorem modify {k : Node → Node} (h : s.Keeps g) (hids : (g.nodes.map (·.id)).Nodup)
    (hid : ∀ n, (k n).id = n.id) (hi : s.nodes.get? i = some n) :
    (s.modifyNode i k).Keeps (g.mapNode n.id k) := by
  have hidAt : ∀ j id, s.idAt j = some id → (s.modifyNode i k).idAt j = some id := by
    intro j id hj
    rw [idAt_modifyNode hid, hj]
  exact ⟨h.nodes.modify hids hid hi,
    h.families.mono (fun f => by cases f <;> rfl) (fun f => by cases f <;> rfl)
      fun _ j _ id => hidAt j id,
    h.edges.mono rfl rfl rfl rfl hidAt⟩

end Keeps

theorem mem_incident : k ∈ s.incident i ↔
    ∃ e, s.edges.get? k = some e ∧ decide (e.source = i ∨ e.target = i) = true := by
  simp only [incident, List.mem_filter, List.mem_range, Option.any_eq_true]
  constructor
  · rintro ⟨-, e, he, hi⟩
    exact ⟨e, he, hi⟩
  · rintro ⟨e, he, hi⟩
    exact ⟨Arena.lt_length_of_get? he, e, he, hi⟩

theorem idAt_without (s : IndexedGraph) (i : Nat) (id : NodeId) (j : Nat) :
    (s.without i id).idAt j = if j = i then none else s.idAt j := by
  simp only [idAt, IndexedGraph.without, Arena.get?_erase]
  split <;> rfl

/-- A slot is told by the id of what it holds. -/
theorem KeepsNodes.eq_iff (h : s.KeepsNodes g) (hi : s.idAt i = some id) :
    j = i ↔ s.idAt j = some id := by
  refine ⟨?_, fun hj => h.indexes.inj hj hi⟩
  rintro rfl
  exact hi

theorem KeepsNodes.without (h : s.KeepsNodes g) (hg : Graph.WellFormed g)
    (hi : s.nodes.get? i = some n) : (s.without i n.id).KeepsNodes (g.without n.id) where
  nodes_eq := by
    have harena := h.nodes_eq
    change s.nodes.erase i = _
    rw [harena] at hi ⊢
    rw [Graph.arena_without hg hi rfl]
  indexes := by
    refine h.indexes.filter (p := (· ≠ n.id)) ?_
    intro j
    have hj := h.eq_iff (j := j) (idAt_eq_some_iff.mpr ⟨n, hi, rfl⟩)
    rw [idAt_without]
    cases hid : s.idAt j with
    | none => simp
    | some id =>
      rw [hid, Option.some_inj] at hj
      by_cases hji : j = i <;> simp [Option.filter, ← hj, hji]

theorem KeepsEdges.without (h : s.KeepsEdges g) (hn : s.KeepsNodes g) (hi : s.idAt i = some id) :
    (s.without i id).KeepsEdges (g.without id) := by
  have hends : ∀ {j x}, s.idAt j = some x → (j = i ↔ x = id) := by
    intro j x hx
    rw [hn.eq_iff hi, hx, Option.some_inj]
  refine h.erase (p := fun e => e.source = i ∨ e.target = i)
    (q := fun x => x.source = id ∨ x.target = id) (List.nodup_range.filter _)
    (fun _ => mem_incident) ?_ rfl rfl rfl ?_ ?_
  · intro e x hx
    obtain ⟨-, hs, ht⟩ := named_eq_some_iff.mp hx
    simp [hends hs, hends ht]
  · simp [Graph.without]
  · intro e x hp hx
    obtain ⟨hid, hs, ht⟩ := named_eq_some_iff.mp hx
    have hne : e.source ≠ i ∧ e.target ≠ i := by simpa using hp
    refine named_eq_some_iff.mpr ⟨hid, ?_, ?_⟩
    · rw [idAt_without, if_neg hne.1, hs]
    · rw [idAt_without, if_neg hne.2, ht]

theorem Keeps.without (h : s.Keeps g) (hg : Graph.WellFormed g) (hi : s.nodes.get? i = some n) :
    (s.without i n.id).Keeps (g.without n.id) := by
  have hin : s.idAt i = some n.id := idAt_eq_some_iff.mpr ⟨n, hi, rfl⟩
  refine ⟨h.nodes.without hg hi, (h.families.unfile h.nodes hin).mono ?_ ?_ ?_,
    h.edges.without h.nodes hin⟩
  · intro f
    cases f <;> rfl
  · intro f
    rw [Graph.family_without, Graph.family_unfile]
  · intro f j hj id hid
    rw [familySlots_unfile, List.mem_filter] at hj
    rw [idAt_without, if_neg (by simpa using hj.2)]
    exact hid

theorem Keeps.mem_familySlots (h : s.Keeps g) (hg : Graph.WellFormed g)
    (hi : s.nodes.get? i = some n) : i ∈ s.familySlots f ↔ n.family? = some f := by
  have hid : s.idAt i = some n.id := idAt_eq_some_iff.mpr ⟨n, hi, rfl⟩
  have hmem : i ∈ s.familySlots f ↔ n.id ∈ g.family f := by
    have hlisted : n.id ∈ g.family f ↔ s.idAt i ∈ (s.familySlots f).map s.idAt := by
      rw [h.families f, hid, List.mem_map_of_injective (Option.some_injective _)]
    rw [hlisted]
    refine ⟨List.mem_map_of_mem, ?_⟩
    intro hm
    obtain ⟨j, hj, hji⟩ := List.mem_map.mp hm
    obtain rfl := h.nodes.indexes.inj (hji.trans hid) hid
    exact hj
  rw [hmem, hg.mem_family]
  constructor
  · rintro ⟨-, m, hm, hmi, hk⟩
    obtain ⟨j, hj⟩ := h.nodes.mem_nodes_iff.mp hm
    obtain rfl := h.nodes.indexes.inj (idAt_eq_some_iff.mpr ⟨m, hj, hmi⟩) hid
    obtain rfl := Option.some.inj (hi.symm.trans hj)
    exact hk
  · intro hk
    exact ⟨nofun, n, h.nodes.mem_nodes_iff.mpr ⟨i, hi⟩, rfl, hk⟩

theorem Keeps.nodes_makeRoom (h : s.Keeps g) (hg : Graph.WellFormed g) (f : Family)
    (start : UInt32) : (s.makeRoom f start).nodes = s.nodes.map (Graph.raised f start) := by
  have hnodup : (s.familySlots f).Nodup := by
    apply List.Nodup.of_map s.idAt
    rw [h.families f]
    exact (hg.family_nodup f).map (Option.some_injective _)
  have hslot : ∀ j m, s.nodes.get? j = some m →
      (j ∈ s.familySlots f ↔ decide (m.family? = some f) = true) := by
    intro j m hm
    rw [h.mem_familySlots hg hm, decide_eq_true_eq]
  refine (Arena.foldl_modify_eq_map hnodup hslot).trans (congrArg _ ?_)
  funext m
  unfold Graph.raised
  by_cases hk : m.family? = some f <;> simp [hk]

theorem Keeps.makeRoom (h : s.Keeps g) (hg : Graph.WellFormed g) (f : Family) (start : UInt32) :
    (s.makeRoom f start).Keeps (g.makeRoom f start) := by
  have hnodes := h.nodes_makeRoom hg f start
  have hidAt : (s.makeRoom f start).idAt = s.idAt := by
    funext j
    rw [idAt, idAt, hnodes, Arena.get?_map]
    cases s.nodes.get? j <;> simp [Graph.raised_id]
  have hmono : ∀ j id, s.idAt j = some id → (s.makeRoom f start).idAt j = some id :=
    fun j id hj => hidAt ▸ hj
  refine ⟨⟨?_, ?_⟩, ?_, ?_⟩
  · rw [hnodes, h.nodes.nodes_eq]
    rfl
  · rw [hidAt]
    exact h.nodes.indexes
  · exact h.families.mono (fun k => by cases k <;> rfl) (fun k => by cases k <;> rfl)
      fun _ j _ id => hmono j id
  · exact h.edges.mono rfl rfl rfl rfl hmono

def run (s : IndexedGraph) : GraphOperation → Except GraphError IndexedGraph
  | .add n => s.add n
  | .remove id => (·.2) <$> s.remove id
  | .modifyBlock id f => s.modifyBlock id f
  | .setSequenceIndex id q => s.setSequenceIndex id q
  | .makeRoom f start => .ok (s.makeRoom f start)
  | .setLabel id label => s.setLabel id label
  | .setPosition id position => s.setPosition id position
  | .addEdge e => s.addEdge e
  | .removeEdge id => (·.2) <$> s.removeEdge id

def apply (s : IndexedGraph) (op : GraphOperation) : IndexedGraph :=
  match s.run op with
  | .ok t => t
  | .error _ => s

/-- Both fail with the same error, or both succeed and hold the same. -/
inductive Agree : Except GraphError IndexedGraph → Except GraphError Graph → Prop where
  | ok {s : IndexedGraph} {g : Graph} (h : s.Keeps g) : Agree (.ok s) (.ok g)
  | error (e : GraphError) : Agree (.error e) (.error e)

theorem Keeps.agree_add (h : s.Keeps g) (hg : Graph.WellFormed g) (n : Node) :
    Agree (s.add n) (g.add n) := by
  unfold IndexedGraph.add Graph.add
  rw [h.nodes.isSome_slot?]
  cases hc : g.contains n.id with
  | true => exact .error _
  | false =>
    have hn : s.slot? n.id = none := by
      rw [← Option.not_isSome_iff_eq_none, h.nodes.isSome_slot?, hc]
      exact Bool.false_ne_true
    have hplaced := h.place hg.sound hn
    have hsound : s.nodes.Sound := h.nodes.nodes_eq ▸ hg.sound
    refine .ok (hplaced.file (Graph.ids_nodup_place hg hc) ?_)
    exact (hsound.get?_insert n s.nodes.next).trans (if_pos rfl)

theorem Keeps.agree_remove (h : s.Keeps g) (hg : Graph.WellFormed g) (id : NodeId) :
    Agree ((·.2) <$> s.remove id) ((·.2) <$> g.remove id) := by
  unfold IndexedGraph.remove
  rcases h.nodes.get_cases hg.ids_nodup id with ⟨hs, hr⟩ | ⟨i, n, hs, hr, hi, rfl⟩
  · have hremove : g.remove id = .error (.nodeNotFound id) := by
      unfold Graph.remove
      rw [hr]
      rfl
    rw [hs, hremove]
    exact .error _
  · have hremove : g.remove n.id = .ok (n, g.without n.id) :=
      Graph.remove_eq_ok_iff.mpr ⟨Graph.get_eq_ok_iff.mp hr, rfl⟩
    rw [hs, hremove]
    exact .ok (h.without hg hi)

/-- What starts with a node goes on in the same way once that is found. -/
theorem Keeps.agree_get (h : s.Keeps g) (hg : Graph.WellFormed g)
    {k : Nat × Node → Except GraphError IndexedGraph} {k' : Node → Except GraphError Graph}
    (hk : ∀ i n, s.nodes.get? i = some n → n.id = id → Agree (k (i, n)) (k' n)) :
    Agree (s.get id >>= k) (g.get id >>= k') := by
  rcases h.nodes.get_cases hg.ids_nodup id with ⟨hs, hr⟩ | ⟨i, n, hs, hr, hi, hn⟩
  · rw [hs, hr]
    exact .error _
  · rw [hs, hr]
    exact hk i n hi hn

theorem Keeps.agree_modifyBlock (h : s.Keeps g) (hg : Graph.WellFormed g) (id : NodeId)
    (f : Block → Except GraphError Block) : Agree (s.modifyBlock id f) (g.modifyBlock id f) := by
  apply h.agree_get hg
  rintro i n hi rfl
  cases hb : f n.block with
  | error e =>
    simp only [bind, Except.bind, hb]
    exact .error e
  | ok block =>
    simp only [bind, Except.bind, pure, Except.pure, hb]
    have hids := Graph.ids_mapNode (g := g) (k := ({ · with block })) (fun _ => rfl) n.id
    have hm := h.modify (k := ({ · with block })) hg.ids_nodup (fun _ => rfl) hi
    have hin : (s.modifyNode i ({ · with block })).nodes.get? i = some { n with block } := by
      simp [modifyNode, Arena.get?_modify, hi]
    refine .ok ?_
    by_cases hk : block.family? = n.family?
    · rw [if_pos hk, if_pos hk]
      exact hm
    · rw [if_neg hk, if_neg hk]
      have hunfiled := hm.unfile (idAt_eq_some_iff.mpr ⟨_, hin, rfl⟩)
      exact hunfiled.file (hids ▸ hg.ids_nodup) hin

theorem Keeps.agree_setSequenceIndex (h : s.Keeps g) (hg : Graph.WellFormed g) (id : NodeId)
    (q : UInt32) : Agree (s.setSequenceIndex id q) (g.setSequenceIndex id q) := by
  apply h.agree_get hg
  rintro i n hi rfl
  by_cases hq : n.sequenceIndex = q
  · simp only [if_pos hq]
    exact .ok h
  · simp only [if_neg hq]
    have hids := Graph.ids_mapNode (g := g.unfile n.id) (k := ({ · with sequenceIndex := q }))
      (fun _ => rfl) n.id
    have hunfiled := h.unfile (idAt_eq_some_iff.mpr ⟨n, hi, rfl⟩)
    have hm := hunfiled.modify (k := ({ · with sequenceIndex := q })) hg.ids_nodup
      (fun _ => rfl) hi
    refine .ok (hm.file (hids ▸ hg.ids_nodup) ?_)
    simp [modifyNode, IndexedGraph.unfile, Arena.get?_modify, hi]

theorem Keeps.agree_modifyNode (h : s.Keeps g) (hg : Graph.WellFormed g) (id : NodeId)
    {k : Node → Node} (hid : ∀ n, (k n).id = n.id) :
    Agree (do let (i, _) ← s.get id; return s.modifyNode i k)
      (do let _ ← g.get id; return g.mapNode id k) := by
  apply h.agree_get hg
  rintro i n hi rfl
  exact .ok (h.modify hg.ids_nodup hid hi)

theorem Keeps.agree_addEdge (h : s.Keeps g) (hg : Graph.WellFormed g) (x : Edge) :
    Agree (s.addEdge x) (g.addEdge x) := by
  have hsource := h.nodes.isSome_slot? x.source
  have htarget := h.nodes.isSome_slot? x.target
  unfold IndexedGraph.addEdge Graph.addEdge
  rcases h.edges.edge_cases hg.edges_nodup x.id with ⟨hs, hr⟩ | ⟨k, e, y, hs, -, -, hr, -⟩
  · by_cases hst : x.source = x.target
    · simp only [hs, hr, hst]
      exact .error _
    · cases hi : s.slot? x.source with
      | none =>
        simp only [hi, Option.isSome_none] at hsource
        simp only [hs, hr, hst, ← hsource]
        exact .error _
      | some i =>
        cases hj : s.slot? x.target with
        | none =>
          simp only [hi, hj, Option.isSome_none, Option.isSome_some] at hsource htarget
          simp only [hs, hr, hst, ← hsource, ← htarget]
          exact .error _
        | some j =>
          simp only [hi, hj, Option.isSome_some] at hsource htarget
          simp only [hs, hr, hst, ← hsource, ← htarget]
          have hi := (h.nodes.indexes x.source i).mp hi
          have hj := (h.nodes.indexes x.target j).mp hj
          exact .ok ⟨⟨h.nodes.nodes_eq, h.nodes.indexes⟩, h.families, h.edges.insert hs hi hj⟩
  · simp only [hs, hr]
    exact .error _

theorem Keeps.agree_removeEdge (h : s.Keeps g) (hg : Graph.WellFormed g) (id : EdgeId) :
    Agree ((·.2) <$> s.removeEdge id) ((·.2) <$> g.removeEdge id) := by
  unfold IndexedGraph.removeEdge Graph.removeEdge
  rcases h.edges.edge_cases hg.edges_nodup id with ⟨hs, hr⟩ | ⟨k, e, x, hs, he, hex, hr, rfl⟩
  · rw [hs, hr]
    exact .error _
  · have hmem : ∀ j, j ∈ [k] ↔ ∃ e', s.edges.get? j = some e' ∧ decide (e'.id = e.id) = true := by
      intro j
      rw [List.mem_singleton]
      constructor
      · rintro rfl
        exact ⟨e, he, by simp⟩
      · rintro ⟨e', he', hid⟩
        refine h.edges.indexes.inj (k := e.id) ?_ (congrArg (Option.map _) he)
        rw [edgeIdAt, he', Option.map_some, of_decide_eq_true hid]
    simp only [hs, hr, he, hex, Option.bind_some]
    refine .ok ⟨⟨h.nodes.nodes_eq, h.nodes.indexes⟩, h.families, ?_⟩
    refine h.edges.erase (p := fun e' => e'.id = e.id) (q := fun x => x.id = e.id)
      (List.nodup_singleton k) hmem ?_ rfl ?_ rfl ?_ ?_
    · intro e' x hx
      simp [(named_eq_some_iff.mp hx).1]
    · simp [edgeIdAt, he]
    · simp only [decide_not]
    · intro e' x _ hx
      exact hx

/-- One operation. -/
theorem Keeps.agree_run (h : s.Keeps g) (hg : Graph.WellFormed g) (op : GraphOperation) :
    Agree (s.run op) (op.run g) := by
  cases op with
  | add n => exact h.agree_add hg n
  | remove id => exact h.agree_remove hg id
  | modifyBlock id f => exact h.agree_modifyBlock hg id f
  | setSequenceIndex id q => exact h.agree_setSequenceIndex hg id q
  | makeRoom f start => exact .ok (h.makeRoom hg f start)
  | setLabel id label => exact h.agree_modifyNode hg id fun _ => rfl
  | setPosition id position => exact h.agree_modifyNode hg id fun _ => rfl
  | addEdge e => exact h.agree_addEdge hg e
  | removeEdge id => exact h.agree_removeEdge hg id

theorem Keeps.edgesAt_eq (h : s.Keeps g) {side : FlowEdge → Nat} {side' : Edge → NodeId}
    (hside : ∀ e x, s.named e = some x → s.idAt (side e) = some (side' x)) (id : NodeId) :
    s.edgesAt side id = g.edges.filter (side' · = id) := by
  unfold edgesAt
  cases hi : s.slot? id with
  | none =>
    -- a connection at no slot would be at a node that the index does not know
    have hnone := h.nodes.indexes.lookup_eq_none_iff.mp hi
    symm
    rw [List.filter_eq_nil_iff]
    intro x hx hid
    obtain ⟨e, -, hex⟩ := h.edges.exists_entry hx
    exact hnone (side e) ((hside e x hex).trans (congrArg some (of_decide_eq_true hid)))
  | some i =>
    have hi := (h.nodes.indexes id i).mp hi
    apply h.edges.filterMap_named_oldestFirst
    intro e x hex
    have hex := hside e x hex
    rw [decide_eq_true_eq, decide_eq_true_eq]
    constructor
    · intro he
      rw [he, hi] at hex
      exact (Option.some.inj hex).symm
    · intro hx
      exact h.nodes.indexes.inj (hex.trans (congrArg some hx)) hi

def view (s : IndexedGraph) : Graph.View where
  nodes := s.nodes.entries
  node? := s.node?
  family f := (s.familySlots f).map s.nodes.get?
  edges := s.edgeList
  edge? := s.edge?
  outgoing := s.outgoing
  incoming := s.incoming

theorem Keeps.map_get?_familySlots (h : s.Keeps g) (hg : Graph.WellFormed g) (f : Family) :
    (s.familySlots f).map s.nodes.get? = (g.family f).map g.node? := by
  have hfamily := congrArg (List.map (·.bind g.node?)) (h.families f)
  rw [List.map_map, List.map_map] at hfamily
  rw [List.map_congr_left fun i _ => h.nodes.get?_eq hg.ids_nodup i]
  exact hfamily

/-- Nothing is seen of slots, indices and numbers. -/
theorem Keeps.view_eq (h : s.Keeps g) (hg : Graph.WellFormed g) : s.view = g.view := by
  have hnodes : s.nodes.entries = g.nodes := congrArg Arena.entries h.nodes.nodes_eq
  have hnode? : s.node? = g.node? := funext (h.nodes.node?_eq hg.ids_nodup)
  have hfamily := funext (h.map_get?_familySlots hg)
  have hedge? : s.edge? = g.edge? := funext (h.edges.edge?_eq hg.edges_nodup)
  have hout : s.outgoing = g.outgoing :=
    funext (h.edgesAt_eq fun _ _ hx => (named_eq_some_iff.mp hx).2.1)
  have hin : s.incoming = g.incoming :=
    funext (h.edgesAt_eq fun _ _ hx => (named_eq_some_iff.mp hx).2.2)
  unfold view Graph.view
  rw [hnodes, hnode?, hfamily, h.edges.edgeList_eq, hedge?, hout, hin]

/-- The operations that succeed when all are made in turn. -/
def accepted (s : IndexedGraph) : List GraphOperation → List GraphOperation
  | [] => []
  | op :: ops =>
    match s.run op with
    | .ok t => op :: t.accepted ops
    | .error _ => s.accepted ops

theorem Keeps.foldl_apply (h : s.Keeps g) (hg : Graph.WellFormed g) (ops : List GraphOperation) :
    s.accepted ops = g.accepted ops ∧
      (ops.foldl IndexedGraph.apply s).Keeps (ops.foldl GraphOperation.apply g) := by
  induction ops generalizing s g with
  | nil => exact ⟨rfl, h⟩
  | cons op ops ih =>
    have hagree := h.agree_run hg op
    rw [List.foldl_cons, List.foldl_cons]
    generalize hs : s.run op = r, hr : op.run g = r' at hagree
    cases hagree with
    | @ok t k hk =>
      obtain ⟨hhistory, hlast⟩ := ih hk (Graph.wellFormed_run hg hr)
      rw [Graph.apply_of_ok hr, Graph.accepted_cons_of_ok hr]
      simp only [IndexedGraph.apply, accepted, hs]
      exact ⟨congrArg (op :: ·) hhistory, hlast⟩
    | error err =>
      rw [Graph.apply_of_error hr, Graph.accepted_cons_of_error hr]
      simp only [IndexedGraph.apply, accepted, hs]
      exact ih h hg

/--
After any operations on the empty graph, the slots, indices, families and numbers show the nodes
that were added and not removed since, and the connections that were added and not taken out since,
in the order in which they were added.
-/
theorem shows_remaining (ops : List GraphOperation) :
    let history := empty.accepted ops
    (ops.foldl IndexedGraph.apply empty).view = (ops.foldl GraphOperation.apply Graph.empty).view ∧
      (ops.foldl IndexedGraph.apply empty).view.Shows
        (remainingNodes history) (remainingEdges history) := by
  have hg : Graph.WellFormed (ops.foldl GraphOperation.apply Graph.empty) :=
    Graph.Reachable.wellFormed ⟨ops, rfl⟩
  obtain ⟨hhistory, hkeeps⟩ := keeps_empty.foldl_apply Graph.wellFormed_empty ops
  have hview := hkeeps.view_eq hg
  refine ⟨hview, ?_⟩
  rw [hview, hhistory]
  exact Graph.view_shows ops

end IndexedGraph

end LayerGraph
