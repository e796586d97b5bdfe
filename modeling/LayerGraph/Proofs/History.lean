import LayerGraph.Proofs.WellFormed

namespace LayerGraph

namespace GraphOperation

def newNode? : GraphOperation → Option Node
  | add n => some n
  | _ => none

def newEdge? : GraphOperation → Option Edge
  | addEdge e => some e
  | _ => none

/-- What becomes of a node that is in the graph. -/
def onNode (n : Node) : GraphOperation → Option Node
  | remove id => if n.id = id then none else some n
  | modifyBlock id f =>
    if n.id = id then
      match f n.block with
      | .ok block => some { n with block }
      | .error _ => some n
    else some n
  | setSequenceIndex id i => some (if n.id = id then { n with sequenceIndex := i } else n)
  | makeRoom f start => some (Graph.raised f start n)
  | setLabel id label => some (if n.id = id then { n with label } else n)
  | setPosition id position => some (if n.id = id then { n with position } else n)
  | add _ | addEdge _ | removeEdge _ => some n

/-- Whether a connection that is in the graph is taken out. -/
def severs (e : Edge) : GraphOperation → Bool
  | remove id => e.source = id ∨ e.target = id
  | removeEdge id => e.id = id
  | _ => false

/-- A node keeps its block, unless this is what the operation changes. -/
theorem block_of_onNode {op : GraphOperation} {m n : Node} (hm : op.onNode n = some m) :
    m.block = n.block ∨ ∃ id f, op = modifyBlock id f ∧ f n.block = .ok m.block := by
  cases op with
  | modifyBlock id f =>
    simp only [onNode] at hm
    split at hm
    · split at hm
      · rename_i hb
        obtain rfl := Option.some.inj hm
        exact .inr ⟨id, f, rfl, hb⟩
      · exact .inl (congrArg Node.block (Option.some.inj hm)).symm
    · exact .inl (congrArg Node.block (Option.some.inj hm)).symm
  | remove id =>
    obtain ⟨-, hm⟩ := Option.ite_none_left_eq_some.mp hm
    exact .inl (congrArg Node.block (Option.some.inj hm)).symm
  | makeRoom f start =>
    obtain rfl := Option.some.inj hm
    left
    unfold Graph.raised
    split <;> rfl
  | _ =>
    obtain rfl := Option.some.inj hm
    left
    first | rfl | (split <;> rfl)

end GraphOperation

/-- The nodes that were added and not removed since, as the later operations left them. -/
def remainingNodes : List GraphOperation → List Node
  | [] => []
  | op :: ops =>
    (op.newNode?.bind (ops.foldlM GraphOperation.onNode ·)).toList ++ remainingNodes ops

/-- The connections that were added and not taken out since, oldest first. -/
def remainingEdges : List GraphOperation → List Edge
  | [] => []
  | op :: ops =>
    (op.newEdge?.filter fun e => !ops.any (·.severs e)).toList ++ remainingEdges ops

/-- What is seen of a graph. -/
structure Graph.View where
  nodes : List Node
  node? : NodeId → Option Node
  /-- What is at each place of a family. -/
  family : Family → List (Option Node)
  edges : List Edge
  edge? : EdgeId → Option Edge
  outgoing : NodeId → List Edge
  incoming : NodeId → List Edge

/-- In every way, these nodes and connections are seen and no others. -/
structure Graph.View.Shows (v : Graph.View) (nodes : List Node) (edges : List Edge) : Prop where
  ids_nodup : (nodes.map (·.id)).Nodup
  edge_ids_nodup : (edges.map (·.id)).Nodup
  edge_ends : ∀ e ∈ edges, e.source ≠ e.target ∧
    (∃ n ∈ nodes, n.id = e.source) ∧ ∃ n ∈ nodes, n.id = e.target
  nodes_perm : v.nodes.Perm nodes
  node? : ∀ id n, v.node? id = some n ↔ n ∈ nodes ∧ n.id = id
  family : ∀ f, ∃ ms : List Node, v.family f = ms.map some ∧
    ms.Perm (nodes.filter (·.family? = some f)) ∧
    ms.Pairwise (·.sequenceIndex ≤ ·.sequenceIndex)
  edges_eq : v.edges = edges
  edge? : ∀ id e, v.edge? id = some e ↔ e ∈ edges ∧ e.id = id
  outgoing_eq : ∀ id, v.outgoing id = edges.filter (·.source = id)
  incoming_eq : ∀ id, v.incoming id = edges.filter (·.target = id)

namespace Graph

variable {g h : Graph} {id : NodeId} {n : Node} {op : GraphOperation}

/-- The operations that succeed when all are made in turn. -/
def accepted (g : Graph) : List GraphOperation → List GraphOperation
  | [] => []
  | op :: ops =>
    match op.run g with
    | .ok h => op :: h.accepted ops
    | .error _ => g.accepted ops

theorem accepted_cons_of_ok (hr : op.run g = .ok h) (ops : List GraphOperation) :
    g.accepted (op :: ops) = op :: h.accepted ops := by
  simp only [accepted, hr]

theorem accepted_cons_of_error {err : GraphError} (hr : op.run g = .error err)
    (ops : List GraphOperation) : g.accepted (op :: ops) = g.accepted ops := by
  simp only [accepted, hr]

theorem apply_of_ok (hr : op.run g = .ok h) : op.apply g = h := by
  simp only [GraphOperation.apply, hr]

theorem apply_of_error {err : GraphError} (hr : op.run g = .error err) : op.apply g = g := by
  simp only [GraphOperation.apply, hr]

theorem nodes_mapNode (g : Graph) (id : NodeId) (f : Node → Node) :
    (g.mapNode id f).nodes = g.nodes.map fun n => if n.id = id then f n else n := by
  rw [mapNode_eq_mapNodes, nodes_mapNodes]

/-- A change of the one node with an id, as a change of all nodes. -/
theorem nodes_mapNode_eq_filterMap (hg : WellFormed g) (hn : g.node? id = some n) {f : Node → Node}
    {k : Node → Option Node} (hid : k n = some (f n)) (hk : ∀ m, m.id ≠ id → k m = some m) :
    (g.mapNode id f).nodes = g.nodes.filterMap k := by
  rw [nodes_mapNode, ← List.filterMap_eq_map]
  apply List.filterMap_congr
  intro m hm
  by_cases hmi : m.id = id
  · obtain rfl := eq_of_node? hg.ids_nodup hn hm hmi
    simp only [Function.comp_apply, if_pos hmi, hid]
  · simp only [Function.comp_apply, if_neg hmi, hk m hmi]

theorem nodes_run_perm (hg : WellFormed g) (hr : op.run g = .ok h) :
    h.nodes.Perm (g.nodes.filterMap (fun n => op.onNode n) ++ op.newNode?.toList) := by
  -- but for a node that is added, the nodes stay where they are
  have hkept : h.nodes = g.nodes.filterMap (fun n => op.onNode n) → op.newNode? = none →
      h.nodes.Perm (g.nodes.filterMap (fun n => op.onNode n) ++ op.newNode?.toList) := by
    intro hh hop
    rw [hop, hh]
    simp
  cases op with
  | add n =>
    refine (nodes_add_perm hg hr).trans ?_
    simpa [GraphOperation.onNode, GraphOperation.newNode?] using
      (List.perm_append_singleton n g.nodes).symm
  | remove id =>
    obtain ⟨n, -, rfl⟩ := run_remove_eq_ok_iff.mp hr
    refine hkept ?_ rfl
    rw [nodes_without, ← List.filterMap_eq_filter]
    apply List.filterMap_congr
    intro m _
    by_cases hm : m.id = id <;> simp [GraphOperation.onNode, Option.guard, hm]
  | modifyBlock id f =>
    obtain ⟨n, b, hn, hb, rfl⟩ := modifyBlock_eq_ok_iff.mp hr
    refine hkept ?_ rfl
    rw [← nodes_mapNode_eq_filterMap hg hn (f := ({ · with block := b }))]
    · split
      · rfl
      · rw [nodes_file, nodes_unfile]
    · simp [GraphOperation.onNode, node?_id hn, hb]
    · intro m hm
      simp [GraphOperation.onNode, hm]
  | setSequenceIndex id i =>
    obtain ⟨n, hn, rfl⟩ := setSequenceIndex_eq_ok_iff.mp hr
    refine hkept ?_ rfl
    rw [← nodes_mapNode_eq_filterMap hg hn (f := ({ · with sequenceIndex := i }))]
    · split
      · rename_i hi
        rw [mapNode_eq_self]
        intro m hm hmi
        obtain rfl := eq_of_node? hg.ids_nodup hn hm hmi
        rw [← hi]
      · rw [nodes_file]
        rfl
    · simp [GraphOperation.onNode, node?_id hn]
    · intro m hm
      simp [GraphOperation.onNode, hm]
  | makeRoom f start =>
    obtain rfl : g.makeRoom f start = h := by simpa [GraphOperation.run] using hr
    refine hkept ?_ rfl
    rw [makeRoom_eq_mapNodes, nodes_mapNodes, ← List.filterMap_eq_map]
    rfl
  | setLabel id label =>
    obtain ⟨-, rfl⟩ := setLabel_eq_ok_iff.mp hr
    refine hkept ?_ rfl
    rw [nodes_mapNode, ← List.filterMap_eq_map]
    rfl
  | setPosition id position =>
    obtain ⟨-, rfl⟩ := setPosition_eq_ok_iff.mp hr
    refine hkept ?_ rfl
    rw [nodes_mapNode, ← List.filterMap_eq_map]
    rfl
  | addEdge e =>
    obtain ⟨-, -, -, -, rfl⟩ := addEdge_eq_ok_iff.mp hr
    exact hkept List.filterMap_some.symm rfl
  | removeEdge id =>
    obtain ⟨e, -, rfl⟩ := run_removeEdge_eq_ok_iff.mp hr
    exact hkept List.filterMap_some.symm rfl

theorem edges_run (hr : op.run g = .ok h) :
    h.edges = g.edges.filter (!op.severs ·) ++ op.newEdge?.toList := by
  cases op with
  | add n =>
    obtain ⟨-, rfl⟩ := add_eq_ok_iff.mp hr
    simp [edges_file, edges_place, GraphOperation.severs, GraphOperation.newEdge?]
  | remove id =>
    obtain ⟨n, -, rfl⟩ := run_remove_eq_ok_iff.mp hr
    simp [without, GraphOperation.severs, GraphOperation.newEdge?]
  | modifyBlock id f =>
    obtain ⟨n, b, -, -, rfl⟩ := modifyBlock_eq_ok_iff.mp hr
    split <;> simp [edges_file, unfile, mapNode, GraphOperation.severs, GraphOperation.newEdge?]
  | setSequenceIndex id i =>
    obtain ⟨n, -, rfl⟩ := setSequenceIndex_eq_ok_iff.mp hr
    split <;> simp [edges_file, unfile, mapNode, GraphOperation.severs, GraphOperation.newEdge?]
  | makeRoom f start =>
    obtain rfl : g.makeRoom f start = h := by simpa [GraphOperation.run] using hr
    simp [makeRoom, GraphOperation.severs, GraphOperation.newEdge?]
  | setLabel id label =>
    obtain ⟨-, rfl⟩ := setLabel_eq_ok_iff.mp hr
    simp [mapNode, GraphOperation.severs, GraphOperation.newEdge?]
  | setPosition id position =>
    obtain ⟨-, rfl⟩ := setPosition_eq_ok_iff.mp hr
    simp [mapNode, GraphOperation.severs, GraphOperation.newEdge?]
  | addEdge e =>
    obtain ⟨-, -, -, -, rfl⟩ := addEdge_eq_ok_iff.mp hr
    simp [GraphOperation.severs, GraphOperation.newEdge?]
  | removeEdge id =>
    obtain ⟨e, -, rfl⟩ := run_removeEdge_eq_ok_iff.mp hr
    simp [GraphOperation.severs, GraphOperation.newEdge?]

theorem edges_foldl_apply (g : Graph) (ops : List GraphOperation) :
    (ops.foldl GraphOperation.apply g).edges =
      g.edges.filter (fun e => !(g.accepted ops).any (·.severs e)) ++
        remainingEdges (g.accepted ops) := by
  induction ops generalizing g with
  | nil => simp [accepted, remainingEdges]
  | cons op ops ih =>
    rw [List.foldl_cons]
    cases hr : op.run g with
    | error err => rw [apply_of_error hr, accepted_cons_of_error hr, ih g]
    | ok h =>
      rw [apply_of_ok hr, accepted_cons_of_ok hr, ih h, edges_run hr, remainingEdges,
        List.filter_append, List.filter_filter, List.append_assoc]
      congr 1
      · apply List.filter_congr
        intro e _
        simp [Bool.and_comm]
      · rw [Option.toList_filter]

theorem nodes_foldl_apply_perm (hg : WellFormed g) (ops : List GraphOperation) :
    (ops.foldl GraphOperation.apply g).nodes.Perm
      (g.nodes.filterMap ((g.accepted ops).foldlM GraphOperation.onNode ·) ++
        remainingNodes (g.accepted ops)) := by
  induction ops generalizing g with
  | nil => simp [accepted, remainingNodes]
  | cons op ops ih =>
    rw [List.foldl_cons]
    cases hr : op.run g with
    | error err =>
      rw [apply_of_error hr, accepted_cons_of_error hr]
      exact ih hg
    | ok h =>
      have hlater := (nodes_run_perm hg hr).filterMap
        ((h.accepted ops).foldlM GraphOperation.onNode ·)
      rw [apply_of_ok hr, accepted_cons_of_ok hr]
      refine (ih (wellFormed_run hg hr)).trans ((hlater.append_right _).trans ?_)
      rw [List.filterMap_append, List.filterMap_filterMap, remainingNodes, List.append_assoc]
      apply List.Perm.of_eq
      congr 1
      cases op.newNode? with
      | none => rfl
      | some n => cases hn : (h.accepted ops).foldlM GraphOperation.onNode n <;> simp [hn]

theorem edge?_eq_some_iff (hg : (g.edges.map (·.id)).Nodup) {id : EdgeId} {e : Edge} :
    g.edge? id = some e ↔ e ∈ g.edges ∧ e.id = id := by
  constructor
  · intro he
    exact ⟨List.mem_of_find?_eq_some he, by simpa using List.find?_some he⟩
  · rintro ⟨he, rfl⟩
    cases hx : g.edge? e.id with
    | none => exact absurd (List.mem_map_of_mem he) (edge?_eq_none_iff.mp hx)
    | some x =>
      have hxe : x.id = e.id := by simpa using List.find?_some hx
      rw [List.inj_on_of_nodup_map hg (List.mem_of_find?_eq_some hx) he hxe]

theorem members_perm (hg : WellFormed g) (f : Family) :
    (g.members f).Perm (g.nodes.filter (·.family? = some f)) := by
  rw [List.perm_ext_iff_of_nodup (hg.members_nodup f) ((List.Nodup.of_map _ hg.ids_nodup).filter _)]
  intro n
  simp [hg.mem_members]

theorem map_node?_family (hg : WellFormed g) (f : Family) :
    (g.family f).map g.node? = (g.members f).map some := by
  rw [← hg.map_id_members f, List.map_map]
  apply List.map_congr_left
  intro n hn
  exact (node?_eq_some_iff hg.ids_nodup).mpr ⟨(hg.mem_members.mp hn).1, rfl⟩

def view (g : Graph) : Graph.View where
  nodes := g.nodes
  node? := g.node?
  family f := (g.family f).map g.node?
  edges := g.edges
  edge? := g.edge?
  outgoing := g.outgoing
  incoming := g.incoming

theorem WellFormed.shows (hg : WellFormed g) {nodes : List Node} (hn : g.nodes.Perm nodes) :
    g.view.Shows nodes g.edges where
  ids_nodup := (hn.map _).nodup_iff.mp hg.ids_nodup
  edge_ids_nodup := hg.edges_nodup
  edge_ends e he := by
    obtain ⟨hne, hs, ht⟩ := hg.edge_ends e he
    simp only [contains_iff, hn.mem_iff] at hs ht
    exact ⟨hne, hs, ht⟩
  nodes_perm := hn
  node? id n := (node?_eq_some_iff hg.ids_nodup).trans (and_congr_left' hn.mem_iff)
  family f :=
    ⟨g.members f, map_node?_family hg f, (members_perm hg f).trans (hn.filter _), hg.sorted f⟩
  edges_eq := rfl
  edge? _ _ := edge?_eq_some_iff hg.edges_nodup
  outgoing_eq _ := rfl
  incoming_eq _ := rfl

/--
After any operations on the empty graph, it shows the nodes that were added and not removed since,
and the connections that were added and not taken out since, in the order in which they were added.
-/
theorem view_shows (ops : List GraphOperation) :
    (ops.foldl GraphOperation.apply Graph.empty).view.Shows
      (remainingNodes (Graph.empty.accepted ops)) (remainingEdges (Graph.empty.accepted ops)) := by
  have hg : WellFormed (ops.foldl GraphOperation.apply Graph.empty) :=
    Reachable.wellFormed ⟨ops, rfl⟩
  have hshows := hg.shows (nodes_foldl_apply_perm wellFormed_empty ops)
  rw [edges_foldl_apply Graph.empty ops] at hshows
  exact hshows

end Graph

end LayerGraph
