import LayerGraph.Proofs.Identified
import LayerGraph.Proofs.IndexedGraphs
import LayerGraph.Proofs.Rebuilt

namespace LayerGraph

/-- The revision of a graph as it is kept. -/
def IndexedGraph.revision (s : IndexedGraph) (t : Training) : String :=
  let sorted := s.nodes.entries.mergeSort fun m n => m.id.text ≤ n.id.text
  hexText (Blake3.hash (sorted.flatMap (Blake3.hash ·.content) ++ s.edgeList.flatMap (·.content) ++
    textBytes t.toJson.text))

namespace Graph

variable {g h k : Graph} {e : Edge} {t : Training}

namespace SameContent

theorem refl (g : Graph) : SameContent g g := ⟨List.Perm.refl _, rfl⟩

theorem trans (s : SameContent g h) (r : SameContent h k) : SameContent g k :=
  ⟨s.nodes.trans r.nodes, s.edges.trans r.edges⟩

theorem of_toDocument_eq (hd : h.toDocument = g.toDocument) : SameContent g h := by
  obtain ⟨hnodes, hedges⟩ := GraphDocument.mk.inj hd
  exact ⟨hnodes ▸ List.Perm.refl _, hedges.symm⟩

theorem mapNodes {f : Node → Node} (hf : ∀ n, (f n).unplaced = n.unplaced) :
    SameContent g (g.mapNodes f) where
  nodes := by
    have hf : Node.unplaced ∘ f = Node.unplaced := funext hf
    rw [nodes_mapNodes, List.map_map, hf]
  edges := rfl

theorem setPosition {id : NodeId} {position : Option Position}
    (hs : g.setPosition id position = .ok h) : SameContent g h := by
  obtain ⟨-, rfl⟩ := setPosition_eq_ok_iff.mp hs
  rw [mapNode_eq_mapNodes]
  apply mapNodes
  intro n
  split <;> rfl

theorem apply_setPosition (g : Graph) (id : NodeId) (position : Option Position) :
    SameContent g ((GraphOperation.setPosition id position).apply g) := by
  cases hr : (GraphOperation.setPosition id position).run g with
  | ok h =>
    rw [apply_of_ok hr]
    exact setPosition hr
  | error err =>
    rw [apply_of_error hr]
    exact refl g

end SameContent

/-- Moves blocks on the canvas, one after the other. -/
def moveAll (g : Graph) (moves : List (NodeId × Option Position)) : Graph :=
  (moves.map fun (id, position) => GraphOperation.setPosition id position).foldl
    GraphOperation.apply g

theorem sameContent_moveAll (g : Graph) (moves : List (NodeId × Option Position)) :
    SameContent g (g.moveAll moves) := by
  induction moves generalizing g with
  | nil => exact .refl g
  | cons move moves ih => exact (SameContent.apply_setPosition g _ _).trans (ih _)

/-- A new connection that is taken out again leaves no trace. -/
theorem removeEdge_of_addEdge (ha : g.addEdge e = .ok h) : h.removeEdge e.id = .ok (e, g) := by
  obtain ⟨hnew, -, -, -, rfl⟩ := addEdge_eq_ok_iff.mp ha
  have hne : ∀ x ∈ g.edges, x.id ≠ e.id := by
    intro x hx he
    exact edge?_eq_none_iff.mp hnew (List.mem_map.mpr ⟨x, hx, he⟩)
  refine removeEdge_eq_ok_iff.mpr ⟨?_, ?_⟩
  · unfold edge? at hnew ⊢
    rw [List.find?_append, hnew]
    simp
  · have hkeep : (g.edges ++ [e]).filter (·.id ≠ e.id) = g.edges := by
      rw [List.filter_append, List.filter_eq_self.mpr fun x hx => decide_eq_true (hne x hx)]
      simp
    rw [hkeep]

end Graph

theorem IndexedGraph.Keeps.revision_eq {s : IndexedGraph} {g : Graph} (h : s.Keeps g)
    (t : Training) : s.revision t = g.revision t := by
  have hnodes : s.nodes.entries = g.nodes := congrArg Arena.entries h.nodes.nodes_eq
  unfold IndexedGraph.revision
  rw [hnodes, h.edges.edgeList_eq]
  rfl

namespace Graph

/--
The revision does not tell apart histories that end with the same blocks, wherever these are, and
the same connections in the same order. So it stays as it is when blocks are moved on the canvas,
when the graph is built again from its document, and when a connection is made and taken out; and
it is the revision of the graph as it is kept, in slots and with numbers.
-/
theorem revision_eq_of_sameContent {g : Graph} (hg : g.Reachable) (t : Training) :
    (∀ h : Graph, h.Reachable → SameContent g h → h.revision t = g.revision t) ∧
    (∀ moves, (g.moveAll moves).revision t = g.revision t) ∧
    (∃ h, ofDocument g.toDocument = .ok h ∧ h.revision t = g.revision t) ∧
    (∀ e h, g.addEdge e = .ok h →
      ∃ k, h.removeEdge e.id = .ok (e, k) ∧ k.revision t = g.revision t) ∧
    ∀ ops : List GraphOperation, ops.foldl GraphOperation.apply empty = g →
      (ops.foldl IndexedGraph.apply .empty).revision t = g.revision t := by
  have hw := hg.wellFormed
  have hends := hw.edge_ends
  simp only [contains_iff] at hends
  refine ⟨?_, ?_, ?_, ?_, ?_⟩
  · intro h _ s
    exact s.symm.revision_eq hw t
  · intro moves
    exact (sameContent_moveAll g moves).symm.revision_eq hw t
  · obtain ⟨h, hh, -, hd⟩ : ∃ h, ofDocument g.toDocument = .ok h ∧ Compact h ∧
        h.toDocument = g.toDocument :=
      exists_ofDocument hw.ids_nodup hw.edges_nodup hends
    exact ⟨h, hh, (SameContent.of_toDocument_eq hd).symm.revision_eq hw t⟩
  · intro e h ha
    exact ⟨g, removeEdge_of_addEdge ha, rfl⟩
  · rintro ops rfl
    obtain ⟨-, hkeeps⟩ := IndexedGraph.keeps_empty.foldl_apply wellFormed_empty ops
    exact hkeeps.revision_eq t

/-- Two blocks and their connection. -/
def sketched : List GraphOperation :=
  [.add (.new ⟨"a"⟩ 0 .start), .add (.new ⟨"b"⟩ 0 (.input ⟨4, 4⟩)),
   .addEdge ⟨⟨"1"⟩, ⟨"a"⟩, ⟨"b"⟩⟩]

/-- The slots are taken the other way round, one block is moved, and the connection, which is not
the first to be made, has another number. -/
def sketchedAgain : List GraphOperation :=
  [.add (.new ⟨"b"⟩ 0 (.input ⟨4, 4⟩)), .add (.new ⟨"c"⟩ 0 .start),
   .addEdge ⟨⟨"0"⟩, ⟨"c"⟩, ⟨"b"⟩⟩, .remove ⟨"c"⟩, .add (.new ⟨"a"⟩ 0 .start),
   .setPosition ⟨"a"⟩ (some ⟨40, 10⟩), .addEdge ⟨⟨"1"⟩, ⟨"a"⟩, ⟨"b"⟩⟩]

theorem revision_eq_of_sameContent_sketched :
    let g := sketched.foldl GraphOperation.apply empty
    let h := sketchedAgain.foldl GraphOperation.apply empty
    let e : Edge := ⟨⟨"2"⟩, ⟨"b"⟩, ⟨"a"⟩⟩
    g.Reachable ∧ h.Reachable ∧ SameContent g h ∧ g.nodes ≠ h.nodes ∧
    (g.addEdge e).isOk = true ∧ ∀ t, h.revision t = g.revision t := by
  intro g h e
  have hg : g.Reachable := ⟨sketched, rfl⟩
  have hh : h.Reachable := ⟨sketchedAgain, rfl⟩
  have s : SameContent g h := ⟨by decide +kernel, by decide +kernel⟩
  refine ⟨hg, hh, s, by decide +kernel, by decide +kernel, ?_⟩
  intro t
  exact (revision_eq_of_sameContent hg t).1 h hh s

end Graph

end LayerGraph
