import LayerGraph.Proofs.WellFormed
import LayerGraph.Walk

namespace LayerGraph

/-- The node but for its place on the canvas. -/
def Node.unplaced (n : Node) : Node := { n with position := none }

section Unplaced

variable {n m : Node}

theorem Node.id_of_unplaced (h : m.unplaced = n.unplaced) : m.id = n.id :=
  show m.unplaced.id = n.unplaced.id from congrArg (·.id) h

theorem Node.block_of_unplaced (h : m.unplaced = n.unplaced) : m.block = n.block :=
  show m.unplaced.block = n.unplaced.block from congrArg (·.block) h

end Unplaced

namespace Graph

/-- The blocks are the same up to their places, and the connections in their order. -/
structure SameContent (g h : Graph) : Prop where
  nodes : (g.nodes.map Node.unplaced).Perm (h.nodes.map Node.unplaced)
  edges : g.edges = h.edges

namespace SameContent

variable {g h : Graph} {n : Node} {a id start : NodeId}

theorem symm (s : SameContent g h) : SameContent h g := ⟨s.nodes.symm, s.edges.symm⟩

theorem exists_unplaced (s : SameContent g h) (hn : n ∈ g.nodes) :
    ∃ m ∈ h.nodes, m.unplaced = n.unplaced :=
  List.mem_map.mp (s.nodes.subset (List.mem_map_of_mem hn))

theorem ids_perm (s : SameContent g h) : g.ids.Perm h.ids := by
  have hids := s.nodes.map (·.id)
  simpa [ids, Function.comp_def, Node.unplaced] using hids

theorem successors_eq (s : SameContent g h) : g.successors = h.successors := by
  funext id
  rw [successors, outgoing, s.edges]
  rfl

theorem map_node? (s : SameContent g h) (hg : WellFormed g) (hh : WellFormed h) (id : NodeId) :
    (g.node? id).map Node.unplaced = (h.node? id).map Node.unplaced := by
  -- what one graph has under an id the other has too
  have hsome : ∀ {g h : Graph}, SameContent g h → WellFormed g → WellFormed h → ∀ n,
      g.node? id = some n → (h.node? id).map Node.unplaced = some n.unplaced := by
    intro g h s hg hh n hn
    obtain ⟨hmem, hid⟩ := (node?_eq_some_iff hg.ids_nodup).mp hn
    obtain ⟨m, hm, hmn⟩ := s.exists_unplaced hmem
    rw [(node?_eq_some_iff hh.ids_nodup).mpr ⟨hm, (Node.id_of_unplaced hmn).trans hid⟩]
    exact congrArg some hmn
  cases hn : g.node? id with
  | some n => exact (hsome s hg hh n hn).symm
  | none =>
    cases hm : h.node? id with
    | none => rfl
    | some m => simpa [hn] using hsome s.symm hh hg m hm

theorem isPlaceholder_eq (s : SameContent g h) (hg : WellFormed g) (hh : WellFormed h) :
    g.isPlaceholder = h.isPlaceholder := by
  have hdef : ∀ (g : Graph) id, g.isPlaceholder id =
      ((g.node? id).map Node.unplaced).elim true Node.isPlaceholder := by
    intro g id
    unfold isPlaceholder
    cases g.node? id <;> rfl
  funext id
  rw [hdef, hdef, s.map_node? hg hh]

/-- What the first block that has something to say on a matter says, when no two disagree. -/
theorem findSome?_eq {α : Type} (s : SameContent g h) {f : Node → Option α}
    (hf : ∀ n, f n.unplaced = f n)
    (hagree : ∀ n ∈ g.nodes, ∀ m ∈ g.nodes, ∀ a b, f n = some a → f m = some b → a = b) :
    g.nodes.findSome? f = h.nodes.findSome? f := by
  have hsame : ∀ {n m : Node}, m.unplaced = n.unplaced → f m = f n := by
    intro n m hmn
    rw [← hf m, hmn, hf]
  cases hm : h.nodes.findSome? f with
  | none =>
    rw [List.findSome?_eq_none_iff] at hm ⊢
    intro n hn
    obtain ⟨m, hmem, hmn⟩ := s.exists_unplaced hn
    rw [← hsame hmn, hm m hmem]
  | some b =>
    obtain ⟨m, hmem, hb⟩ := List.exists_of_findSome?_eq_some hm
    obtain ⟨n, hn, hnm⟩ := s.symm.exists_unplaced hmem
    rw [← hsame hnm] at hb
    cases ha : g.nodes.findSome? f with
    | none => rw [List.findSome?_eq_none_iff.mp ha n hn] at hb; cases hb
    | some a =>
      obtain ⟨k, hk, hfk⟩ := List.exists_of_findSome?_eq_some ha
      rw [hagree k hk n hn a b hfk hb]

end SameContent

end Graph

end LayerGraph
