import LayerGraph.Proofs.BlockText
import LayerGraph.Proofs.Rebuilt

namespace LayerGraph

/-- The text of the value is read as the value. -/
def Json.Survives (j : Json) : Prop := Decoder.ofText Document.json j.text = .ok j

instance Json.decidableSurvives (j : Json) : Decidable j.Survives :=
  inferInstanceAs (Decidable (Decoder.ofText Document.json j.text = .ok j))

namespace Block

/-- The type string names the kind; that of a placeholder names none. -/
def HasOwnKindName (b : Block) : Prop := Kind.ofName? b.kindName = b.kind?

instance (b : Block) : Decidable b.HasOwnKindName :=
  inferInstanceAs (Decidable (Kind.ofName? b.kindName = b.kind?))

theorem storable_of_survives {b : Block} (hkind : b.HasOwnKindName) (hdata : b.data.Survives) :
    b.Storable := by
  cases b with
  | unknown kind data => exact ⟨hkind, Decoder.fits_of_ofText hdata⟩
  | _ => trivial

end Block

/-- A node is read from its row just when its type string and the text of its data keep it. -/
theorem StoredBlock.toNode_ofNode_iff {n : Node} :
    (ofNode n).toNode = .ok n ↔ n.block.HasOwnKindName ∧ n.block.data.Survives := by
  constructor
  · intro h
    have hn := storable_of_toNode h
    obtain ⟨data, hdata, hraw, -⟩ := toNode_eq_ok_iff.mp h
    refine ⟨hn.ofName?_kindName, ?_⟩
    exact (Decoder.ofText_json_text_iff hn.data_fits).mpr
      ((Block.ofText_data_iff hn).mp ⟨data, hdata, hraw⟩)
  · rintro ⟨hkind, hdata⟩
    have hn := Block.storable_of_survives hkind hdata
    exact toNode_eq_ok_iff.mpr ⟨n.block.data, hdata, Block.ofRaw_toRaw hkind, rfl, rfl, rfl, rfl⟩

namespace Graph

variable {g : Graph} {rows : List StoredEdge}

theorem toGraph_of_perm (blocks : List StoredBlock) (hrows : rows.Perm g.toRows.edges) :
    GraphRows.toGraph ⟨blocks, rows⟩ = Graph.ofRows blocks g.edges := by
  have hordered := StoredEdge.ordered_numbered 0 g.edges
  have hsorted : StoredEdge.sorted rows = StoredEdge.sorted g.toRows.edges := by
    rw [StoredEdge.sorted_eq_of_perm hordered hrows, toRows, StoredEdge.sorted_eq_self hordered]
  have htoGraph := toGraph_eq_ofRows blocks hordered
  rw [StoredEdge.map_edge_numbered] at htoGraph
  unfold GraphRows.toGraph at htoGraph ⊢
  rwa [hsorted]

/-- The rows of a graph make its document again just when each block is read from its row. -/
theorem exists_toGraph_iff (hg : WellFormed g) (hrows : rows.Perm g.toRows.edges) :
    (∃ h, GraphRows.toGraph ⟨g.toRows.blocks, rows⟩ = .ok h ∧ h.toDocument = g.toDocument) ↔
      ∀ n ∈ g.nodes, n.block.HasOwnKindName ∧ n.block.data.Survives := by
  have hread : List.Forall₂ (fun row n => StoredBlock.toNode row = .ok n) g.toRows.blocks g.nodes ↔
      ∀ n ∈ g.nodes, n.block.HasOwnKindName ∧ n.block.data.Survives := by
    simp only [toRows, List.forall₂_map_left_iff, List.forall₂_same, StoredBlock.toNode_ofNode_iff]
  rw [toGraph_of_perm _ hrows, ← hread]
  constructor
  · rintro ⟨h, hh, hd⟩
    have hnodes : h.nodes = g.nodes := congrArg GraphDocument.nodes hd
    exact hnodes ▸ (of_ofRows_eq_ok hh).2.1
  · intro hblocks
    obtain ⟨h, hh, -, hd⟩ := exists_ofRows hg hblocks
    exact ⟨h, hh, hd⟩

/-- A placeholder that bears the type string of input blocks. -/
def namesake : List GraphOperation := [.add (.new ⟨"a"⟩ 0 (.unknown "inputBlock" (.object [])))]

/-- Nothing but the type string is kept of which kind a block has, so the rows of a graph may make
no graph at all though all data survive. -/
theorem toGraph_eq_error_namesake :
    let g := namesake.foldl GraphOperation.apply Graph.empty
    Reachable g ∧ (∀ n ∈ g.nodes, n.block.data.Survives) ∧
      GraphRows.toGraph ⟨g.toRows.blocks, g.toRows.edges⟩ =
        .error (.reconstruction (.block ⟨"a"⟩ (.malformedBlock "inputBlock"))) := by
  intro g
  exact ⟨⟨namesake, rfl⟩, by decide +kernel, rfl⟩

/--
The rows of a graph that was built in any way, those of the connections shuffled, make a graph with
the same document, successors, linearization and revisions. Type strings of placeholders name no
kind, and the data of the blocks survive being printed and read.
-/
theorem exists_toGraph_of_perm (hg : Reachable g) (hkind : ∀ n ∈ g.nodes, n.block.HasOwnKindName)
    (hdata : ∀ n ∈ g.nodes, n.block.data.Survives) (hrows : rows.Perm g.toRows.edges) :
    ∃ h, GraphRows.toGraph ⟨g.toRows.blocks, rows⟩ = .ok h ∧ h.toDocument = g.toDocument ∧
      (∀ id, h.successors id = g.successors id) ∧ h.linearize = g.linearize ∧
      ∀ t, h.revision t = g.revision t := by
  obtain ⟨h, hh, hd⟩ := (exists_toGraph_iff hg.wellFormed hrows).mpr
    fun n hn => ⟨hkind n hn, hdata n hn⟩
  refine ⟨h, hh, hd, ?_, linearize_of_toDocument_eq hd, revision_of_toDocument_eq hd⟩
  intro id
  rw [successors_of_toDocument_eq hd]

/-- A placeholder takes the slot of a removed block; connections were drawn out of order. -/
def reusedSlot : List GraphOperation :=
  [.add (.new ⟨"old"⟩ 0 .start), .add (.new ⟨"a"⟩ 0 (.hidden ⟨4, 4, .relu⟩)),
   .add (.new ⟨"b"⟩ 0 (.output ⟨4, 2⟩)), .add (.new ⟨"settings"⟩ 0 (.training {})),
   .remove ⟨"old"⟩,
   .add (.new ⟨"note"⟩ 0 (.unknown "codeBlock"
     (.object [("source", .string "print(1)"), ("rate", .float 0.5), ("list", .array [.null])]))),
   .addEdge ⟨⟨"z"⟩, ⟨"note"⟩, ⟨"b"⟩⟩, .addEdge ⟨⟨"y"⟩, ⟨"a"⟩, ⟨"note"⟩⟩,
   .removeEdge ⟨"z"⟩, .addEdge ⟨⟨"x"⟩, ⟨"a"⟩, ⟨"b"⟩⟩, .addEdge ⟨⟨"z"⟩, ⟨"note"⟩, ⟨"b"⟩⟩]

theorem exists_toGraph_of_perm_reusedSlot :
    let g := reusedSlot.foldl GraphOperation.apply Graph.empty
    Reachable g ∧ (∀ n ∈ g.nodes, n.block.HasOwnKindName) ∧
      (∀ n ∈ g.nodes, n.block.data.Survives) ∧ g.toRows.edges.reverse.Perm g.toRows.edges ∧
      g.nodes.map (·.id) = [⟨"note"⟩, ⟨"a"⟩, ⟨"b"⟩, ⟨"settings"⟩] ∧
      g.successors ⟨"a"⟩ = [⟨"note"⟩, ⟨"b"⟩] ∧
      ∃ h, GraphRows.toGraph ⟨g.toRows.blocks, g.toRows.edges.reverse⟩ = .ok h ∧
        h.toDocument = g.toDocument ∧ h.successors ⟨"a"⟩ = g.successors ⟨"a"⟩ ∧
        h.linearize = g.linearize ∧ h.revision {} = g.revision {} := by
  intro g
  have hg : Reachable g := ⟨reusedSlot, rfl⟩
  have hkind : ∀ n ∈ g.nodes, n.block.HasOwnKindName := by decide +kernel
  have hdata : ∀ n ∈ g.nodes, n.block.data.Survives := by decide +kernel
  have hrows : g.toRows.edges.reverse.Perm g.toRows.edges := List.reverse_perm _
  refine ⟨hg, hkind, hdata, hrows, by decide, by decide, ?_⟩
  obtain ⟨h, hh, hd, hnext, hlinear, hrevision⟩ := exists_toGraph_of_perm hg hkind hdata hrows
  exact ⟨h, hh, hd, hnext _, hlinear, hrevision _⟩

end Graph

end LayerGraph
