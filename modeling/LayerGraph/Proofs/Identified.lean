import LayerGraph.Proofs.ContentBytes
import LayerGraph.Proofs.WellFormed

namespace LayerGraph

namespace Graph

variable {g h : Graph} {t u : Training}

/-- What is hashed behind the digests of the blocks. -/
def tail (g : Graph) (t : Training) : List UInt8 :=
  g.edges.flatMap (·.content) ++ textBytes t.toJson.text

theorem content_eq (digest : List UInt8 → List UInt8) (g : Graph) (t : Training) :
    g.content digest t = (g.sortedNodes.map (digest ·.content)).flatten ++ g.tail t := by
  rw [content, tail, List.append_assoc, List.flatMap_def]

theorem sortedNodes_perm (g : Graph) : g.sortedNodes.Perm g.nodes := List.mergeSort_perm _ _

theorem sortedNodes_of_pairwise (hg : g.nodes.Pairwise fun n m => n.id.text ≤ m.id.text) :
    g.sortedNodes = g.nodes :=
  List.mergeSort_of_pairwise (hg.imp fun hnm => by simpa using hnm)

/-- The parts of the blocks and the connections can be made out. -/
structure Delimited (g : Graph) : Prop where
  nodes : ∀ n ∈ g.nodes, n.Delimited
  edge_ids : ∀ e ∈ g.edges, '\x00' ∉ e.id.text.toList
  edge_targets : ∀ e ∈ g.edges, '\x01' ∉ e.target.text.toList

/-- Connections start at blocks, whose ids are made out. -/
theorem Delimited.edge (hg : WellFormed g) (hd : g.Delimited) {e : Edge} (he : e ∈ g.edges) :
    e.Delimited where
  id := hd.edge_ids e he
  source := by
    obtain ⟨-, hsource, -⟩ := hg.edge_ends e he
    obtain ⟨n, hn, hid⟩ := contains_iff.mp hsource
    exact hid ▸ (hd.nodes n hn).id
  target := hd.edge_targets e he

/-- The hash function has no collision between a block of one graph and one of the other, nor
between the graphs as a whole. -/
structure CollisionFree (g : Graph) (t : Training) (h : Graph) (u : Training) : Prop where
  blocks : ∀ n ∈ g.nodes, ∀ m ∈ h.nodes,
    Blake3.hash n.content = Blake3.hash m.content → n.content = m.content
  whole : Blake3.hash (g.content Blake3.hash t) = Blake3.hash (h.content Blake3.hash u) →
    g.content Blake3.hash t = h.content Blake3.hash u

/-- The digests of the blocks end at one place: there are as many in both graphs, or none of one
graph is the beginning of what the other has behind its own. -/
def EndAlike (g : Graph) (t : Training) (h : Graph) (u : Training) : Prop :=
  g.nodes.length = h.nodes.length ∨
    (∀ n ∈ g.nodes, ¬ Blake3.hash n.content <+: h.tail u) ∧
    ∀ m ∈ h.nodes, ¬ Blake3.hash m.content <+: g.tail t

theorem sortedNodes_unplaced_eq (hg : g.Delimited) (hh : h.Delimited)
    (hblocks : ∀ n ∈ g.nodes, ∀ m ∈ h.nodes,
      Blake3.hash n.content = Blake3.hash m.content → n.content = m.content)
    (heq : g.sortedNodes.map (Blake3.hash ·.content) = h.sortedNodes.map (Blake3.hash ·.content)) :
    g.sortedNodes.map Node.unplaced = h.sortedNodes.map Node.unplaced := by
  apply map_eq_map_of_map_eq_map heq
  intro n hn m hm hnm
  have hn := (sortedNodes_perm g).subset hn
  have hm := (sortedNodes_perm h).subset hm
  exact Node.content_inj (hg.nodes n hn) (hh.nodes m hm) (hblocks n hn m hm hnm)

theorem sameContent_of_content_eq (hg : WellFormed g) (hh : WellFormed h) (dg : g.Delimited)
    (dh : h.Delimited) (ht : t.toJson.Finite) (hu : u.toJson.Finite) (hend : EndAlike g t h u)
    (hfree : CollisionFree g t h u)
    (heq : g.content Blake3.hash t = h.content Blake3.hash u) : SameContent g h ∧ t = u := by
  have hlen : ∀ (g : Graph), ∀ d ∈ g.sortedNodes.map (Blake3.hash ·.content), d.length = 32 := by
    intro g d hd
    obtain ⟨n, -, rfl⟩ := List.mem_map.mp hd
    exact length_hash _
  have hcut : (g.sortedNodes.map (Blake3.hash ·.content)).length =
        (h.sortedNodes.map (Blake3.hash ·.content)).length ∨
      (∀ d ∈ g.sortedNodes.map (Blake3.hash ·.content), ¬ d <+: h.tail u) ∧
      ∀ d ∈ h.sortedNodes.map (Blake3.hash ·.content), ¬ d <+: g.tail t := by
    simpa [EndAlike, (sortedNodes_perm g).length_eq, (sortedNodes_perm h).length_eq,
      (sortedNodes_perm g).mem_iff, (sortedNodes_perm h).mem_iff] using hend
  rw [content_eq, content_eq] at heq
  obtain ⟨hdigests, htail⟩ := flatten_append_inj (hlen g) (hlen h) heq hcut
  obtain ⟨hedges, htraining⟩ := edges_append_inj (fun e he => dg.edge hg he)
    (fun e he => dh.edge hh he) (nul_notMem_json _) (nul_notMem_json _) htail
  have hsorted := sortedNodes_unplaced_eq dg dh hfree.blocks hdigests
  refine ⟨⟨?_, hedges⟩, Training.text_inj ht hu (textBytes_inj htraining)⟩
  exact ((sortedNodes_perm g).map _).symm.trans (hsorted ▸ (sortedNodes_perm h).map _)

/-- The nodes come in the same order, but for their places. -/
theorem SameContent.sortedNodes_eq (s : SameContent g h) (hh : WellFormed h) :
    g.sortedNodes.map Node.unplaced = h.sortedNodes.map Node.unplaced := by
  have hsorted : ∀ g : Graph, (g.sortedNodes.map Node.unplaced).Pairwise
      fun n m => n.id.text ≤ m.id.text :=
    fun g => List.pairwise_map.mpr (pairwise_mergeSort_key (fun n : Node => n.id.text) g.nodes)
  have hperm : ∀ g : Graph, (g.sortedNodes.map Node.unplaced).Perm (g.nodes.map Node.unplaced) :=
    fun g => (sortedNodes_perm g).map _
  have hids : ((h.nodes.map Node.unplaced).map (·.id)).Nodup := by
    rw [List.map_map]
    exact hh.ids_nodup
  apply ((hperm g).trans (s.nodes.trans (hperm h).symm)).eq_of_pairwise ?_ (hsorted g) (hsorted h)
  intro n m hn hm hnm hmn
  have hid : n.id = m.id := congrArg NodeId.mk (le_antisymm hnm hmn)
  exact List.inj_on_of_nodup_map hids (((hperm g).trans s.nodes).subset hn)
    ((hperm h).subset hm) hid

theorem SameContent.revision_eq (s : SameContent g h) (hh : WellFormed h) (t : Training) :
    g.revision t = h.revision t := by
  have hblocks : ∀ g : Graph, g.sortedNodes.map (Blake3.hash ·.content) =
      (g.sortedNodes.map Node.unplaced).map (Blake3.hash ·.content) := by
    intro g
    rw [List.map_map]
    rfl
  have htail : g.tail t = h.tail t := by rw [tail, tail, s.edges]
  rw [revision, revision, revisionBy, revisionBy, content_eq, content_eq, hblocks g, hblocks h,
    s.sortedNodes_eq hh, htail]

/--
Graphs have the same revision just when they have the same blocks but for where these are, the same
connections in the same order, and the same training settings. The ids are free of the marks that
end them, type strings of placeholders name no kind, decimals are finite, the digests of the blocks
end at one place, and no inputs of the hash function collide.
-/
theorem revision_eq_iff {g h : Graph} {t u : Training} (hg : g.Reachable) (hh : h.Reachable)
    (dg : g.Delimited) (dh : h.Delimited) (ht : t.toJson.Finite) (hu : u.toJson.Finite)
    (hend : EndAlike g t h u) (hfree : CollisionFree g t h u) :
    g.revision t = h.revision u ↔ SameContent g h ∧ t = u := by
  constructor
  · intro heq
    exact sameContent_of_content_eq hg.wellFormed hh.wellFormed dg dh ht hu hend hfree
      (hfree.whole (hexText_inj heq))
  · rintro ⟨s, rfl⟩
    exact s.revision_eq hh.wellFormed t

/-- A start that leads to a placeholder. -/
def noted : List GraphOperation :=
  [.add (.new ⟨"a"⟩ 0 .start), .add (.new ⟨"b"⟩ 0 (.unknown "note" .null)),
   .addEdge ⟨⟨"e"⟩, ⟨"a"⟩, ⟨"b"⟩⟩]

def unconnected : List GraphOperation := noted ++ [.removeEdge ⟨"e"⟩]

/-- Without its connection a graph has another revision. -/
theorem revision_eq_iff_unconnected :
    let g := noted.foldl GraphOperation.apply Graph.empty
    let h := unconnected.foldl GraphOperation.apply Graph.empty
    let t : Training := {}
    g.Reachable ∧ h.Reachable ∧ g.Delimited ∧ h.Delimited ∧ t.toJson.Finite ∧
    EndAlike g t h t ∧ CollisionFree g t h t ∧ g.revision t ≠ h.revision t := by
  intro g h t
  have hg : g.Reachable := ⟨noted, rfl⟩
  have hh : h.Reachable := ⟨unconnected, rfl⟩
  have dg : g.Delimited := ⟨by decide +kernel, by decide +kernel, by decide +kernel⟩
  have dh : h.Delimited := ⟨by decide +kernel, by decide +kernel, by decide +kernel⟩
  have ht : t.toJson.Finite := by decide +kernel
  have hend : EndAlike g t h t := .inl (by decide +kernel)
  have hsorted : g.sortedNodes = g.nodes := sortedNodes_of_pairwise (by decide +kernel)
  have hsorted' : h.sortedNodes = h.nodes := sortedNodes_of_pairwise (by decide +kernel)
  have hblocks : ∀ n ∈ g.nodes, ∀ m ∈ h.nodes,
      Blake3.hash n.content = Blake3.hash m.content → n.content = m.content := by decide +kernel
  have hwhole : Blake3.hash (g.content Blake3.hash t) ≠ Blake3.hash (h.content Blake3.hash t) := by
    rw [content_eq, content_eq, hsorted, hsorted']
    decide +kernel
  have hfree : CollisionFree g t h t := ⟨hblocks, fun heq => absurd heq hwhole⟩
  refine ⟨hg, hh, dg, dh, ht, hend, hfree, ?_⟩
  intro heq
  have hsame := ((revision_eq_iff hg hh dg dh ht ht hend hfree).mp heq).1
  exact absurd hsame.edges (by decide +kernel)

def labelled : List GraphOperation := [.add { id := ⟨"a"⟩, label := "L", block := .start }]

/-- The id ends with the mark, and the label is the last byte of the sequence index. -/
def marked : List GraphOperation :=
  [.add { id := ⟨"a\x00"⟩, sequenceIndex := 0x4c000000, block := .start }]

/-- The same is hashed of two blocks when the mark that ends an id is in one. Then graphs of other
content have the same revision, though no inputs of the hash function collide. -/
theorem not_sameContent_of_revision_eq :
    let g := labelled.foldl GraphOperation.apply Graph.empty
    let h := marked.foldl GraphOperation.apply Graph.empty
    let t : Training := {}
    g.Reachable ∧ h.Reachable ∧ CollisionFree g t h t ∧ g.revision t = h.revision t ∧
      ¬ SameContent g h := by
  intro g h t
  have hblocks : ∀ n ∈ g.nodes, ∀ m ∈ h.nodes, n.content = m.content := by decide +kernel
  have hsorted : g.sortedNodes = g.nodes := sortedNodes_of_pairwise (by decide +kernel)
  have hsorted' : h.sortedNodes = h.nodes := sortedNodes_of_pairwise (by decide +kernel)
  have hcontents : g.nodes.map (·.content) = h.nodes.map (·.content) := by decide +kernel
  have hdigests := congrArg (List.map Blake3.hash) hcontents
  rw [List.map_map, List.map_map] at hdigests
  have hwhole : g.content Blake3.hash t = h.content Blake3.hash t := by
    rw [content_eq, content_eq, hsorted, hsorted']
    exact congrArg (·.flatten ++ g.tail t) hdigests
  refine ⟨⟨labelled, rfl⟩, ⟨marked, rfl⟩, ?_, congrArg (hexText ∘ Blake3.hash) hwhole, ?_⟩
  · exact ⟨fun n hn m hm _ => hblocks n hn m hm, fun _ => hwhole⟩
  · exact fun s => absurd s.nodes (by decide +kernel)

end Graph

end LayerGraph
