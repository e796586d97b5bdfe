import LayerGraph.Insert
import LayerGraph.Proofs.History
import LayerGraph.Proofs.Lists

namespace LayerGraph

/-- The first two ids joined are the other two joined, which are parted at a later hyphen. -/
def Reparted (s t s' t' : NodeId) : Prop :=
  ∃ part : String, s'.text = s.text ++ "-" ++ part ∧ t.text = part ++ "-" ++ t'.text

def NodeId.hyphens (id : NodeId) : Nat := id.text.toList.count '-'

variable {s t s' t' : NodeId}

theorem reparted_iff : Reparted s t s' t' ↔ ∃ m, s'.text.toList = s.text.toList ++ '-' :: m ∧
    t.text.toList = m ++ '-' :: t'.text.toList := by
  unfold Reparted
  simp only [← String.toList_inj, String.toList_append]
  constructor
  · rintro ⟨part, hs, ht⟩
    exact ⟨part.toList, by simpa using hs, by simpa using ht⟩
  · rintro ⟨m, hs, ht⟩
    exact ⟨String.ofList m, by simpa using hs, by simpa using ht⟩

theorem toList_between (s t : NodeId) : (EdgeId.between s t).text.toList =
    "edge-".toList ++ (s.text.toList ++ '-' :: t.text.toList) := by
  have htext : (EdgeId.between s t).text = "edge-" ++ s.text ++ "-" ++ t.text := by
    simp [EdgeId.between, toString]
  rw [htext]
  simp [String.toList_append]

theorem NodeId.ext_toList_iff {a b : NodeId} : a = b ↔ a.text.toList = b.text.toList := by
  rw [String.toList_inj]
  cases a
  cases b
  simp

theorem EdgeId.between_eq_iff : EdgeId.between s t = .between s' t' ↔
    (s = s' ∧ t = t') ∨ Reparted s t s' t' ∨ Reparted s' t' s t := by
  have htext : EdgeId.between s t = .between s' t' ↔
      (EdgeId.between s t).text.toList = (EdgeId.between s' t').text.toList := by
    rw [String.toList_inj]
    exact ⟨congrArg _, fun h => congrArg EdgeId.mk h⟩
  rw [htext, toList_between, toList_between, List.append_cancel_left_eq, append_mark_eq_iff,
    reparted_iff, reparted_iff, NodeId.ext_toList_iff, NodeId.ext_toList_iff]

/-- The source takes the hyphens that the target gives away. -/
theorem Reparted.hyphens_lt (h : Reparted s t s' t') :
    s.hyphens < s'.hyphens ∧ t'.hyphens < t.hyphens := by
  obtain ⟨m, hs, ht⟩ := reparted_iff.mp h
  unfold NodeId.hyphens
  rw [hs, ht]
  simp only [List.count_append, List.count_cons_self]
  omega

theorem Kind.hyphens_numberedId (k : Kind) (i : Nat) : (k.numberedId i).hyphens = 1 := by
  have htext : (k.numberedId i).text = k.stem ++ "-" ++ i.repr := by
    simp [Kind.numberedId, toString]
  have hstem : k.stem.toList.count '-' = 0 := by cases k <;> decide
  have hdigits : (Nat.toDigits 10 i).count '-' = 0 := by
    rw [List.count_eq_zero]
    intro h
    exact absurd (Nat.isDigit_of_mem_toDigits (by decide) (by decide) h) (by decide)
  unfold NodeId.hyphens
  rw [htext]
  simp [String.toList_append, List.count_append, hstem, hdigits]

/-- A connection that is added has the id that is drawn between its ends. -/
def GraphOperation.Draws (op : GraphOperation) : Prop :=
  ∀ e, op.newEdge? = some e → e = .connect e.source e.target

namespace Graph

variable {g h : Graph} {op : GraphOperation}

/-- Graphs that are built from nothing without an id given to a connection. -/
def Drawn (g : Graph) : Prop :=
  ∃ ops : List GraphOperation, (∀ op ∈ ops, op.Draws) ∧ ops.foldl GraphOperation.apply empty = g

theorem Drawn.reachable (hg : g.Drawn) : g.Reachable := by
  obtain ⟨ops, -, rfl⟩ := hg
  exact ⟨ops, rfl⟩

theorem edges_drawn_apply (hop : op.Draws)
    (hg : ∀ e ∈ g.edges, e = .connect e.source e.target) :
    ∀ e ∈ (op.apply g).edges, e = .connect e.source e.target := by
  cases hr : op.run g with
  | error err => rwa [apply_of_error hr]
  | ok h =>
    rw [apply_of_ok hr, edges_run hr]
    intro e he
    rcases List.mem_append.mp he with he | he
    · exact hg e (List.mem_of_mem_filter he)
    · exact hop e (Option.mem_toList.mp he)

theorem edges_drawn_foldl {ops : List GraphOperation} (hops : ∀ op ∈ ops, op.Draws)
    (hg : ∀ e ∈ g.edges, e = .connect e.source e.target) :
    ∀ e ∈ (ops.foldl GraphOperation.apply g).edges, e = .connect e.source e.target := by
  induction ops generalizing g with
  | nil => exact hg
  | cons op ops ih =>
    exact ih (fun op' h => hops op' (List.mem_cons_of_mem _ h))
      (edges_drawn_apply (hops op List.mem_cons_self) hg)

theorem Drawn.edges (hg : g.Drawn) : ∀ e ∈ g.edges, e = .connect e.source e.target := by
  obtain ⟨ops, hops, rfl⟩ := hg
  exact edges_drawn_foldl hops (List.forall_mem_nil _)

/-- The connections in the way of one that is to be drawn, and not there yet. -/
theorem Drawn.mem_ids_iff (hg : g.Drawn)
    (hnew : ∀ e ∈ g.edges, ¬ (e.source = s ∧ e.target = t)) :
    EdgeId.between s t ∈ g.edges.map (·.id) ↔
      ∃ e ∈ g.edges, Reparted s t e.source e.target ∨ Reparted e.source e.target s t := by
  rw [List.mem_map]
  apply exists_congr
  intro e
  apply and_congr_right
  intro he
  have hid : e.id = .between e.source e.target := congrArg Edge.id (hg.edges e he)
  rw [hid, eq_comm, EdgeId.between_eq_iff]
  apply or_iff_right
  rintro ⟨rfl, rfl⟩
  exact hnew e he ⟨rfl, rfl⟩

theorem addEdge_connect_eq_ok_iff (hst : s ≠ t) (hs : g.contains s = true)
    (ht : g.contains t = true) :
    g.addEdge (.connect s t) = .ok { g with edges := g.edges ++ [.connect s t] } ↔
      EdgeId.between s t ∉ g.edges.map (·.id) := by
  rw [addEdge_eq_ok_iff, edge?_eq_none_iff]
  exact ⟨And.left, fun h => ⟨h, hst, hs, ht, rfl⟩⟩

theorem addEdge_of_mem_ids {e : Edge} (h : e.id ∈ g.edges.map (·.id)) :
    g.addEdge e = .error (.duplicateEdge e.id) := by
  apply if_pos
  rwa [Option.isSome_iff_ne_none, ne_eq, edge?_eq_none_iff, not_not]

/-- Between generated ids nothing is parted at another hyphen, as each has but one. -/
theorem not_reparted_of_numbered (hg : WellFormed g)
    (hnumbered : ∀ n ∈ g.nodes, ∃ k i, n.id = Kind.numberedId k i) (hs : g.contains s = true)
    {e : Edge} (he : e ∈ g.edges) :
    ¬ Reparted s t e.source e.target ∧ ¬ Reparted e.source e.target s t := by
  have hone : ∀ id, g.contains id = true → id.hyphens = 1 := by
    intro id hid
    obtain ⟨n, hn, rfl⟩ := contains_iff.mp hid
    obtain ⟨k, i, hn⟩ := hnumbered n hn
    rw [hn, Kind.hyphens_numberedId]
  have hsource := hone e.source (hg.edge_ends e he).2.1
  have hs := hone s hs
  constructor
  · intro h
    have := h.hyphens_lt.1
    omega
  · intro h
    have := h.hyphens_lt.1
    omega

/-- A connection that is not there can be drawn just when none is whose ends, joined, can be parted
into its own at another hyphen. It always can when the ids were generated. -/
theorem addEdge_connect_iff (hg : g.Drawn) (hst : s ≠ t) (hs : g.contains s = true)
    (ht : g.contains t = true) (hnew : ∀ e ∈ g.edges, ¬ (e.source = s ∧ e.target = t)) :
    (∀ s' t', EdgeId.between s t = .between s' t' ↔
      (s = s' ∧ t = t') ∨ Reparted s t s' t' ∨ Reparted s' t' s t) ∧
    (g.addEdge (.connect s t) = .ok { g with edges := g.edges ++ [.connect s t] } ↔
      ∀ e ∈ g.edges, ¬ Reparted s t e.source e.target ∧ ¬ Reparted e.source e.target s t) ∧
    ((∃ e ∈ g.edges, Reparted s t e.source e.target ∨ Reparted e.source e.target s t) →
      g.addEdge (.connect s t) = .error (.duplicateEdge (.between s t))) ∧
    ((∀ n ∈ g.nodes, ∃ k i, n.id = Kind.numberedId k i) →
      g.addEdge (.connect s t) = .ok { g with edges := g.edges ++ [.connect s t] }) := by
  have hdrawn : g.addEdge (.connect s t) = .ok { g with edges := g.edges ++ [.connect s t] } ↔
      ∀ e ∈ g.edges, ¬ Reparted s t e.source e.target ∧ ¬ Reparted e.source e.target s t := by
    rw [addEdge_connect_eq_ok_iff hst hs ht, hg.mem_ids_iff hnew]
    simp only [not_exists, not_and, not_or]
  refine ⟨fun _ _ => EdgeId.between_eq_iff, hdrawn, ?_, ?_⟩
  · intro h
    exact addEdge_of_mem_ids ((hg.mem_ids_iff hnew).mpr h)
  · intro hnumbered
    rw [hdrawn]
    intro e he
    exact not_reparted_of_numbered hg.reachable.wellFormed hnumbered hs he

/-- Four blocks, and a connection between two of them. -/
def hyphenated : List GraphOperation :=
  [.add (.new ⟨"a"⟩ 0 .start), .add (.new ⟨"a-b"⟩ 0 .start), .add (.new ⟨"b-c"⟩ 0 .start),
   .add (.new ⟨"c"⟩ 0 .start), .addEdge (.connect ⟨"a-b"⟩ ⟨"c"⟩)]

/-- The connection between the other two would have the same id. -/
theorem addEdge_connect_iff_hyphenated :
    let g := hyphenated.foldl GraphOperation.apply empty
    g.Drawn ∧ g.contains ⟨"a"⟩ = true ∧ g.contains ⟨"b-c"⟩ = true ∧
    (∀ e ∈ g.edges, ¬ (e.source = ⟨"a"⟩ ∧ e.target = ⟨"b-c"⟩)) ∧
    g.addEdge (.connect ⟨"a"⟩ ⟨"b-c"⟩) = .error (.duplicateEdge ⟨"edge-a-b-c"⟩) := by
  intro g
  have hg : g.Drawn := by
    refine ⟨hyphenated, ?_, rfl⟩
    simp [hyphenated, GraphOperation.Draws, GraphOperation.newEdge?, Edge.connect]
  have hs : g.contains ⟨"a"⟩ = true := by decide
  have ht : g.contains ⟨"b-c"⟩ = true := by decide
  have hnew : ∀ e ∈ g.edges, ¬ (e.source = ⟨"a"⟩ ∧ e.target = ⟨"b-c"⟩) := by decide
  refine ⟨hg, hs, ht, hnew, ?_⟩
  obtain ⟨-, -, hclash, -⟩ := addEdge_connect_iff hg (by decide) hs ht hnew
  exact hclash ⟨.connect ⟨"a-b"⟩ ⟨"c"⟩, by decide, .inl ⟨"b", by decide, by decide⟩⟩

end Graph

end LayerGraph
