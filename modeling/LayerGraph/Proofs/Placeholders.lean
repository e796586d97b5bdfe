import LayerGraph.Compile
import LayerGraph.Proofs.Contents
import LayerGraph.Proofs.Starts

namespace LayerGraph

theorem Block.eq_unknown_of_isPlaceholder {b : Block} (hb : b.isPlaceholder = true) :
    ∃ kind data, b = .unknown kind data := by
  cases b with
  | unknown kind data => exact ⟨kind, data, rfl⟩
  | _ => cases hb

namespace Graph

theorem flattened?_congr {g g' : Graph} {c : ShapeConfig}
    (hmembers : ∀ f, g'.members f = g.members f) : g'.flattened? c = g.flattened? c := by
  unfold flattened? lastChannels? finalSize convolutions poolings
  rw [hmembers]

theorem validate_congr {g g' : Graph} {c : ShapeConfig} (hmembers : ∀ f, g'.members f = g.members f)
    (hvalues : g'.nodes.flatMap (·.invalidValues) = g.nodes.flatMap (·.invalidValues)) :
    g'.validate c = g.validate c := by
  have hduplicates : ∀ f, g'.duplicates f = g.duplicates f := by
    intro f
    unfold duplicates
    rw [hmembers]
  have hderived : g'.derivedViolation? c = g.derivedViolation? c := by
    unfold derivedViolation?
    rw [hmembers, flattened?_congr hmembers]
  have hneural : g'.neuralViolations = g.neuralViolations := by
    unfold neuralViolations
    rw [hmembers]
  unfold validate
  rw [hvalues, hduplicates, hduplicates, hmembers, hderived, hneural]

/-- The second graph has a placeholder `x` between the blocks of the first, and its families. -/
structure WithPlaceholder (x : Node) (before after : List Node) (g g' : Graph) : Prop where
  wellFormed : WellFormed g
  wellFormed' : WellFormed g'
  isPlaceholder_node : x.isPlaceholder = true
  nodes_eq : g.nodes = before ++ after
  nodes_eq' : g'.nodes = before ++ x :: after
  members_eq : ∀ f, g'.members f = g.members f

namespace WithPlaceholder

variable {g g' : Graph} {x n : Node} {before after : List Node} {id : NodeId}

theorem mem_nodes_iff (h : WithPlaceholder x before after g g') :
    n ∈ g'.nodes ↔ n = x ∨ n ∈ g.nodes := by
  rw [h.nodes_eq, h.nodes_eq', List.perm_middle.mem_iff, List.mem_cons]

theorem not_mem_ids (h : WithPlaceholder x before after g g') : x.id ∉ g.ids := by
  have hnodup := h.wellFormed'.ids_nodup
  rw [h.nodes_eq', (List.perm_middle.map _).nodup_iff, List.map_cons, List.nodup_cons,
    ← h.nodes_eq] at hnodup
  exact hnodup.1

theorem id_ne (h : WithPlaceholder x before after g g') (hn : n ∈ g.nodes) : n.id ≠ x.id :=
  fun hne => h.not_mem_ids (hne ▸ List.mem_map_of_mem hn)

theorem ids_subset (h : WithPlaceholder x before after g g') : g.ids ⊆ g'.ids := by
  intro id hid
  obtain ⟨n, hn, rfl⟩ := List.mem_map.mp hid
  exact List.mem_map_of_mem (h.mem_nodes_iff.mpr (.inr hn))

theorem node?_eq (h : WithPlaceholder x before after g g') (hid : id ≠ x.id) :
    g'.node? id = g.node? id := by
  apply node?_congr h.wellFormed'.ids_nodup h.wellFormed.ids_nodup
  intro n hn
  rw [h.mem_nodes_iff, or_iff_right]
  rintro rfl
  exact hid hn.symm

theorem node?_self (h : WithPlaceholder x before after g g') : g'.node? x.id = some x :=
  (node?_eq_some_iff h.wellFormed'.ids_nodup).mpr ⟨h.mem_nodes_iff.mpr (.inl rfl), rfl⟩

theorem node?_eq_none (h : WithPlaceholder x before after g g') : g.node? x.id = none := by
  rw [← Option.not_isSome_iff_eq_none]
  intro hc
  obtain ⟨n, hn, hni⟩ := contains_iff.mp hc
  exact h.id_ne hn hni

theorem isPlaceholder_id (h : WithPlaceholder x before after g g') :
    g'.isPlaceholder x.id = true := by
  simp only [isPlaceholder, h.node?_self, h.isPlaceholder_node]

theorem isPlaceholder_eq (h : WithPlaceholder x before after g g') :
    g'.isPlaceholder = g.isPlaceholder := by
  funext id
  by_cases hid : id = x.id
  · -- an id that no block has counts as that of a placeholder
    rw [hid, h.isPlaceholder_id]
    simp only [isPlaceholder, h.node?_eq_none]
  · simp only [isPlaceholder, h.node?_eq hid]

theorem ne_of_feeds (h : WithPlaceholder x before after g g') (ha : g.Feeds id) : id ≠ x.id := by
  rintro rfl
  exact h.not_mem_ids (ha.mem_ids h.wellFormed)

theorem isLayer_node (h : WithPlaceholder x before after g g') : x.isLayer = false := by
  obtain ⟨kind, data, hb⟩ := Block.eq_unknown_of_isPlaceholder h.isPlaceholder_node
  unfold Node.isLayer
  rw [hb]
  rfl

theorem skipped?_node (h : WithPlaceholder x before after g g') :
    x.skipped? = some ⟨x.id, x.block.kindName⟩ := if_pos h.isPlaceholder_node

theorem filter_nodes (h : WithPlaceholder x before after g g') {p q : Node → Bool}
    (hx : p x = false) (hpq : ∀ n ∈ g.nodes, p n = q n) : g'.nodes.filter p = g.nodes.filter q := by
  rw [← List.filter_congr hpq, h.nodes_eq, h.nodes_eq', List.filter_append, List.filter_append,
    List.filter_cons_of_neg (by simp [hx])]

theorem findSome?_nodes (h : WithPlaceholder x before after g g') {α : Type} {f : Node → Option α}
    (hx : f x = none) : g'.nodes.findSome? f = g.nodes.findSome? f := by
  rw [h.nodes_eq, h.nodes_eq', List.findSome?_append, List.findSome?_append,
    List.findSome?_cons_of_isNone (by simp [hx])]

theorem validate_eq (h : WithPlaceholder x before after g g') (c : ShapeConfig) :
    g'.validate c = g.validate c := by
  apply validate_congr h.members_eq
  obtain ⟨kind, data, hb⟩ := Block.eq_unknown_of_isPlaceholder h.isPlaceholder_node
  simp [h.nodes_eq, h.nodes_eq', Node.invalidValues, hb, Block.rejections, Block.kind?]

theorem trainingOr_eq (h : WithPlaceholder x before after g g') (fallback : Training) :
    g'.trainingOr fallback = g.trainingOr fallback := by
  obtain ⟨kind, data, hb⟩ := Block.eq_unknown_of_isPlaceholder h.isPlaceholder_node
  unfold trainingOr
  rw [h.findSome?_nodes (by rw [hb]; rfl)]

theorem classNames_eq (h : WithPlaceholder x before after g g') : g'.classNames = g.classNames := by
  obtain ⟨kind, data, hb⟩ := Block.eq_unknown_of_isPlaceholder h.isPlaceholder_node
  unfold classNames
  rw [h.findSome?_nodes (by rw [hb]; rfl)]

theorem compiledShape_eq (h : WithPlaceholder x before after g g') (c : ShapeConfig) :
    g'.compiledShape c = g.compiledShape c := by
  simp only [compiledShape, h.classNames_eq]

/-- The start is the same when data come to the same registered blocks. -/
theorem startCandidates_eq (h : WithPlaceholder x before after g g')
    (hfeeds : ∀ b, b ≠ x.id →
      ((∃ a, b ∈ g'.successors a ∧ g'.Feeds a) ↔ ∃ a, b ∈ g.successors a ∧ g.Feeds a)) :
    g'.startCandidates = g.startCandidates := by
  classical
  rw [Graph.startCandidates_eq h.wellFormed, Graph.startCandidates_eq h.wellFormed']
  refine congrArg (List.map Node.id) (h.filter_nodes (by simp [h.isPlaceholder_node]) ?_)
  intro n hn
  have hnone := not_congr (hfeeds n.id (h.id_ne hn))
  simp only [not_exists, not_and] at hnone
  rw [decide_eq_decide]
  exact and_congr_right fun _ => hnone

theorem findStart_eq (h : WithPlaceholder x before after g g')
    (hfeeds : ∀ b, b ≠ x.id →
      ((∃ a, b ∈ g'.successors a ∧ g'.Feeds a) ↔ ∃ a, b ∈ g.successors a ∧ g.Feeds a)) :
    g'.findStart = g.findStart := by
  unfold findStart
  rw [h.startCandidates_eq hfeeds]

/-- The blocks that are left out of the second graph. -/
def skipped (x : Node) (before after : List Node) : List SkippedBlock :=
  before.filterMap (·.skipped?) ++ ⟨x.id, x.block.kindName⟩ :: after.filterMap (·.skipped?)

/-- The walks come to the same blocks in the same order, but for the placeholder. -/
structure Alongside (x : Node) (g g' : Graph) : Prop where
  findStart_eq : g'.findStart = g.findStart
  filter_reach : ∀ start, g.findStart = .ok start →
    (g'.reach start).filter (· ≠ x.id) = g.reach start

theorem linearize_eq (h : WithPlaceholder x before after g g') (ha : Alongside x g g') :
    g'.linearize = g.linearize.map ({ · with skipped := skipped x before after }) := by
  unfold linearize
  rw [ha.findStart_eq]
  cases hs : g.findStart with
  | error ids => rfl
  | ok start =>
    have hreach := ha.filter_reach start hs
    have hlayers : (g'.reach start).filter (fun id => (g'.node? id).any (·.isLayer)) =
        (g.reach start).filter fun id => (g.node? id).any (·.isLayer) := by
      rw [← hreach, List.filter_filter]
      apply List.filter_congr
      intro id _
      by_cases hid : id = x.id
      · simp [hid, h.node?_self, h.isLayer_node]
      · simp [hid, h.node?_eq hid]
    have hunreachable : (g'.nodes.filter fun n => n.isLayer && !(g'.reach start).contains n.id) =
        g.nodes.filter fun n => n.isLayer && !(g.reach start).contains n.id := by
      apply h.filter_nodes (by simp [h.isLayer_node])
      intro n hn
      simp [← hreach, h.id_ne hn]
    simp only [hlayers, hunreachable, Except.map]
    rw [h.nodes_eq', List.filterMap_append, List.filterMap_cons_some h.skipped?_node]
    rfl

theorem compile_eq (h : WithPlaceholder x before after g g') (ha : Alongside x g g')
    (fallback : Training) (options : CompileOptions) :
    g'.compile fallback options = (g.compile fallback options).map
      ({ · with skipped := skipped x before after }) := by
  unfold compile
  rw [h.linearize_eq ha]
  cases hl : g.linearize with
  | error e => rfl
  | ok l =>
    have hnodes : l.layers.filterMap g'.node? = l.layers.filterMap g.node? := by
      apply List.filterMap_congr
      intro id hid
      apply h.node?_eq
      rintro rfl
      have hx := contains_of_mem_layers hl hid
      rw [contains, h.node?_eq_none] at hx
      cases hx
    simp only [Except.map, bind, Except.bind, hnodes, h.compiledShape_eq, h.trainingOr_eq,
      h.classNames_eq, h.validate_eq]
    cases compileLayers (l.layers.filterMap g.node?) (g.trainingOr fallback)
      (g.compiledShape options.shape) <;> rfl

/-- The blocks that are left out of the first graph are those without the placeholder. -/
theorem skipped_of_compile (h : WithPlaceholder x before after g g') {fallback : Training}
    {options : CompileOptions} {c : Compilation} (hc : g.compile fallback options = .ok c) :
    c.skipped = before.filterMap (·.skipped?) ++ after.filterMap (·.skipped?) := by
  obtain ⟨l, hl, hc⟩ := bind_eq_ok_iff.mp hc
  obtain ⟨m, -, hc⟩ := bind_eq_ok_iff.mp hc
  obtain rfl := pure_eq_ok_iff.mp hc
  obtain ⟨-, -, hskipped, -⟩ := linearize_eq_ok hl
  rw [hskipped, h.nodes_eq, List.filterMap_append]

end WithPlaceholder

end Graph

end LayerGraph
