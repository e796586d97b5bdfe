import LayerGraph.Compile
import LayerGraph.Proofs.Lists
import LayerGraph.Proofs.SameContent
import LayerGraph.Proofs.Starts
import LayerGraph.Proofs.Trainable

namespace LayerGraph

/-- Emission asks for the ids and the blocks of the nodes only. -/
theorem emitLayers_unplaced (classes : UInt32) (before : List Kind) (flow : Flow) (ns : List Node) :
    emitLayers classes before flow (ns.map Node.unplaced) = emitLayers classes before flow ns := by
  induction ns generalizing before flow with
  | nil => rfl
  | cons n ns ih =>
    simp only [List.map_cons, emitLayers, ih]
    rfl

theorem compileLayers_unplaced (ns : List Node) (training : Training) (shape : ShapeConfig) :
    compileLayers (ns.map Node.unplaced) training shape = compileLayers ns training shape := by
  simp only [compileLayers, emitLayers_unplaced]

namespace Graph

namespace SameContent

variable {g h : Graph} {n : Node} {a id start : NodeId}

theorem feeds (s : SameContent g h) (hg : WellFormed g) (hh : WellFormed h) (ha : g.Feeds a) :
    h.Feeds a := by
  induction ha with
  | @registered n hn hk =>
    obtain ⟨m, hm, hmn⟩ := s.exists_unplaced hn
    rw [← Node.id_of_unplaced hmn]
    refine .registered hm ?_
    rw [Node.isPlaceholder, Node.block_of_unplaced hmn]
    exact hk
  | through _ hb hp ih =>
    exact .through ih (s.successors_eq ▸ hb) (s.isPlaceholder_eq hg hh ▸ hp)

theorem startCandidates_perm (s : SameContent g h) (hg : WellFormed g) (hh : WellFormed h) :
    g.startCandidates.Perm h.startCandidates := by
  classical
  have hfeeds : ∀ a, g.Feeds a ↔ h.Feeds a := fun a => ⟨s.feeds hg hh, s.symm.feeds hh hg⟩
  -- whether a node is a candidate shows in what it is but for its place
  let candidate (n : Node) : Bool :=
    n.isPlaceholder = false ∧ ∀ a, n.id ∈ h.successors a → ¬ h.Feeds a
  have hmap : ∀ ns : List Node,
      (ns.filter candidate).map (·.id) = ((ns.map Node.unplaced).filter candidate).map (·.id) := by
    intro ns
    rw [List.filter_map, List.map_map]
    rfl
  rw [startCandidates_eq hg, startCandidates_eq hh, s.successors_eq]
  simp only [hfeeds]
  exact (hmap g.nodes).symm ▸ (hmap h.nodes).symm ▸ (s.nodes.filter candidate).map _

theorem nodup_text_startCandidates (hg : WellFormed g) :
    (g.startCandidates.map (·.text)).Nodup :=
  (nodup_startCandidates hg).map fun a b hab => by rw [← NodeId.mk.injEq] at hab; exact hab

theorem findStart_eq (s : SameContent g h) (hg : WellFormed g) (hh : WellFormed h) :
    g.findStart = h.findStart := by
  have hperm := s.startCandidates_perm hg hh
  have hsorted := @mergeSort_congr_perm _ _ _ NodeId.text _ _ (nodup_text_startCandidates hh) hperm
  unfold findStart
  split
  · rename_i id hid
    rw [hid, List.singleton_perm] at hperm
    rw [← hperm]
  · rename_i hne
    split
    · rename_i id hid
      rw [hid, List.perm_singleton] at hperm
      exact absurd hperm (hne id)
    · exact congrArg Except.error hsorted

theorem reach_eq (s : SameContent g h) (hg : WellFormed g) (hh : WellFormed h)
    (hstart : start ∈ g.ids) : g.reach start = h.reach start := by
  have hwalk := depthFirst_reach hg hstart
  rw [s.successors_eq] at hwalk
  exact (depthFirst_iff_reach hh (s.ids_perm.subset hstart)).mp hwalk

/-- The layers come in the same order. -/
theorem linearize_layers_eq (s : SameContent g h) (hg : WellFormed g) (hh : WellFormed h) :
    g.linearize.map (·.layers) = h.linearize.map (·.layers) := by
  have hlayer : ∀ (g : Graph) id, (g.node? id).any (·.isLayer) =
      ((g.node? id).map Node.unplaced).any (·.isLayer) := by
    intro g id
    cases g.node? id <;> rfl
  unfold linearize
  rw [← s.findStart_eq hg hh]
  cases hs : g.findStart with
  | error ids => rfl
  | ok start =>
    refine congrArg Except.ok ?_
    simp only [s.reach_eq hg hh (mem_ids_of_findStart hs)]
    refine List.filter_congr fun id _ => ?_
    rw [hlayer, hlayer h, s.map_node? hg hh]

theorem compileLayers_eq (s : SameContent g h) (hg : WellFormed g) (hh : WellFormed h)
    (ids : List NodeId) (training : Training) (shape : ShapeConfig) :
    compileLayers (ids.filterMap g.node?) training shape =
      compileLayers (ids.filterMap h.node?) training shape := by
  rw [← compileLayers_unplaced, ← compileLayers_unplaced (ids.filterMap h.node?),
    List.map_filterMap, List.map_filterMap]
  simp only [s.map_node? hg hh]

/-- The model of a graph, from its layers and from what its blocks say of training and classes. -/
theorem compile_model (g : Graph) (fallback : Training) (o : CompileOptions) :
    (g.compile fallback o).map (·.model) = (g.linearize.map (·.layers)).bind fun ids =>
      (compileLayers (ids.filterMap g.node?) (g.trainingOr fallback) (g.compiledShape o.shape)).map
        ({ · with classes := g.classNames }) := by
  unfold compile
  cases g.linearize with
  | error e => rfl
  | ok l =>
    simp only [bind, Except.bind, Except.map]
    cases compileLayers (l.layers.filterMap g.node?) (g.trainingOr fallback)
      (g.compiledShape o.shape) <;> rfl

theorem compile_model_eq (s : SameContent g h) (hg : WellFormed g) (hh : WellFormed h)
    {fallback : Training} (o : CompileOptions)
    (ht : g.trainingOr fallback = h.trainingOr fallback) (hc : g.classNames = h.classNames) :
    (g.compile fallback o).map (·.model) = (h.compile fallback o).map (·.model) := by
  have hshape : g.compiledShape o.shape = h.compiledShape o.shape := by
    unfold compiledShape
    rw [hc]
  rw [compile_model, compile_model, s.linearize_layers_eq hg hh, ht, hc, hshape]
  simp only [s.compileLayers_eq hg hh]

theorem model_of_compile {fallback : Training} {o : CompileOptions} {m : Model}
    (hm : (g.compile fallback o).map (·.model) = .ok m) :
    m.training = g.trainingOr fallback ∧ m.classes = g.classNames := by
  cases hc : g.compile fallback o with
  | error e => simp [hc, Except.map] at hm
  | ok c =>
    obtain rfl : c.model = m := Except.ok.inj (hc ▸ hm)
    obtain ⟨l, -, hc⟩ := bind_eq_ok_iff.mp hc
    obtain ⟨m, hlayers, hc⟩ := bind_eq_ok_iff.mp hc
    obtain rfl := pure_eq_ok_iff.mp hc
    exact ⟨(compileLayers_eq_ok hlayers).2.2.2, rfl⟩

end SameContent

/-- No two training blocks have different settings, and no two classifiers name different classes. -/
structure Unambiguous (g : Graph) : Prop where
  training : ∀ n ∈ g.nodes, ∀ m ∈ g.nodes, ∀ t u,
    n.block.training? = some t → m.block.training? = some u → t = u
  classNames : ∀ n ∈ g.nodes, ∀ m ∈ g.nodes, ∀ cs ds,
    n.block.classNames? = some cs → m.block.classNames? = some ds → cs = ds

/--
Graphs with the same content have their layers in the same order, or fail to with the same error.
Where one compiles, the other has the same model just when it finds the same training settings and
the same classes first. No two blocks may disagree on these: then the outcome is the same always.
-/
theorem compile_of_sameContent {g h : Graph} (hg : g.Reachable) (hh : h.Reachable)
    (s : SameContent g h) (fallback : Training) (o : CompileOptions) :
    let compiled := fun k : Graph => (k.compile fallback o).map (·.model)
    g.linearize.map (·.layers) = h.linearize.map (·.layers) ∧
    (∀ m, compiled g = .ok m → (compiled h = .ok m ↔
      h.trainingOr fallback = g.trainingOr fallback ∧ h.classNames = g.classNames)) ∧
    (g.Unambiguous → compiled g = compiled h) := by
  intro compiled
  have hw := hg.wellFormed
  have hw' := hh.wellFormed
  refine ⟨s.linearize_layers_eq hw hw', ?_, ?_⟩
  · intro m hm
    constructor
    · intro hm'
      obtain ⟨ht, hc⟩ := SameContent.model_of_compile hm
      obtain ⟨ht', hc'⟩ := SameContent.model_of_compile hm'
      exact ⟨ht'.symm.trans ht, hc'.symm.trans hc⟩
    · rintro ⟨ht, hc⟩
      rw [← hm]
      exact (s.compile_model_eq hw hw' o ht.symm hc.symm).symm
  · intro hu
    apply s.compile_model_eq hw hw' o
    · exact congrArg (·.getD fallback) (s.findSome?_eq (fun _ => rfl) hu.training)
    · exact congrArg (·.getD []) (s.findSome?_eq (fun _ => rfl) hu.classNames)

/-- A layer that leads to two training blocks. -/
def twoTrainings : List GraphOperation :=
  [.add (.new ⟨"fast"⟩ 0 (.training { epochs := 1 })),
   .add (.new ⟨"slow"⟩ 0 (.training { epochs := 100 })), .add (.new ⟨"in"⟩ 0 (.input ⟨4, 4⟩)),
   .addEdge ⟨⟨"1"⟩, ⟨"in"⟩, ⟨"fast"⟩⟩, .addEdge ⟨⟨"2"⟩, ⟨"in"⟩, ⟨"slow"⟩⟩]

/-- Both are removed and added again in the same order, which takes their slots the other way round. -/
def twoTrainingsAgain : List GraphOperation :=
  twoTrainings ++ [.remove ⟨"fast"⟩, .remove ⟨"slow"⟩] ++ twoTrainings

theorem compile_of_sameContent_twoTrainings :
    let g := twoTrainings.foldl GraphOperation.apply Graph.empty
    let h := twoTrainingsAgain.foldl GraphOperation.apply Graph.empty
    let m : Model := { layers := [("fcl_input1", .input 4)], training := { epochs := 1 } }
    g.Reachable ∧ h.Reachable ∧ SameContent g h ∧
    (g.compile {} {}).map (·.model) = .ok m ∧ (h.compile {} {}).map (·.model) ≠ .ok m := by
  intro g h m
  have hg : g.Reachable := ⟨twoTrainings, rfl⟩
  have hh : h.Reachable := ⟨twoTrainingsAgain, rfl⟩
  have s : SameContent g h := ⟨by decide +kernel, by decide +kernel⟩
  have hfed : g.fedPlaceholders = [] :=
    (walk_eq_visited (n := 0) (by decide) (by decide) (by decide) (by decide)).trans (by decide)
  have hstart : g.findStart = .ok ⟨"in"⟩ := by
    unfold findStart startCandidates
    rw [hfed]
    decide
  have hreach : g.reach ⟨"in"⟩ = [⟨"in"⟩, ⟨"fast"⟩, ⟨"slow"⟩] :=
    (walk_eq_visited (n := 3) (by decide) (by decide) (by decide) (by decide)).trans (by decide)
  have hm : (g.compile {} {}).map (·.model) = .ok m := by
    unfold compile linearize
    rw [hstart]
    dsimp only
    rw [hreach]
    decide +kernel
  refine ⟨hg, hh, s, hm, ?_⟩
  intro hm'
  have htraining := (((compile_of_sameContent hg hh s {} {}).2.1 m hm).mp hm').1
  exact absurd htraining (by decide +kernel)

end Graph

end LayerGraph
