import LayerGraph.MemoryStore
import LayerGraph.Proofs.DepthFirst
import LayerGraph.Proofs.Domains
import LayerGraph.Proofs.ServiceSteps
import LayerGraph.ServerConfig

namespace LayerGraph

namespace Layer

/-- The channels or features that a layer takes, if it counts them. -/
def inputCount? : Layer → Option UInt32
  | .convolution inChannels _ _ _ _ => some inChannels
  | .dense inFeatures _ _ => some inFeatures
  | .input _ | .pooling _ _ => none

/-- The channels or features that a layer gives; other layers pass on what they get. -/
def outputCount? : Layer → Option UInt32
  | .convolution _ outChannels _ _ _ => some outChannels
  | .dense _ outFeatures _ => some outFeatures
  | .input _ | .pooling _ _ => none

/-- All numbers of a layer are positive, but for a padding. -/
def Positive : Layer → Prop
  | .input size => 1 ≤ size
  | .convolution inChannels outChannels kernelSize _ _ =>
    1 ≤ inChannels ∧ 1 ≤ outChannels ∧ 1 ≤ kernelSize
  | .pooling kernelSize stride => 1 ≤ kernelSize ∧ 1 ≤ stride
  | .dense inFeatures outFeatures _ => 1 ≤ inFeatures ∧ 1 ≤ outFeatures

/-- Each layer takes as many as come to it, the first one `n`. -/
def Chained : (n : UInt32) → List (String × Layer) → Prop
  | _, [] => True
  | n, (_, l) :: ls => (∀ i, l.inputCount? = some i → i = n) ∧ Chained (l.outputCount?.getD n) ls

end Layer

/-- A model that can be trained on data with a number of channels. -/
structure Model.Trainable (channels : UInt32) (m : Model) : Prop where
  layers_ne_nil : m.layers ≠ []
  training : m.training.InDomain
  positive : ∀ l ∈ m.layers, l.2.Positive
  /-- The nearest layer before that counts its outputs gives what a layer takes. -/
  fed : ∀ before l after, m.layers = before ++ l :: after → ∀ n, l.2.inputCount? = some n →
    n = (before.filterMap (·.2.outputCount?)).getLast?.getD channels

theorem Layer.Chained.fed {n i : UInt32} {before after : List (String × Layer)}
    {l : String × Layer} (h : Chained n (before ++ l :: after)) (hi : l.2.inputCount? = some i) :
    i = (before.filterMap (·.2.outputCount?)).getLast?.getD n := by
  induction before generalizing n with
  | nil => exact h.1 i hi
  | cons m before ih =>
    rw [ih h.2, List.filterMap_cons]
    cases m.2.outputCount? with
    | none => rfl
    | some out => rw [List.getLast?_cons, Option.getD_some, Option.getD_some]

/-- A layer takes the flow that comes to it, and the flow behind it is what it gives. -/
theorem Block.emit_eq_ok {classes : UInt32} {flow flow' : Flow} {b : Block} {k : Kind}
    {layer : Layer} (h : b.emit classes flow = .ok (some (k, layer, flow'))) :
    (∀ i, layer.inputCount? = some i → i = flow.channels) ∧
      flow'.channels = layer.outputCount?.getD flow.channels ∧
      (b.InDomain → 1 ≤ flow.channels → 1 ≤ flow'.channels → layer.Positive) := by
  have hin : ∀ i, some flow.channels = some i → i = flow.channels :=
    fun _ hi => (Option.some.inj hi).symm
  cases b with
  | input p =>
    cases h
    exact ⟨nofun, rfl, fun hb _ _ => hb.1⟩
  | hidden p =>
    cases h
    exact ⟨hin, rfl, fun hb hflow _ => ⟨hflow, hb.2⟩⟩
  | output p =>
    -- how many outputs there are is checked behind the layer only
    cases h
    exact ⟨hin, rfl, fun _ hflow hout => ⟨hflow, hout⟩⟩
  | convolutional p =>
    cases h
    exact ⟨hin, rfl, fun hb hflow _ => ⟨hflow, hb.2⟩⟩
  | pooling p =>
    unfold emit at h
    dsimp only at h
    split at h
    · cases h
    split at h
    · cases h
    cases h
    exact ⟨nofun, rfl, fun hb _ _ => hb.2⟩
  | classifier _ | training _ | start | unknown _ _ => cases h

section

variable {classes : UInt32} {before : List Kind} {flow : Flow} {n : Node} {ns : List Node}
  {layers : List (String × Layer)}

/-- A block is passed over, or it becomes the next layer. -/
theorem emitLayers_cons_eq_ok (h : emitLayers classes before flow (n :: ns) = .ok layers) :
    (n.block.emit classes flow = .ok none ∧ emitLayers classes before flow ns = .ok layers) ∨
      ∃ k layer flow' rest, n.block.emit classes flow = .ok (some (k, layer, flow')) ∧
        flow'.channels ≠ 0 ∧ emitLayers classes (k :: before) flow' ns = .ok rest ∧
        layers = (k.layerKey (before.count k + 1), layer) :: rest := by
  rw [emitLayers] at h
  split at h
  · cases h
  · rename_i hemit
    exact .inl ⟨hemit, h⟩
  · rename_i k layer flow' hemit
    split at h
    · cases h
    · rename_i hflow
      obtain ⟨rest, hrest, h⟩ := bind_eq_ok_iff.mp h
      exact .inr ⟨k, layer, flow', rest, hemit, hflow, hrest, (pure_eq_ok_iff.mp h).symm⟩

/-- The flow that runs along is what the next layer takes. -/
theorem chained_emitLayers (h : emitLayers classes before flow ns = .ok layers) :
    Layer.Chained flow.channels layers := by
  induction ns generalizing before flow layers with
  | nil =>
    obtain rfl : [] = layers := Except.ok.inj h
    trivial
  | cons n ns ih =>
    rcases emitLayers_cons_eq_ok h with ⟨-, h⟩ | ⟨k, layer, flow', rest, hemit, -, hrest, rfl⟩
    · exact ih h
    · obtain ⟨hin, hout, -⟩ := Block.emit_eq_ok hemit
      exact ⟨hin, hout ▸ ih hrest⟩

theorem positive_emitLayers (h : emitLayers classes before flow ns = .ok layers)
    (hn : ∀ n ∈ ns, n.block.InDomain) (hflow : 1 ≤ flow.channels) :
    ∀ l ∈ layers, l.2.Positive := by
  induction ns generalizing before flow layers with
  | nil =>
    obtain rfl : [] = layers := Except.ok.inj h
    simp
  | cons n ns ih =>
    obtain ⟨hfirst, hn⟩ := List.forall_mem_cons.mp hn
    rcases emitLayers_cons_eq_ok h with ⟨-, h⟩ | ⟨k, layer, flow', rest, hemit, hout, hrest, rfl⟩
    · exact ih h hn hflow
    · obtain ⟨-, -, hpositive⟩ := Block.emit_eq_ok hemit
      have hout : 1 ≤ flow'.channels := one_le_iff_ne_zero.mpr hout
      exact List.forall_mem_cons.mpr ⟨hpositive hfirst hflow hout, ih hrest hn hout⟩

end

theorem compileLayers_eq_ok {nodes : List Node} {training : Training} {shape : ShapeConfig}
    {m : Model} (h : compileLayers nodes training shape = .ok m) :
    training.validate = .ok () ∧ m.layers ≠ [] ∧
      emitLayers shape.outputClasses [] ⟨shape.inputChannels, shape.initialSpatialSize⟩ nodes =
        .ok m.layers ∧ m.training = training := by
  obtain ⟨_, hvalid, h⟩ := bind_eq_ok_iff.mp h
  obtain ⟨layers, hlayers, h⟩ := bind_eq_ok_iff.mp h
  split at h
  · obtain ⟨_, h, -⟩ := bind_eq_ok_iff.mp h
    exact absurd h throw_ne_ok
  · rename_i hne
    obtain rfl := pure_eq_ok_iff.mp h
    exact ⟨mapError_eq_ok_iff.mp hvalid, by simpa using hne, hlayers, rfl⟩

namespace Graph

variable {g : Graph} {c : ShapeConfig}

/-- Where nothing is wrong, no parameter is outside its domain, reachable or not. -/
theorem inDomain_of_validate_eq_nil (h : g.validate c = []) : ∀ n ∈ g.nodes, n.block.InDomain := by
  intro n hn
  unfold validate at h
  simp only [List.append_eq_nil_iff, List.flatMap_eq_nil_iff, and_assoc] at h
  have hvalues := h.1 n hn
  unfold Node.invalidValues at hvalues
  exact (Block.rejections_eq_nil_iff _).mp (List.map_eq_nil_iff.mp hvalues)

theorem inputChannels_compiledShape (g : Graph) (c : ShapeConfig) :
    (g.compiledShape c).inputChannels = c.inputChannels := by
  unfold compiledShape
  split <;> rfl

theorem trainable_of_compile {fallback : Training} {options : CompileOptions} {r : Compilation}
    (hc : 1 ≤ options.shape.inputChannels) (hcheck : options.checkShapes = true)
    (h : g.compile fallback options = .ok r) (hw : r.warnings = []) :
    r.model.Trainable options.shape.inputChannels := by
  obtain ⟨lin, -, h⟩ := bind_eq_ok_iff.mp h
  obtain ⟨m, hm, h⟩ := bind_eq_ok_iff.mp h
  obtain rfl := pure_eq_ok_iff.mp h
  obtain ⟨hvalid, hne, hemit, htraining⟩ := compileLayers_eq_ok hm
  rw [inputChannels_compiledShape] at hemit
  have hdomain := inDomain_of_validate_eq_nil (by simpa [hcheck] using hw)
  refine ⟨hne, ?_, ?_, ?_⟩
  · exact htraining ▸ Training.validate_eq_ok_iff.mp hvalid
  · apply positive_emitLayers hemit _ hc
    -- the layers of the walk are blocks of the graph
    intro n hn
    exact hdomain n (mem_nodes_of_mem_filterMap hn)
  · intro before l after hsplit n hn
    have hchained := chained_emitLayers hemit
    rw [hsplit] at hchained
    exact hchained.fed hn

end Graph

namespace ProjectService

variable {σ : Type} {s : ProjectService σ} {id : ProjectId} {m : Model}

/-- The active project is compiled as it is in memory. -/
theorem serve_compile (s : ProjectService σ) (id : ProjectId) :
    s.serve (compile id) =
      (if id = s.project.id then
        (s.project.graph.compile s.project.training { shape := s.shape }).mapError .compile
      else .error (.notLoaded id s.project.id), s) := by
  unfold compile
  split
  · rename_i hid
    rw [serve_active hid, serve_bind, serve_get]
    exact serve_orFail s _ _
  · rename_i hid
    rw [serve_bind, serve_requireActive, if_neg hid]

theorem serve_compileForTraining_eq_ok_iff :
    (s.serve (compileForTraining id)).1 = .ok m ↔ id = s.project.id ∧
      ∃ c, s.project.graph.compile s.project.training { shape := s.shape } = .ok c ∧
        c.warnings = [] ∧ c.model = m := by
  unfold compileForTraining
  rw [serve_bind, serve_compile]
  by_cases hid : id = s.project.id
  · simp only [hid, if_true, true_and]
    cases s.project.graph.compile s.project.training { shape := s.shape } with
    | error e => simp [Except.mapError]
    | ok c =>
      simp only [Except.mapError, Except.ok.injEq, exists_eq_left']
      -- a warning ends the request
      cases hw : c.warnings with
      | nil =>
        change (Except.ok c.model : Except ApiError Model) = .ok m ↔ _
        simp
      | cons x xs => exact iff_of_false nofun nofun
  · simp [hid]

/--
A model that the service compiles for training fits together, whatever graph is loaded: it has
layers, all its numbers are in their domains, and each layer takes what the one before it gives.
-/
theorem trainable_of_compileForTraining (hc : 1 ≤ s.shape.inputChannels)
    (h : (s.serve (compileForTraining id)).1 = .ok m) : m.Trainable s.shape.inputChannels := by
  obtain ⟨-, c, hcompile, hw, rfl⟩ := serve_compileForTraining_eq_ok_iff.mp h
  have hchecks : ({ shape := s.shape } : CompileOptions).checkShapes = true := rfl
  exact Graph.trainable_of_compile hc hchecks hcompile hw

theorem inputChannels_ofSettings (application : String) (get : String → Option String) :
    (ServerConfig.ofSettings application get).shape.inputChannels = 3 := rfl

/-- Two layers lead to each other, and nothing leads to them. -/
def sideTrack : List GraphOperation :=
  [.add (.new ⟨"start"⟩ 0 .start), .add (.new ⟨"a"⟩ 0 (.convolutional ⟨3, 8, 3, 1⟩)),
   .add (.new ⟨"p"⟩ 1 (.pooling ⟨8, 2, 2, .max⟩)), .add (.new ⟨"out"⟩ 0 (.output ⟨32768, 4⟩)),
   .add (.new ⟨"x"⟩ 1 (.hidden ⟨4, 4, .relu⟩)), .add (.new ⟨"y"⟩ 2 (.hidden ⟨4, 4, .relu⟩)),
   .add (.new ⟨"names"⟩ 0 (.classifier ["cat", "dog"])),
   .addEdge (.connect ⟨"start"⟩ ⟨"a"⟩), .addEdge (.connect ⟨"a"⟩ ⟨"p"⟩),
   .addEdge (.connect ⟨"p"⟩ ⟨"out"⟩), .addEdge (.connect ⟨"out"⟩ ⟨"names"⟩),
   .addEdge (.connect ⟨"x"⟩ ⟨"y"⟩), .addEdge (.connect ⟨"y"⟩ ⟨"x"⟩)]

theorem trainable_of_compileForTraining_sideTrack :
    let s : ProjectService MemoryStore :=
      { store := {}
        shape := (ServerConfig.ofSettings "app" fun _ => none).shape
        project := ⟨⟨1⟩, "default", "", sideTrack.foldl GraphOperation.apply Graph.empty, {}⟩ }
    let m : Model :=
      { layers := [("conv1", .convolution 3 8 3 1 .relu), ("pool1", .pooling 2 2),
          ("fcl_output1", .dense 8 2 .softmax)]
        training := {}
        classes := ["cat", "dog"] }
    1 ≤ s.shape.inputChannels ∧ (s.serve (compileForTraining ⟨1⟩)).1 = .ok m ∧ m.Trainable 3 := by
  intro s m
  have hfed : s.project.graph.fedPlaceholders = [] := by
    unfold Graph.fedPlaceholders
    change walk _ s.project.graph.ids [] = []
    rw [walk]
  have hreach : s.project.graph.reach ⟨"start"⟩ =
      [⟨"start"⟩, ⟨"a"⟩, ⟨"p"⟩, ⟨"out"⟩, ⟨"names"⟩] :=
    (walk_eq_visited (n := 7) (by decide) (by decide) (by decide) (by decide)).trans (by decide)
  have hstart : s.project.graph.findStart = .ok ⟨"start"⟩ := by
    unfold Graph.findStart Graph.startCandidates
    rw [hfed]
    decide
  have hm : (s.serve (compileForTraining ⟨1⟩)).1 = .ok m := by
    rw [serve_compileForTraining_eq_ok_iff]
    refine ⟨rfl, ⟨m, [], [⟨"x"⟩, ⟨"y"⟩], []⟩, ?_, rfl, rfl⟩
    unfold Graph.compile Graph.linearize
    rw [hstart]
    dsimp only
    rw [hreach]
    decide +kernel
  have hc : 1 ≤ s.shape.inputChannels := by
    rw [inputChannels_ofSettings]
    decide
  exact ⟨hc, hm, trainable_of_compileForTraining hc hm⟩

end ProjectService

end LayerGraph
