import LayerGraph.Proofs.Accounted

namespace LayerGraph

/-- The size that runs along behind a block. -/
def Block.sizeBehind (size : UInt32) : Block → UInt32
  | .input p => p.sizeIn
  | .pooling p => size / p.kernelSize
  | _ => size

/-- The count of channels that runs along behind a block. -/
def Block.countBehind (classes count : UInt32) : Block → UInt32
  | .convolutional p => p.sizeOut
  | .hidden p => p.sizeOut
  | .output _ => classes
  | _ => count

/-- The size behind some blocks, the first of which gets `size`. -/
def sizeBehind (size : UInt32) (before : List Node) : UInt32 :=
  before.foldl (fun size n => n.block.sizeBehind size) size

/-- The count of channels behind some blocks, the first of which gets `count`. -/
def countBehind (classes count : UInt32) (before : List Node) : UInt32 :=
  before.foldl (fun count n => n.block.countBehind classes count) count

/-- The layer that a block becomes when a count of channels comes to it. -/
def Block.layer? (classes count : UInt32) : Block → Option Layer
  | .input p => some (.input p.sizeIn)
  | .convolutional p => some (.convolution count p.sizeOut p.kernelSize p.padding .relu)
  | .pooling p => some (.pooling p.kernelSize p.stride)
  | .hidden p => some (.dense count p.sizeOut p.activation)
  | .output _ => some (.dense count classes .softmax)
  | _ => none

/-- What emission asks of a block behind others. -/
structure Fits (classes : UInt32) (flow : Flow) (before : List Node) (n : Node) : Prop where
  pooling : ∀ p, n.block = .pooling p →
    p.kernelSize ≠ 0 ∧ p.stride ≠ 0 ∧ sizeBehind flow.size before / p.kernelSize ≠ 0
  features : n.isLayer = true → countBehind classes flow.channels (before ++ [n]) ≠ 0

/-- Each block fits behind the blocks before it. -/
def AllFit (classes : UInt32) (flow : Flow) (ns : List Node) : Prop :=
  ∀ before n after, ns = before ++ n :: after → Fits classes flow before n

/-- What is wrong with a block that does not fit. -/
def Block.fault (size : UInt32) : Block → LayerFault
  | .pooling p =>
    if p.kernelSize = 0 ∨ p.stride = 0 then .poolingNotPositive
    else if size / p.kernelSize = 0 then .sizeCollapse
    else .noFeatures
  | _ => .noFeatures

/-- The kind of a block that becomes a layer. -/
def Node.layerKind? (n : Node) : Option Kind := n.kind?.filter (·.isLayer)

/-- The entry of a block behind layers of some kinds. -/
def Node.entry? (classes count : UInt32) (kinds : List Kind) (n : Node) :
    Option (String × Layer) := do
  let k ← n.layerKind?
  return (k.layerKey (kinds.count k + 1), ← n.block.layer? classes count)

/-- What runs along behind a block. -/
def Flow.behind (classes : UInt32) (flow : Flow) (b : Block) : Flow :=
  ⟨b.countBehind classes flow.channels, b.sizeBehind flow.size⟩

/-- The entries of blocks that fit. -/
def entries (classes : UInt32) : (kinds : List Kind) → Flow → List Node → List (String × Layer)
  | _, _, [] => []
  | kinds, flow, n :: ns => (n.entry? classes flow.channels kinds).toList ++
      entries classes (n.layerKind?.toList ++ kinds) (flow.behind classes n.block) ns

def kindsBehind (kinds : List Kind) (before : List Node) : List Kind :=
  before.foldl (fun kinds n => n.layerKind?.toList ++ kinds) kinds

def flowBehind (classes : UInt32) (flow : Flow) (before : List Node) : Flow :=
  before.foldl (fun flow n => flow.behind classes n.block) flow

section

variable {classes : UInt32} {kinds : List Kind} {flow : Flow} {n m : Node}
  {before after ns : List Node} {layers : List (String × Layer)}

theorem fits_cons : Fits classes flow (n :: before) m ↔
    Fits classes (flow.behind classes n.block) before m :=
  ⟨fun h => ⟨h.pooling, h.features⟩, fun h => ⟨h.pooling, h.features⟩⟩

theorem allFit_cons : AllFit classes flow (n :: ns) ↔
    Fits classes flow [] n ∧ AllFit classes (flow.behind classes n.block) ns := by
  constructor
  · intro h
    refine ⟨h [] n ns rfl, ?_⟩
    rintro before m after rfl
    exact fits_cons.mp (h (n :: before) m after rfl)
  · rintro ⟨hn, hns⟩ before m after hsplit
    cases before with
    | nil =>
      obtain ⟨rfl, rfl⟩ := List.cons.inj hsplit
      exact hn
    | cons x before =>
      obtain ⟨rfl, rfl⟩ := List.cons.inj hsplit
      exact fits_cons.mpr (hns before m after rfl)

theorem Node.isSome_layerKind? (n : Node) : n.layerKind?.isSome = n.isLayer := by
  unfold layerKind? kind? isLayer
  cases n.block <;> rfl

theorem Block.isSome_layer? (b : Block) (classes count : UInt32) :
    (b.layer? classes count).isSome = b.isLayer := by
  cases b <;> rfl

theorem Flow.behind_of_not_isLayer (hn : n.isLayer = false) :
    flow.behind classes n.block = flow := by
  unfold Node.isLayer at hn
  cases hb : n.block with
  | input _ | hidden _ | output _ | convolutional _ | pooling _ => rw [hb] at hn; cases hn
  | _ => rfl

/-- A block that fits becomes its layer, or is passed over. -/
theorem emit_of_fits (hfits : Fits classes flow [] n) :
    n.block.emit classes flow = .ok (do
      return (← n.layerKind?, ← n.block.layer? classes flow.channels,
        flow.behind classes n.block)) := by
  unfold Node.layerKind? Node.kind?
  cases hb : n.block with
  | pooling p =>
    obtain ⟨hkernel, hstride, hsize⟩ := hfits.pooling p hb
    change flow.size / p.kernelSize ≠ 0 at hsize
    simp only [Block.emit, hkernel, hstride, hsize, decide_false, Bool.or_self, Bool.false_eq_true,
      if_false]
    rfl
  | _ => rfl

/-- A block that does not fit is refused, or it becomes a layer with no channels behind it. -/
theorem emit_of_not_fits (hmisfit : ¬ Fits classes flow [] n) :
    n.block.emit classes flow = .error (n.block.fault flow.size) ∨
      n.block.fault flow.size = .noFeatures ∧ ∃ k layer flow',
        n.block.emit classes flow = .ok (some (k, layer, flow')) ∧ flow'.channels = 0 := by
  have hlayer : n.isLayer = true := by
    by_contra hn
    refine hmisfit ⟨?_, fun h => absurd h hn⟩
    intro p hp
    simp [Node.isLayer, hp, Block.isLayer, Block.family?, Block.kind?, Kind.family] at hn
  unfold Node.isLayer at hlayer
  cases hb : n.block with
  | pooling p =>
    unfold Block.fault Block.emit
    by_cases hpositive : p.kernelSize = 0 ∨ p.stride = 0
    · exact .inl (by simp [hpositive])
    by_cases hsize : flow.size / p.kernelSize = 0
    · exact .inl (by simp [hpositive, hsize])
    have hzero : flow.channels = 0 := by
      by_contra hne
      refine hmisfit ⟨?_, fun _ => ?_⟩
      · intro q hq
        obtain rfl := Block.pooling.inj (hb.symm.trans hq)
        exact ⟨fun h => hpositive (.inl h), fun h => hpositive (.inr h), hsize⟩
      · simpa [countBehind, hb, Block.countBehind] using hne
    refine .inr ⟨by simp [hpositive, hsize], .pooling, .pooling p.kernelSize p.stride,
      { flow with size := flow.size / p.kernelSize }, by simp [hpositive, hsize], hzero⟩
  | input _ | hidden _ | output _ | convolutional _ =>
    have hzero : n.block.countBehind classes flow.channels = 0 := by
      by_contra hne
      exact hmisfit ⟨fun p hp => absurd (hb.symm.trans hp) nofun, fun _ => hne⟩
    rw [hb] at hzero
    exact .inr ⟨rfl, _, _, _, rfl, hzero⟩
  | _ => rw [hb] at hlayer; cases hlayer

theorem emitLayers_cons_of_fits (hfits : Fits classes flow [] n) (kinds : List Kind)
    (ns : List Node) :
    emitLayers classes kinds flow (n :: ns) =
      ((n.entry? classes flow.channels kinds).toList ++ ·) <$>
        emitLayers classes (n.layerKind?.toList ++ kinds) (flow.behind classes n.block) ns := by
  have hkind := n.isSome_layerKind?
  have hlayer := n.block.isSome_layer? classes flow.channels
  rw [emitLayers, emit_of_fits hfits]
  unfold Node.entry?
  cases hk : n.layerKind? with
  | none =>
    have hn : n.isLayer = false := by simpa [hk] using hkind.symm
    simp [Flow.behind_of_not_isLayer hn]
  | some k =>
    have hn : n.isLayer = true := by simpa [hk] using hkind.symm
    obtain ⟨layer, hl⟩ := Option.isSome_iff_exists.mp (hlayer.trans hn)
    have hchannels : (flow.behind classes n.block).channels ≠ 0 := hfits.features hn
    rw [hl]
    simp only [bind, pure, Option.bind_some, if_neg hchannels, Option.toList_some,
      List.cons_append, List.nil_append]
    cases emitLayers classes (k :: kinds) (flow.behind classes n.block) ns <;> rfl

theorem emitLayers_cons_of_not_fits (hmisfit : ¬ Fits classes flow [] n) :
    emitLayers classes kinds flow (n :: ns) =
      .error (.invalidLayer n.id (n.block.fault flow.size)) := by
  rcases emit_of_not_fits hmisfit with hemit | ⟨hfault, k, layer, flow', hemit, hzero⟩
  · rw [emitLayers, hemit]
  · rw [emitLayers, hemit, hfault]
    exact if_pos hzero

/-- What fits is emitted, and emission goes on behind it. -/
theorem emitLayers_append (hbefore : AllFit classes flow before) (kinds : List Kind)
    (after : List Node) :
    emitLayers classes kinds flow (before ++ after) = (entries classes kinds flow before ++ ·) <$>
      emitLayers classes (kindsBehind kinds before) (flowBehind classes flow before) after := by
  induction before generalizing kinds flow with
  | nil =>
    simp [entries, kindsBehind, flowBehind]
  | cons n before ih =>
    obtain ⟨hn, hbefore⟩ := allFit_cons.mp hbefore
    rw [List.cons_append, emitLayers_cons_of_fits hn, ih hbefore, ← comp_map, entries]
    congr 1
    funext layers
    simp

theorem flowBehind_eq (classes : UInt32) (flow : Flow) (before : List Node) :
    flowBehind classes flow before =
      ⟨countBehind classes flow.channels before, sizeBehind flow.size before⟩ := by
  induction before generalizing flow with
  | nil => rfl
  | cons n before ih => exact ih (flow.behind classes n.block)

theorem fits_flowBehind : Fits classes (flowBehind classes flow before) [] n ↔
    Fits classes flow before n := by
  induction before generalizing flow with
  | nil => rfl
  | cons m before ih => exact ih.trans fits_cons.symm

theorem emitLayers_of_allFit (h : AllFit classes flow ns) (kinds : List Kind) :
    emitLayers classes kinds flow ns = .ok (entries classes kinds flow ns) := by
  have h := emitLayers_append h kinds []
  rw [List.append_nil] at h
  rw [h]
  simp [emitLayers]

/-- Emission ends at the first block that does not fit. -/
theorem emitLayers_of_not_fits (hbefore : AllFit classes flow before)
    (hmisfit : ¬ Fits classes flow before n) (kinds : List Kind) (after : List Node) :
    emitLayers classes kinds flow (before ++ n :: after) =
      .error (.invalidLayer n.id (n.block.fault (sizeBehind flow.size before))) := by
  rw [emitLayers_append hbefore, emitLayers_cons_of_not_fits (fits_flowBehind.not.mpr hmisfit),
    flowBehind_eq]
  rfl

theorem Node.isSome_entry? (n : Node) (classes count : UInt32) (kinds : List Kind) :
    (n.entry? classes count kinds).isSome = n.isLayer := by
  unfold entry? layerKind? kind? isLayer
  cases n.block <;> rfl

theorem Node.entry?_eq_some {e : String × Layer} {count : UInt32}
    (h : n.entry? classes count kinds = some e) : ∃ k, n.kind? = some k ∧ k.isLayer = true ∧
      n.block.layer? classes count = some e.2 ∧ e.1 = k.layerKey (kinds.count k + 1) := by
  obtain ⟨k, hk, h⟩ := Option.bind_eq_some_iff.mp h
  obtain ⟨layer, hlayer, h⟩ := Option.bind_eq_some_iff.mp h
  obtain ⟨hk, hlayerKind⟩ := Option.filter_eq_some_iff.mp hk
  obtain rfl := Option.some.inj h
  exact ⟨k, hk, hlayerKind, hlayer, rfl⟩

theorem entries_append (classes : UInt32) (kinds : List Kind) (flow : Flow)
    (before after : List Node) :
    entries classes kinds flow (before ++ after) = entries classes kinds flow before ++
      entries classes (kindsBehind kinds before) (flowBehind classes flow before) after := by
  induction before generalizing kinds flow with
  | nil => rfl
  | cons n before ih =>
    rw [List.cons_append, entries, entries, ih, List.append_assoc]
    rfl

theorem length_entries (classes : UInt32) (kinds : List Kind) (flow : Flow) (ns : List Node) :
    (entries classes kinds flow ns).length = ns.countP (·.isLayer) := by
  induction ns generalizing kinds flow with
  | nil => rfl
  | cons n ns ih =>
    have hentry : (n.entry? classes flow.channels kinds).toList.length =
        if n.isLayer then 1 else 0 := by
      rw [← n.isSome_entry? classes flow.channels kinds]
      cases n.entry? classes flow.channels kinds <;> rfl
    rw [entries, List.length_append, ih, hentry, List.countP_cons, Nat.add_comm]

/-- Among the kinds of the layers behind some blocks, each is as often as there are blocks of it. -/
theorem count_kindsBehind {k : Kind} (hk : k.isLayer = true) (kinds : List Kind)
    (before : List Node) :
    (kindsBehind kinds before).count k = kinds.count k + before.countP (·.kind? = some k) := by
  induction before generalizing kinds with
  | nil => rfl
  | cons n before ih =>
    have hn : n.layerKind?.toList.count k = if n.kind? = some k then 1 else 0 := by
      unfold Node.layerKind?
      cases n.kind? with
      | none => rfl
      | some k' =>
        by_cases hkk : k' = k
        · simp [Option.filter, hkk, hk]
        · cases hk' : k'.isLayer <;> simp [Option.filter, hkk, hk']
    change (kindsBehind (n.layerKind?.toList ++ kinds) before).count k = _
    rw [ih, List.count_append, hn, List.countP_cons]
    simp only [decide_eq_true_eq]
    omega

/-- The entry of a layer stands behind those of the layers before it. -/
theorem getElem?_entries (hn : n.isLayer = true) (classes : UInt32) (flow : Flow)
    (before after : List Node) :
    ∃ k layer, n.kind? = some k ∧
      n.block.layer? classes (countBehind classes flow.channels before) = some layer ∧
      (entries classes [] flow (before ++ n :: after))[before.countP (·.isLayer)]? =
        some (k.layerKey (before.countP (·.kind? = some k) + 1), layer) := by
  have hsome := n.isSome_entry? classes (countBehind classes flow.channels before)
    (kindsBehind [] before)
  obtain ⟨e, he⟩ := Option.isSome_iff_exists.mp (hsome.trans hn)
  obtain ⟨k, hk, hlayer, he2, he1⟩ := Node.entry?_eq_some he
  rw [count_kindsBehind hlayer, List.count_nil, Nat.zero_add] at he1
  refine ⟨k, e.2, hk, he2, ?_⟩
  rw [entries_append, ← length_entries classes [] flow before, List.getElem?_append_right le_rfl,
    Nat.sub_self, entries, flowBehind_eq, he, ← he1]
  rfl

theorem allFit_of_not_isLayer (hns : ∀ n ∈ ns, n.isLayer = false) : AllFit classes flow ns := by
  rintro before n after rfl
  have hn : n.isLayer = false := hns n (by simp)
  refine ⟨?_, fun h => absurd h (by simp [hn])⟩
  intro p hp
  simp [Node.isLayer, hp, Block.isLayer, Block.family?, Block.kind?, Kind.family] at hn

/-- Emits layers into a map, with a counter of 32 bits for each kind. -/
def emitCounted (classes : UInt32) : (counts : Kind → UInt32) → (out : List (String × Layer)) →
    Flow → List Node → Except CompileError (List (String × Layer))
  | _, out, _, [] => .ok out
  | counts, out, flow, n :: ns =>
    match n.block.emit classes flow with
    | .error fault => .error (.invalidLayer n.id fault)
    | .ok none => emitCounted classes counts out flow ns
    | .ok (some (k, layer, flow)) =>
      let number := counts k + 1
      let out := putLayer (k.layerKey number.toNat) layer out
      if flow.channels = 0 then .error (.invalidLayer n.id .noFeatures)
      else emitCounted classes (Function.update counts k number) out flow ns

theorem Block.kind?_of_emit {b : Block} {k : Kind} {layer : Layer} {flow' : Flow}
    (h : b.emit classes flow = .ok (some (k, layer, flow'))) : b.kind? = some k := by
  cases b with
  | pooling p =>
    unfold emit at h
    dsimp only at h
    split at h
    · cases h
    split at h
    · cases h
    cases h
    rfl
  | _ => cases h <;> rfl

/-- No counter overflows when there are not too many blocks of its kind. -/
theorem emitCounted_eq_emitKeyed {counts : Kind → UInt32} {out : List (String × Layer)}
    (hcounts : ∀ k, (counts k).toNat + ns.countP (·.kind? = some k) < 2 ^ 32) :
    emitCounted classes counts out flow ns =
      emitKeyed classes (fun k => (counts k).toNat) out flow ns := by
  induction ns generalizing counts out flow with
  | nil => rfl
  | cons n ns ih =>
    have hrest : ∀ k, (counts k).toNat + ns.countP (·.kind? = some k) < 2 ^ 32 := fun k =>
      (Nat.add_le_add_left (List.sublist_cons_self n ns).countP_le _).trans_lt (hcounts k)
    rw [emitCounted, emitKeyed]
    cases hemit : n.block.emit classes flow with
    | error fault => rfl
    | ok emitted =>
      cases emitted with
      | none => exact ih hrest
      | some e =>
        obtain ⟨k, layer, flow'⟩ := e
        dsimp only
        have hk : n.kind? = some k := Block.kind?_of_emit hemit
        have hnumber : (counts k + 1).toNat = (counts k).toNat + 1 := by
          have hlt := hcounts k
          rw [List.countP_cons_of_pos (by simpa using hk)] at hlt
          rw [UInt32.toNat_add]
          exact Nat.mod_eq_of_lt (by change _ + 1 < _; omega)
        rw [hnumber]
        split
        · rfl
        · have hupdate : (fun k' => (Function.update counts k (counts k + 1) k').toNat) =
              Function.update (fun k' => (counts k').toNat) k ((counts k).toNat + 1) := by
            funext k'
            rw [Function.update_apply, Function.update_apply, apply_ite UInt32.toNat, hnumber]
          rw [ih, hupdate]
          intro k'
          have hlt := hcounts k'
          rw [List.countP_cons] at hlt
          rw [Function.update_apply]
          by_cases hkk : k' = k
          · rw [hkk, if_pos (by simpa using hk)] at hlt
            rw [if_pos hkk, hnumber, hkk]
            omega
          · rw [if_neg hkk]
            exact hrest k'

/-- No layer finds a key that is taken. -/
theorem emitKeyed_eq_emitLayers (classes : UInt32) (flow : Flow) (ns : List Node) :
    emitKeyed classes (fun _ => 0) [] flow ns = emitLayers classes [] flow ns := by
  have hkeyed := emitKeyed_eq classes [] [] flow ns
  simp only [List.count_nil] at hkeyed
  rw [hkeyed]
  cases hemit : emitLayers classes [] flow ns with
  | error e => rfl
  | ok layers =>
    obtain ⟨-, hkeys⟩ := keys_emitLayers hemit
    rw [← List.nil_append layers] at hkeys
    exact congrArg Except.ok (foldl_putLayer hkeys)

end

section Models

variable {ns : List Node} {training : Training} {shape : ShapeConfig}

theorem compileLayers_of_validate_eq_error {e : GraphError} (h : training.validate = .error e) :
    compileLayers ns training shape = .error (.graph e) := by
  unfold compileLayers
  rw [h]
  rfl

theorem compileLayers_of_validate (h : training.validate = .ok ()) :
    compileLayers ns training shape = (emitLayers shape.outputClasses [] shape.flow ns).bind
      fun layers => if layers.isEmpty then .error .noLayers else .ok { layers, training } := by
  unfold compileLayers
  rw [h]
  change (emitLayers shape.outputClasses [] shape.flow ns).bind _ = _
  cases emitLayers shape.outputClasses [] shape.flow ns with
  | error e => rfl
  | ok layers => cases layers <;> rfl

theorem compileLayers_of_not_isLayer (h : training.validate = .ok ())
    (hnone : ∀ n ∈ ns, n.isLayer = false) : compileLayers ns training shape = .error .noLayers := by
  have hentries : entries shape.outputClasses [] shape.flow ns = [] := by
    rw [← List.length_eq_zero_iff, length_entries, List.countP_eq_zero]
    simpa using hnone
  rw [compileLayers_of_validate h, emitLayers_of_allFit (allFit_of_not_isLayer hnone), hentries]
  rfl

theorem compileLayers_of_allFit (h : training.validate = .ok ())
    (hlayer : ∃ n ∈ ns, n.isLayer = true) (hfit : AllFit shape.outputClasses shape.flow ns) :
    compileLayers ns training shape =
      .ok { layers := entries shape.outputClasses [] shape.flow ns, training } := by
  have hne : entries shape.outputClasses [] shape.flow ns ≠ [] := by
    rw [ne_eq, ← List.length_eq_zero_iff, length_entries, List.countP_eq_zero]
    simpa using hlayer
  rw [compileLayers_of_validate h, emitLayers_of_allFit hfit]
  exact if_neg (by simpa using hne)

theorem compileLayers_of_not_fits {before : List Node} {n : Node} (h : training.validate = .ok ())
    (hbefore : AllFit shape.outputClasses shape.flow before)
    (hmisfit : ¬ Fits shape.outputClasses shape.flow before n) (after : List Node) :
    compileLayers (before ++ n :: after) training shape = .error
      (.invalidLayer n.id (n.block.fault (sizeBehind shape.initialSpatialSize before))) := by
  rw [compileLayers_of_validate h, emitLayers_of_not_fits hbefore hmisfit]
  rfl

theorem exists_compileLayers_eq_ok_iff : (∃ m, compileLayers ns training shape = .ok m) ↔
    training.validate = .ok () ∧ (∃ n ∈ ns, n.isLayer = true) ∧
      AllFit shape.outputClasses shape.flow ns := by
  constructor
  · rintro ⟨m, hm⟩
    obtain ⟨hvalid, -, -, -⟩ := compileLayers_eq_ok hm
    refine ⟨hvalid, ?_, ?_⟩
    · by_contra hnone
      push Not at hnone
      rw [compileLayers_of_not_isLayer hvalid (by simpa using hnone)] at hm
      cases hm
    · rcases forall_or_exists_first (Fits shape.outputClasses shape.flow) ns with
        hfit | ⟨before, n, after, rfl, hbefore, hmisfit⟩
      · exact hfit
      · rw [compileLayers_of_not_fits hvalid hbefore hmisfit] at hm
        cases hm
  · rintro ⟨hvalid, hlayer, hfit⟩
    exact ⟨_, compileLayers_of_allFit hvalid hlayer hfit⟩

/-- A layer that counts what it takes takes the count that comes to it. -/
theorem Block.inputCount?_of_layer? {b : Block} {classes count i : UInt32} {layer : Layer}
    (h : b.layer? classes count = some layer) (hi : layer.inputCount? = some i) : i = count := by
  cases b with
  | convolutional _ | hidden _ | output _ =>
    obtain rfl := Option.some.inj h
    exact (Option.some.inj hi).symm
  | input _ | pooling _ =>
    obtain rfl := Option.some.inj h
    cases hi
  | _ => cases h

/--
Emission succeeds just when the settings of the training are valid, there is a layer, and each block
fits behind those before it. Otherwise the settings are refused first, then the first block that
does not fit, then that there is no layer. Emission into a map is the same: there is one entry for each
layer, in order, each under a key of its own, which has the number of the layer among those of its
kind (counters of 32 bits are enough for less than 2^32 of them); and a layer takes the count of
channels that runs along before it.
-/
theorem compileLayers_emits (ns : List Node) (training : Training) (shape : ShapeConfig) :
    ((∃ m, compileLayers ns training shape = .ok m) ↔ training.validate = .ok () ∧
      (∃ n ∈ ns, n.isLayer = true) ∧ AllFit shape.outputClasses shape.flow ns) ∧
    (∀ e, training.validate = .error e →
      compileLayers ns training shape = .error (.graph e)) ∧
    (training.validate = .ok () →
      (¬ AllFit shape.outputClasses shape.flow ns → ∃ before n after, ns = before ++ n :: after ∧
        AllFit shape.outputClasses shape.flow before ∧
        ¬ Fits shape.outputClasses shape.flow before n ∧
        compileLayers ns training shape = .error
          (.invalidLayer n.id (n.block.fault (sizeBehind shape.initialSpatialSize before)))) ∧
      ((∀ n ∈ ns, n.isLayer = false) →
        compileLayers ns training shape = .error .noLayers)) ∧
    ((∀ k, ns.countP (·.kind? = some k) < 2 ^ 32) →
      emitCounted shape.outputClasses (fun _ => 0) [] shape.flow ns =
        emitLayers shape.outputClasses [] shape.flow ns) ∧
    ∀ m, compileLayers ns training shape = .ok m →
      m.training = training ∧ m.classes = [] ∧ m.names.Nodup ∧
      m.layers.length = ns.countP (·.isLayer) ∧
      emitKeyed shape.outputClasses (fun _ => 0) [] shape.flow ns = .ok m.layers ∧
      ∀ before n after, ns = before ++ n :: after → n.isLayer = true →
        let count := countBehind shape.outputClasses shape.inputChannels before
        ∃ k layer, n.kind? = some k ∧ n.block.layer? shape.outputClasses count = some layer ∧
          (∀ i, layer.inputCount? = some i → i = count) ∧
          m.layers[before.countP (·.isLayer)]? =
            some (k.layerKey (before.countP (·.kind? = some k) + 1), layer) := by
  refine ⟨exists_compileLayers_eq_ok_iff, fun e => compileLayers_of_validate_eq_error, ?_, ?_, ?_⟩
  · intro hvalid
    refine ⟨?_, compileLayers_of_not_isLayer hvalid⟩
    intro hmisfit
    rcases forall_or_exists_first (Fits shape.outputClasses shape.flow) ns with
      hfit | ⟨before, n, after, rfl, hbefore, hn⟩
    · exact absurd hfit hmisfit
    · exact ⟨before, n, after, rfl, hbefore, hn, compileLayers_of_not_fits hvalid hbefore hn after⟩
  · intro hcounts
    have hzero : ∀ k, ((fun _ => 0 : Kind → UInt32) k).toNat + ns.countP (·.kind? = some k) <
        2 ^ 32 := by simpa using hcounts
    exact (emitCounted_eq_emitKeyed hzero).trans (emitKeyed_eq_emitLayers _ _ _)
  · intro m hm
    obtain ⟨hvalid, hlayer, hfit⟩ := exists_compileLayers_eq_ok_iff.mp ⟨m, hm⟩
    obtain ⟨-, -, hemit, -⟩ := compileLayers_eq_ok hm
    rw [compileLayers_of_allFit hvalid hlayer hfit] at hm
    obtain rfl := Except.ok.inj hm
    refine ⟨rfl, rfl, (keys_emitLayers hemit).2, length_entries _ _ _ _,
      (emitKeyed_eq_emitLayers _ _ _).trans hemit, ?_⟩
    rintro before n after rfl hn
    obtain ⟨k, layer, hk, hl, hentry⟩ :=
      getElem?_entries hn shape.outputClasses shape.flow before after
    exact ⟨k, layer, hk, hl, fun i => Block.inputCount?_of_layer? hl, hentry⟩

/-- Two convolutions with a control block and a pooling block between them, and what is behind. -/
def layered : List Node :=
  [.new ⟨"a"⟩ 0 (.convolutional ⟨3, 8, 3, 1⟩), .new ⟨"start"⟩ 0 .start,
   .new ⟨"p"⟩ 1 (.pooling ⟨8, 2, 2, .max⟩), .new ⟨"b"⟩ 2 (.convolutional ⟨8, 16, 3, 1⟩),
   .new ⟨"in"⟩ 0 (.input ⟨2, 4⟩), .new ⟨"out"⟩ 1 (.output ⟨4, 4⟩)]

/-- A kernel of three is too wide for the side that the input layer sets. -/
theorem compileLayers_emits_layered :
    let shape : ShapeConfig := { initialSpatialSize := 4 }
    let wide : Node := .new ⟨"q"⟩ 3 (.pooling ⟨16, 3, 1, .max⟩)
    AllFit shape.outputClasses shape.flow layered ∧
    (∃ m, compileLayers layered {} shape = .ok m ∧ m.layers.length = 5 ∧
      m.layers[2]? = some ("conv2", .convolution 8 16 3 1 .relu)) ∧
    ¬ AllFit shape.outputClasses shape.flow (layered ++ [wide]) ∧
    compileLayers (layered ++ [wide]) {} shape = .error (.invalidLayer ⟨"q"⟩ .sizeCollapse) := by
  intro shape wide
  let m : Model :=
    { layers := [("conv1", .convolution 3 8 3 1 .relu), ("pool1", .pooling 2 2),
        ("conv2", .convolution 8 16 3 1 .relu), ("fcl_input1", .input 2),
        ("fcl_output1", .dense 16 10 .softmax)]
      training := {} }
  have hm : compileLayers layered {} shape = .ok m := by decide +kernel
  have herror : compileLayers (layered ++ [wide]) {} shape =
      .error (.invalidLayer ⟨"q"⟩ .sizeCollapse) := by decide +kernel
  obtain ⟨hok, -, -, -, hmodel⟩ := compileLayers_emits layered {} shape
  obtain ⟨hok', -, -, -, -⟩ := compileLayers_emits (layered ++ [wide]) {} shape
  obtain ⟨hvalid, hlayer, hfit⟩ := hok.mp ⟨m, hm⟩
  obtain ⟨-, -, -, hlength, -, hentries⟩ := hmodel m hm
  refine ⟨hfit, ⟨m, hm, hlength, ?_⟩, ?_, herror⟩
  · obtain ⟨k, layer, hk, hl, -, hentry⟩ := hentries (layered.take 3) _ (layered.drop 4) rfl rfl
    obtain rfl := Option.some.inj hk
    obtain rfl := Option.some.inj hl
    exact hentry
  · intro hall
    have hlayer' : ∃ n ∈ layered ++ [wide], n.isLayer = true :=
      hlayer.imp fun n hn => ⟨List.mem_append_left _ hn.1, hn.2⟩
    obtain ⟨m', hm'⟩ := hok'.mpr ⟨hvalid, hlayer', hall⟩
    rw [herror] at hm'
    cases hm'

end Models

end LayerGraph
