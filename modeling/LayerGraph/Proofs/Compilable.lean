import LayerGraph.Proofs.Emitted
import LayerGraph.Proofs.Narrowed

namespace LayerGraph

/-- The side that an input layer sets. -/
def Block.side? : Block → Option UInt32
  | .input p => some p.sizeIn
  | _ => none

/-- The side that was set last. -/
def sideBehind (size : UInt32) (before : List Node) : UInt32 :=
  (before.filterMap (·.block.side?)).getLast?.getD size

/-- The kernels of the pooling blocks since a side was set, one inside the other. -/
def kernelBehind (before : List Node) : Nat :=
  (((before.rtakeWhile (·.block.side?.isNone)).filterMap (·.block.pooling?)).map
    (·.kernelSize.toNat)).prod

/-- The kernels since a side was set, with that of the pooling block, are within the side. -/
def PoolingFits (size : UInt32) (before : List Node) (p : Pooling) : Prop :=
  kernelBehind before * p.kernelSize.toNat ≤ (sideBehind size before).toNat

/-- Each pooling block fits behind the blocks before it. -/
def PoolingsFit (size : UInt32) (ns : List Node) : Prop :=
  ∀ before n after p, ns = before ++ n :: after → n.block = .pooling p →
    PoolingFits size before p

variable {size : UInt32} {n : Node} {p : Pooling} {before ns : List Node}

theorem sizeBehind_concat (size : UInt32) (before : List Node) (n : Node) :
    sizeBehind size (before ++ [n]) = n.block.sizeBehind (sizeBehind size before) := by
  unfold sizeBehind
  rw [List.foldl_append]
  rfl

theorem sideBehind_concat (size : UInt32) (before : List Node) (n : Node) :
    sideBehind size (before ++ [n]) = n.block.side?.getD (sideBehind size before) := by
  unfold sideBehind
  rw [List.filterMap_append]
  cases hs : n.block.side? with
  | none => simp [hs]
  | some s => simp [hs]

theorem kernelBehind_concat (before : List Node) (n : Node) :
    kernelBehind (before ++ [n]) = if n.block.side?.isNone then
      kernelBehind before * (n.block.pooling?.elim 1 (·.kernelSize.toNat)) else 1 := by
  unfold kernelBehind
  rw [List.rtakeWhile_concat]
  split
  · cases hp : n.block.pooling? <;> simp [hp]
  · rfl

/-- Dividing by one kernel after the other is dividing by all of them at once. -/
theorem toNat_sizeBehind (size : UInt32) (before : List Node) :
    (sizeBehind size before).toNat = (sideBehind size before).toNat / kernelBehind before := by
  induction before using List.reverseRecOn with
  | nil => simp [sizeBehind, sideBehind, kernelBehind]
  | append_singleton before n ih =>
    rw [sizeBehind_concat, sideBehind_concat, kernelBehind_concat]
    cases n.block with
    | input p => simp [Block.sizeBehind, Block.side?]
    | pooling p =>
      simp [Block.sizeBehind, Block.side?, Block.pooling?, UInt32.toNat_div, ih,
        Nat.div_div_eq_div_mul]
    | _ => simp [Block.sizeBehind, Block.side?, Block.pooling?, ih]

theorem kernelBehind_pos (hdomain : ∀ n ∈ before, n.block.InDomain) : 0 < kernelBehind before := by
  apply List.prod_pos
  intro k hk
  obtain ⟨p, hp, rfl⟩ := List.mem_map.mp hk
  obtain ⟨n, hn, hnp⟩ := List.mem_filterMap.mp hp
  have hdomain := hdomain n ((List.rtakeWhile_suffix _ _).subset hn)
  rw [Block.pooling?_eq_some_iff.mp hnp] at hdomain
  exact UInt32.le_iff_toNat_le.mp hdomain.2.1

/-- A pooling block fits just when something is left behind it. -/
theorem poolingFits_iff (hdomain : ∀ n ∈ before, n.block.InDomain) (hp : 1 ≤ p.kernelSize) :
    PoolingFits size before p ↔ sizeBehind size before / p.kernelSize ≠ 0 := by
  have hpos := Nat.mul_pos (kernelBehind_pos hdomain) (UInt32.le_iff_toNat_le.mp hp)
  rw [ne_eq, ← UInt32.toNat_inj, UInt32.toNat_div, toNat_sizeBehind, Nat.div_div_eq_div_mul]
  unfold PoolingFits
  rw [← Nat.div_pos_iff.trans (and_iff_right hpos)]
  exact Nat.pos_iff_ne_zero

theorem exists_first_misfit (h : ¬ PoolingsFit size ns) :
    ∃ before n after p, ns = before ++ n :: after ∧ n.block = .pooling p ∧
      PoolingsFit size before ∧ ¬ PoolingFits size before p := by
  rcases forall_or_exists_first
      (fun before n => ∀ p, n.block = .pooling p → PoolingFits size before p) ns with
    hall | ⟨before, n, after, rfl, hbefore, hn⟩
  · exact absurd (fun before n after p hs => hall before n after hs p) h
  · push Not at hn
    obtain ⟨p, hp, hfit⟩ := hn
    exact ⟨before, n, after, p, rfl, hp, fun b m c q hs => hbefore b m c hs q, hfit⟩

/-- What emission asks of a block: it is a layer, and its parameters are in their domains. -/
structure Node.Emits (n : Node) : Prop where
  isLayer : n.isLayer = true
  inDomain : n.block.InDomain

theorem Block.one_le_countBehind {classes count : UInt32} {b : Block} (hb : b.InDomain)
    (hclasses : 1 ≤ classes) (hcount : 1 ≤ count) : 1 ≤ b.countBehind classes count := by
  cases b with
  | convolutional p => exact hb.2.1
  | hidden p => exact hb.2
  | output p => exact hclasses
  | _ => exact hcount

theorem one_le_countBehind {classes count : UInt32} (hclasses : 1 ≤ classes) (hcount : 1 ≤ count)
    (hdomain : ∀ n ∈ before, n.block.InDomain) : 1 ≤ countBehind classes count before := by
  induction before generalizing count with
  | nil => exact hcount
  | cons n before ih =>
    obtain ⟨hn, hdomain⟩ := List.forall_mem_cons.mp hdomain
    exact ih (Block.one_le_countBehind hn hclasses hcount) hdomain

section Emission

variable {classes : UInt32} {kinds : List Kind} {flow : Flow}

/-- A block in its domain fits when the size that comes to it is enough. -/
theorem fits_iff_poolingFits (hclasses : 1 ≤ classes) (hflow : 1 ≤ flow.channels)
    (hdomain : ∀ m ∈ before, m.block.InDomain) (hn : n.block.InDomain) :
    Fits classes flow before n ↔ ∀ p, n.block = .pooling p → PoolingFits flow.size before p := by
  constructor
  · intro h p hp
    have hkernel : 1 ≤ p.kernelSize := (hp ▸ hn).2.1
    exact (poolingFits_iff hdomain hkernel).mpr (h.pooling p hp).2.2
  · intro h
    constructor
    · intro p hp
      obtain ⟨-, hkernel, hstride⟩ : (Block.pooling p).InDomain := hp ▸ hn
      exact ⟨one_le_iff_ne_zero.mp hkernel, one_le_iff_ne_zero.mp hstride,
        (poolingFits_iff hdomain hkernel).mp (h p hp)⟩
    · intro _
      have hall : ∀ m ∈ before ++ [n], m.block.InDomain := by
        intro m hm
        rcases List.mem_append.mp hm with hm | hm
        · exact hdomain m hm
        · exact List.mem_singleton.mp hm ▸ hn
      exact one_le_iff_ne_zero.mp (one_le_countBehind hclasses hflow hall)

theorem allFit_of_poolingsFit (hclasses : 1 ≤ classes) (hflow : 1 ≤ flow.channels)
    (hemits : ∀ n ∈ ns, n.Emits) (hfit : PoolingsFit flow.size ns) : AllFit classes flow ns := by
  rintro before n after rfl
  have hdomain : ∀ m ∈ before, m.block.InDomain := fun m hm => (hemits m (by simp [hm])).inDomain
  exact (fits_iff_poolingFits hclasses hflow hdomain (hemits n (by simp)).inDomain).mpr fun p =>
    hfit before n after p rfl

theorem exists_emitLayers_eq_ok (kinds : List Kind) (hclasses : 1 ≤ classes)
    (hflow : 1 ≤ flow.channels) (hemits : ∀ n ∈ ns, n.Emits) (hfit : PoolingsFit flow.size ns) :
    ∃ layers, emitLayers classes kinds flow ns = .ok layers ∧ layers.length = ns.length := by
  refine ⟨_, emitLayers_of_allFit (allFit_of_poolingsFit hclasses hflow hemits hfit) kinds, ?_⟩
  rw [length_entries, List.countP_eq_length]
  exact fun n hn => (hemits n hn).isLayer

/-- Emission ends at the first pooling block that does not fit. -/
theorem emitLayers_of_misfit (hclasses : 1 ≤ classes) (hflow : 1 ≤ flow.channels)
    (hemits : ∀ m ∈ before, m.Emits) (hfit : PoolingsFit flow.size before)
    (hdomain : n.block.InDomain) (hn : n.block = .pooling p)
    (hmisfit : ¬ PoolingFits flow.size before p) (after : List Node) :
    emitLayers classes kinds flow (before ++ n :: after) =
      .error (.invalidLayer n.id .sizeCollapse) := by
  have hbefore : ∀ m ∈ before, m.block.InDomain := fun m hm => (hemits m hm).inDomain
  have hnot : ¬ Fits classes flow before n := by
    rw [fits_iff_poolingFits hclasses hflow hbefore hdomain]
    exact fun h => hmisfit (h p hn)
  obtain ⟨-, hkernel, hstride⟩ : (Block.pooling p).InDomain := hn ▸ hdomain
  have hnone : sizeBehind flow.size before / p.kernelSize = 0 :=
    not_not.mp (mt (poolingFits_iff hbefore hkernel).mpr hmisfit)
  rw [emitLayers_of_not_fits (allFit_of_poolingsFit hclasses hflow hemits hfit) hnot, hn]
  simp [Block.fault, one_le_iff_ne_zero.mp hkernel, one_le_iff_ne_zero.mp hstride, hnone]

end Emission

section Check

variable {dim kernel stride : UInt32} {ps qs : List Pooling}

theorem positions_le_of_one_le (hkernel : 1 ≤ kernel) :
    positions dim.toNat kernel.toNat stride.toNat ≤ dim.toNat := by
  have hk : 1 ≤ kernel.toNat := UInt32.le_iff_toNat_le.mp hkernel
  exact positions_le_iff.mpr fun hzero => absurd hzero (Nat.one_le_iff_ne_zero.mp hk)

theorem toNat_reduceDim_le (hkernel : 1 ≤ kernel) :
    (reduceDim dim kernel stride).toNat ≤ dim.toNat := by
  rw [toNat_reduceDim (positions_le_of_one_le hkernel)]
  exact positions_le_of_one_le hkernel

/-- Windows that do not overlap fill no more than the side. -/
theorem mul_toNat_reduceDim_le (hkernel : 1 ≤ kernel) (hapart : kernel ≤ stride) :
    kernel.toNat * (reduceDim dim kernel stride).toNat ≤ dim.toNat := by
  have hk : 1 ≤ kernel.toNat := UInt32.le_iff_toNat_le.mp hkernel
  have hs : kernel.toNat ≤ stride.toNat := UInt32.le_iff_toNat_le.mp hapart
  rw [toNat_reduceDim (positions_le_of_one_le hkernel)]
  unfold positions
  split
  · exact Nat.zero_le _
  · rename_i hle
    have hdiv : (dim.toNat - kernel.toNat) / max stride.toNat 1 ≤
        (dim.toNat - kernel.toNat) / kernel.toNat :=
      Nat.div_le_div_left (hs.trans (Nat.le_max_left _ _)) hk
    have hmul := Nat.mul_div_le (dim.toNat - kernel.toNat) kernel.toNat
    calc kernel.toNat * ((dim.toNat - kernel.toNat) / max stride.toNat 1 + 1)
        ≤ kernel.toNat * ((dim.toNat - kernel.toNat) / kernel.toNat + 1) :=
          Nat.mul_le_mul_left _ (Nat.succ_le_succ hdiv)
      _ ≤ dim.toNat := by rw [Nat.mul_succ]; omega

/-- The pooling blocks that are met fit in what the check finds behind all of the family. -/
theorem prod_kernels_mul_le (dim : UInt32) (hsub : ps.Sublist qs)
    (hdomain : ∀ q ∈ qs, 1 ≤ q.kernelSize)
    (hapart : ∀ p ∈ ps, p.kernelSize ≤ p.stride) :
    (ps.map (·.kernelSize.toNat)).prod *
      (qs.foldl (fun dim p => reduceDim dim p.kernelSize p.stride) dim).toNat ≤ dim.toNat := by
  induction hsub generalizing dim with
  | slnil => simp
  | cons q _ ih =>
    obtain ⟨hq, hdomain⟩ := List.forall_mem_cons.mp hdomain
    exact (ih _ hdomain hapart).trans (toNat_reduceDim_le hq)
  | cons_cons q _ ih =>
    obtain ⟨hq, hdomain⟩ := List.forall_mem_cons.mp hdomain
    obtain ⟨hqapart, hapart⟩ := List.forall_mem_cons.mp hapart
    rw [List.map_cons, List.prod_cons, Nat.mul_assoc, List.foldl_cons]
    exact (Nat.mul_le_mul_left _ (ih _ hdomain hapart)).trans (mul_toNat_reduceDim_le hq hqapart)

theorem foldl_reduceDim_ne_zero {conv : Option (NodeId × UInt32)}
    (h : spatialViolations conv dim ns = []) (hdim : dim ≠ 0) :
    (ns.filterMap (·.block.pooling?)).foldl
      (fun dim p => reduceDim dim p.kernelSize p.stride) dim ≠ 0 := by
  induction ns generalizing conv dim with
  | nil => exact hdim
  | cons n ns ih =>
    rw [spatialViolations_cons, List.append_eq_nil_iff, List.append_eq_nil_iff] at h
    obtain ⟨⟨-, hcollapse⟩, hrest⟩ := h
    cases hp : n.block.pooling? with
    | none =>
      rw [List.filterMap_cons_none (f := fun n : Node => n.block.pooling?) hp]
      exact ih (by simpa [Block.reduce, hp] using hrest) hdim
    | some p =>
      rw [List.filterMap_cons_some (f := fun n : Node => n.block.pooling?) hp, List.foldl_cons]
      have hleft : reduceDim dim p.kernelSize p.stride ≠ 0 := by
        intro hzero
        simp [Node.collapse?, hp, vanishes, hzero, hdim] at hcollapse
      exact ih (by simpa [Block.reduce, hp] using hrest) hleft

end Check

namespace Graph

variable {g : Graph} {c : ShapeConfig}

/-- Pooling blocks are met in the order of their family and before any input layer, and the windows
of none overlap. -/
structure FollowsFamily (g : Graph) (ns : List Node) : Prop where
  order : (ns.filterMap (·.block.pooling?)).Sublist g.poolings
  unset : ∀ before n after p, ns = before ++ n :: after → n.block = .pooling p →
    ∀ m ∈ before, m.block.side? = none
  apart : ∀ p ∈ ns.filterMap (·.block.pooling?), p.kernelSize ≤ p.stride

theorem finalSize_ne_zero (hv : g.validate c = []) (hc : c.initialSpatialSize ≠ 0) :
    g.finalSize c ≠ 0 := by
  unfold validate at hv
  simp only [List.append_eq_nil_iff, and_assoc] at hv
  exact foldl_reduceDim_ne_zero hv.2.2.2.1 hc

theorem inDomain_of_mem_poolings (hv : g.validate c = []) {p : Pooling} (hp : p ∈ g.poolings) :
    (Block.pooling p).InDomain := by
  obtain ⟨n, hn, hnp⟩ := List.mem_filterMap.mp hp
  exact Block.pooling?_eq_some_iff.mp hnp ▸
    inDomain_of_validate_eq_nil hv n (mem_nodes_of_mem_filterMap hn)

/-- Where the walk follows the family, what passes the check fits. -/
theorem FollowsFamily.poolingsFit (hf : g.FollowsFamily ns) (hv : g.validate c = [])
    (hc : c.initialSpatialSize ≠ 0) : PoolingsFit c.initialSpatialSize ns := by
  rintro before n after p rfl hp
  have hunset := hf.unset before n after p rfl hp
  have hside : sideBehind c.initialSpatialSize before = c.initialSpatialSize := by
    unfold sideBehind
    rw [List.filterMap_eq_nil_iff.mpr hunset]
    rfl
  have hsince : before.rtakeWhile (·.block.side?.isNone) = before :=
    List.rtakeWhile_eq_self_iff.mpr fun m hm => by simp [hunset m hm]
  have hmet : (before.filterMap (·.block.pooling?) ++ [p]).Sublist
      ((before ++ n :: after).filterMap (·.block.pooling?)) := by
    have hn : n.block.pooling? = some p := Block.pooling?_eq_some_iff.mpr hp
    simp [hn]
  have hmul := prod_kernels_mul_le c.initialSpatialSize (hmet.trans hf.order)
    (fun q hq => (inDomain_of_mem_poolings hv hq).2.1) fun q hq => hf.apart q (hmet.subset hq)
  have hfinal : 1 ≤ (g.finalSize c).toNat :=
    UInt32.le_iff_toNat_le.mp (one_le_iff_ne_zero.mpr (finalSize_ne_zero hv hc))
  unfold PoolingFits kernelBehind
  rw [hside, hsince]
  rw [List.map_append, List.prod_append, List.map_singleton, List.prod_singleton] at hmul
  exact (Nat.le_mul_of_pos_right _ hfinal).trans hmul

theorem trainingOr_inDomain {fallback : Training} (hv : g.validate c = [])
    (ht : fallback.validate = .ok ()) : (g.trainingOr fallback).validate = .ok () := by
  unfold trainingOr
  cases hs : g.nodes.findSome? (·.block.training?) with
  | none => exact ht
  | some t =>
    obtain ⟨n, hn, hnt⟩ := List.exists_of_findSome?_eq_some hs
    have hdomain := inDomain_of_validate_eq_nil hv n hn
    cases hb : n.block with
    | training u =>
      rw [hb] at hnt hdomain
      obtain rfl := Option.some.inj hnt
      exact Training.validate_eq_ok_iff.mpr hdomain
    | _ => simp [hb, Block.training?] at hnt

theorem emits_of_mem_layers {l : Linearization} (hv : g.validate c = [])
    (hl : g.linearize = .ok l) : ∀ n ∈ l.layers.filterMap g.node?, n.Emits := by
  intro n hn
  obtain ⟨id, hid, hidn⟩ := List.mem_filterMap.mp hn
  obtain ⟨m, hm, hlayer⟩ := exists_node?_of_mem_layers hl hid
  obtain rfl := Option.some.inj (hidn.symm.trans hm)
  exact ⟨hlayer, inDomain_of_validate_eq_nil hv n (mem_of_node? hm)⟩

theorem layers_ne_nil {l : Linearization} (hl : g.linearize = .ok l) (hne : l.layers ≠ []) :
    l.layers.filterMap g.node? ≠ [] := by
  obtain ⟨id, hid⟩ := List.exists_mem_of_ne_nil _ hne
  obtain ⟨n, hn, -⟩ := exists_node?_of_mem_layers hl hid
  exact List.ne_nil_of_mem (List.mem_filterMap.mpr ⟨id, hid, hn⟩)

theorem size_compiledShape (g : Graph) (c : ShapeConfig) :
    (g.compiledShape c).initialSpatialSize = c.initialSpatialSize := by
  unfold compiledShape
  split <;> rfl

section Compile

variable {fallback : Training} {o : CompileOptions} {l : Linearization}

/-- What compiling comes to behind a walk, when the settings are valid. -/
theorem compile_eq (hl : g.linearize = .ok l) (ht : (g.trainingOr fallback).validate = .ok ()) :
    (g.compile fallback o).map (·.model.layers) =
      (emitLayers (g.compiledShape o.shape).outputClasses []
        ⟨o.shape.inputChannels, o.shape.initialSpatialSize⟩ (l.layers.filterMap g.node?)).bind
          fun layers => if layers.isEmpty then .error .noLayers else .ok layers := by
  rw [← inputChannels_compiledShape, ← size_compiledShape g]
  unfold compile compileLayers
  rw [hl, ht]
  dsimp only [bind, Except.bind, Except.mapError]
  cases emitLayers (g.compiledShape o.shape).outputClasses []
    ⟨(g.compiledShape o.shape).inputChannels, (g.compiledShape o.shape).initialSpatialSize⟩
    (l.layers.filterMap g.node?) with
  | error e => rfl
  | ok layers => cases layers <;> rfl

theorem exists_compile_eq_ok {layers : List (String × Layer)} (hl : g.linearize = .ok l)
    (ht : (g.trainingOr fallback).validate = .ok ())
    (hemit : emitLayers (g.compiledShape o.shape).outputClasses []
      ⟨o.shape.inputChannels, o.shape.initialSpatialSize⟩ (l.layers.filterMap g.node?) =
        .ok layers)
    (hne : layers ≠ []) : ∃ r, g.compile fallback o = .ok r := by
  have hc := compile_eq (o := o) hl ht
  rw [hemit] at hc
  cases hr : g.compile fallback o with
  | ok r => exact ⟨r, rfl⟩
  | error e => simp [hr, Except.map, Except.bind, hne] at hc

theorem compile_eq_error {e : CompileError} (hl : g.linearize = .ok l)
    (ht : (g.trainingOr fallback).validate = .ok ())
    (hemit : emitLayers (g.compiledShape o.shape).outputClasses []
      ⟨o.shape.inputChannels, o.shape.initialSpatialSize⟩ (l.layers.filterMap g.node?) =
        .error e) : g.compile fallback o = .error e := by
  have hc := compile_eq (o := o) hl ht
  rw [hemit] at hc
  cases hr : g.compile fallback o with
  | ok r => simp [hr, Except.map, Except.bind] at hc
  | error e' =>
    obtain rfl := Except.error.inj (hr ▸ hc)
    rfl

/--
A graph in which nothing is wrong, and which has a walk with layers, compiles just when all pooling
blocks of the walk fit: the kernels since the last input layer, one inside the other, are within the
side that it set, or within the initial size where there is none. Else the first one that does not
fit is to blame. They fit when the walk follows the spatial family and no windows overlap.
-/
theorem compile_eq_ok_iff_poolingsFit (ht : fallback.validate = .ok ())
    (hchannels : 1 ≤ o.shape.inputChannels)
    (hclasses : 1 ≤ (g.compiledShape o.shape).outputClasses) (hv : g.validate o.shape = [])
    (hl : g.linearize = .ok l) (hne : l.layers ≠ []) :
    let size := o.shape.initialSpatialSize
    let layers := l.layers.filterMap g.node?
    ((∃ r, g.compile fallback o = .ok r) ↔ PoolingsFit size layers) ∧
    (¬ PoolingsFit size layers → ∃ before n after p, layers = before ++ n :: after ∧
      n.block = .pooling p ∧ PoolingsFit size before ∧ ¬ PoolingFits size before p ∧
      g.compile fallback o = .error (.invalidLayer n.id .sizeCollapse)) ∧
    (size ≠ 0 → g.FollowsFamily layers → PoolingsFit size layers) := by
  intro size layers
  have htraining := trainingOr_inDomain hv ht
  have hemits : ∀ n ∈ layers, n.Emits := emits_of_mem_layers hv hl
  have hmisfit : ¬ PoolingsFit size layers → ∃ before n after p, layers = before ++ n :: after ∧
      n.block = .pooling p ∧ PoolingsFit size before ∧ ¬ PoolingFits size before p ∧
      g.compile fallback o = .error (.invalidLayer n.id .sizeCollapse) := by
    intro hnot
    obtain ⟨before, n, after, p, hsplit, hp, hbefore, hfit⟩ := exists_first_misfit hnot
    refine ⟨before, n, after, p, hsplit, hp, hbefore, hfit, compile_eq_error hl htraining ?_⟩
    rw [hsplit] at hemits
    change emitLayers _ _ _ layers = _
    rw [hsplit]
    exact emitLayers_of_misfit hclasses hchannels (fun m hm => hemits m (by simp [hm])) hbefore
      (hemits n (by simp)).inDomain hp hfit after
  refine ⟨⟨?_, ?_⟩, hmisfit, fun hsize hf => hf.poolingsFit hv hsize⟩
  · rintro ⟨r, hr⟩
    by_contra hnot
    obtain ⟨_, _, _, _, -, -, -, -, herror⟩ := hmisfit hnot
    cases hr.symm.trans herror
  · intro hfit
    obtain ⟨emitted, hemit, hlength⟩ : ∃ emitted, emitLayers _ [] ⟨_, size⟩ layers = .ok emitted ∧
        emitted.length = layers.length :=
      exists_emitLayers_eq_ok [] hclasses hchannels hemits hfit
    refine exists_compile_eq_ok hl htraining hemit ?_
    exact List.ne_nil_of_length_pos (hlength ▸ List.length_pos_of_ne_nil (layers_ne_nil hl hne))

end Compile

/-- Two pooling blocks behind a convolution, with windows of two by two. -/
def pooled (stride : UInt32) : List GraphOperation :=
  [.add (.new ⟨"a"⟩ 0 (.convolutional ⟨3, 8, 3, 1⟩)),
   .add (.new ⟨"p"⟩ 1 (.pooling ⟨8, 2, stride, .max⟩)),
   .add (.new ⟨"q"⟩ 2 (.pooling ⟨8, 2, stride, .max⟩)), .add (.new ⟨"out"⟩ 0 (.output ⟨8, 4⟩)),
   .addEdge ⟨⟨"1"⟩, ⟨"a"⟩, ⟨"p"⟩⟩, .addEdge ⟨⟨"2"⟩, ⟨"p"⟩, ⟨"q"⟩⟩,
   .addEdge ⟨⟨"3"⟩, ⟨"q"⟩, ⟨"out"⟩⟩]

theorem linearize_pooled {stride : UInt32} (hs : stride = 1 ∨ stride = 2) :
    ((pooled stride).foldl GraphOperation.apply empty).linearize =
      .ok ⟨⟨"a"⟩, [⟨"a"⟩, ⟨"p"⟩, ⟨"q"⟩, ⟨"out"⟩], [], []⟩ := by
  let g := (pooled stride).foldl GraphOperation.apply empty
  have hfed : g.fedPlaceholders = [] := by
    rcases hs with rfl | rfl <;>
      exact (walk_eq_visited (n := 0) (by decide) (by decide) (by decide) (by decide)).trans
        (by decide)
  have hstart : g.findStart = .ok ⟨"a"⟩ := by
    unfold findStart startCandidates
    rw [hfed]
    rcases hs with rfl | rfl <;> decide
  have hreach : g.reach ⟨"a"⟩ = [⟨"a"⟩, ⟨"p"⟩, ⟨"q"⟩, ⟨"out"⟩] := by
    rcases hs with rfl | rfl <;>
      exact (walk_eq_visited (n := 4) (by decide) (by decide) (by decide) (by decide)).trans
        (by decide)
  unfold linearize
  rw [hstart]
  dsimp only
  rw [hreach]
  rcases hs with rfl | rfl <;> decide +kernel

/-- Windows that overlap take a side of three to two and then to one, but half of three is one, and
half of one is nothing. -/
theorem not_compile_of_validate_eq_nil :
    let g := (pooled 1).foldl GraphOperation.apply empty
    let o : CompileOptions := { shape := { initialSpatialSize := 3 } }
    g.Reachable ∧ ({} : Training).validate = .ok () ∧ 1 ≤ o.shape.inputChannels ∧
    1 ≤ (g.compiledShape o.shape).outputClasses ∧ g.validate o.shape = [] ∧
    (∃ l, g.linearize = .ok l ∧ l.layers ≠ []) ∧
    g.compile {} o = .error (.invalidLayer ⟨"q"⟩ .sizeCollapse) := by
  intro g o
  have hl := linearize_pooled (.inl rfl)
  refine ⟨⟨pooled 1, rfl⟩, by decide +kernel, by decide, by decide +kernel, by decide +kernel,
    ⟨_, hl, by decide⟩, ?_⟩
  unfold compile
  rw [hl]
  decide +kernel

theorem compile_eq_ok_iff_poolingsFit_pooled :
    let g := (pooled 2).foldl GraphOperation.apply empty
    let o : CompileOptions := { shape := { initialSpatialSize := 4 } }
    ({} : Training).validate = .ok () ∧ 1 ≤ o.shape.inputChannels ∧
    1 ≤ (g.compiledShape o.shape).outputClasses ∧ g.validate o.shape = [] ∧
    (∃ l, g.linearize = .ok l ∧ l.layers ≠ [] ∧ g.FollowsFamily (l.layers.filterMap g.node?)) ∧
    ∃ r, g.compile {} o = .ok r := by
  intro g o
  have ht : ({} : Training).validate = .ok () := by decide +kernel
  have hchannels : 1 ≤ o.shape.inputChannels := by decide
  have hclasses : 1 ≤ (g.compiledShape o.shape).outputClasses := by decide +kernel
  have hv : g.validate o.shape = [] := by decide +kernel
  have hl := linearize_pooled (.inr rfl)
  have hlayers : [⟨"a"⟩, ⟨"p"⟩, ⟨"q"⟩, ⟨"out"⟩].filterMap g.node? = g.nodes := by decide +kernel
  have hnoInput : ∀ n ∈ g.nodes, n.block.side? = none := by decide +kernel
  have hf : g.FollowsFamily ([⟨"a"⟩, ⟨"p"⟩, ⟨"q"⟩, ⟨"out"⟩].filterMap g.node?) := by
    rw [hlayers]
    refine ⟨by decide +kernel, ?_, by decide +kernel⟩
    intro before n after p hsplit _ m hm
    exact hnoInput m (by simp [hsplit, hm])
  have hiff := compile_eq_ok_iff_poolingsFit ht hchannels hclasses hv hl (by decide)
  exact ⟨ht, hchannels, hclasses, hv, ⟨_, hl, by decide, hf⟩,
    hiff.1.mpr (hiff.2.2 (by decide) hf)⟩

end Graph

end LayerGraph
