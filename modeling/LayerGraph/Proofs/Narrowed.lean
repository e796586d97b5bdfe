import LayerGraph.Proofs.Checks
import Mathlib

namespace LayerGraph

/-- The positions of a kernel along a side, with no bound on the numbers. -/
def positions (dim kernel stride : Nat) : Nat :=
  if dim < kernel then 0 else (dim - kernel) / max stride 1 + 1

/-- The sides before and behind some pooling blocks, with no bound on the numbers. -/
def sidesAlong (dim : Nat) : List Pooling → List Nat
  | [] => [dim]
  | p :: ps => dim :: sidesAlong (positions dim p.kernelSize.toNat p.stride.toNat) ps

/-- A pooling block makes a side no wider: its kernel is not zero, or its positions are apart. -/
def Pooling.Narrows (p : Pooling) (dim : UInt32) : Prop :=
  p.kernelSize = 0 → dim ≠ 0 ∧ 2 ≤ p.stride

/-- Each pooling block makes the side that comes to it no wider. -/
def Narrowing : UInt32 → List Pooling → Prop
  | _, [] => True
  | dim, p :: ps => p.Narrows dim ∧ Narrowing (reduceDim dim p.kernelSize p.stride) ps

/-- The size behind all of some pooling blocks. -/
def reduceAll (dim : UInt32) (ps : List Pooling) : UInt32 :=
  ps.foldl (fun dim p => reduceDim dim p.kernelSize p.stride) dim

instance (p : Pooling) (dim : UInt32) : Decidable (p.Narrows dim) :=
  inferInstanceAs (Decidable (p.kernelSize = 0 → dim ≠ 0 ∧ 2 ≤ p.stride))

instance Narrowing.decidable : (dim : UInt32) → (ps : List Pooling) → Decidable (Narrowing dim ps)
  | _, [] => .isTrue trivial
  | dim, p :: ps =>
    haveI := decidable (reduceDim dim p.kernelSize p.stride) ps
    inferInstanceAs (Decidable (p.Narrows dim ∧ _))

section Step

variable {dim kernel stride : UInt32} {p : Pooling}

theorem positions_le_iff {dim kernel stride : Nat} :
    positions dim kernel stride ≤ dim ↔ (kernel = 0 → dim ≠ 0 ∧ 2 ≤ stride) := by
  unfold positions
  split
  · rename_i hlt
    exact iff_of_true (Nat.zero_le _) fun hzero => absurd (hzero ▸ hlt) (Nat.not_lt_zero _)
  rcases Nat.eq_zero_or_pos kernel with rfl | hkernel
  · rcases Nat.lt_or_ge stride 2 with hstride | hstride
    · -- there is a position at each place of the side, and one behind it
      have hmax : max stride 1 = 1 := by omega
      rw [hmax, Nat.div_one]
      omega
    · have hmax : max stride 1 = stride := by omega
      have hdiv : dim / stride ≤ dim / 2 := Nat.div_le_div_left hstride Nat.two_pos
      rw [hmax, Nat.sub_zero]
      generalize dim / stride = q at hdiv ⊢
      omega
  · have hdiv : (dim - kernel) / max stride 1 ≤ dim - kernel := Nat.div_le_self _ _
    omega

/-- What is computed is what there is, unless there is one position more than numbers. -/
theorem toNat_reduceDim_eq_mod (dim kernel stride : UInt32) :
    (reduceDim dim kernel stride).toNat =
      positions dim.toNat kernel.toNat stride.toNat % 2 ^ 32 := by
  have hmax : (max stride 1).toNat = max stride.toNat 1 := by
    change (if stride ≤ 1 then (1 : UInt32) else stride).toNat = _
    rw [apply_ite UInt32.toNat, Nat.max_def]
    exact if_congr UInt32.le_iff_toNat_le rfl rfl
  unfold reduceDim positions
  rw [apply_ite UInt32.toNat, apply_ite (· % 2 ^ 32)]
  apply if_ctx_congr UInt32.lt_iff_toNat_lt (fun _ => rfl)
  intro hle
  rw [UInt32.toNat_add, UInt32.toNat_div, hmax,
    UInt32.toNat_sub_of_le _ _ (UInt32.le_iff_toNat_le.mpr (Nat.le_of_not_lt hle))]
  rfl

example : reduceDim 4294967295 0 1 = 0 := by decide

theorem toNat_reduceDim
    (h : positions dim.toNat kernel.toNat stride.toNat ≤ dim.toNat) :
    (reduceDim dim kernel stride).toNat = positions dim.toNat kernel.toNat stride.toNat := by
  rw [toNat_reduceDim_eq_mod]
  exact Nat.mod_eq_of_lt (h.trans_lt dim.toNat_lt)

theorem Pooling.narrows_iff : p.Narrows dim ↔
    positions dim.toNat p.kernelSize.toNat p.stride.toNat ≤ dim.toNat := by
  unfold Narrows
  rw [positions_le_iff, ← UInt32.toNat_inj, ne_eq, ← UInt32.toNat_inj, UInt32.le_iff_toNat_le]
  rfl

theorem Pooling.Narrows.toNat_reduceDim (h : p.Narrows dim) :
    (reduceDim dim p.kernelSize p.stride).toNat =
      positions dim.toNat p.kernelSize.toNat p.stride.toNat :=
  LayerGraph.toNat_reduceDim (narrows_iff.mp h)

theorem Pooling.Narrows.reduceDim_le (h : p.Narrows dim) :
    reduceDim dim p.kernelSize p.stride ≤ dim := by
  rw [UInt32.le_iff_toNat_le, h.toNat_reduceDim]
  exact narrows_iff.mp h

theorem Pooling.narrows_of_one_le (hp : 1 ≤ p.kernelSize) (dim : UInt32) : p.Narrows dim := by
  intro hzero
  rw [hzero] at hp
  exact absurd hp (by decide)

end Step

section Along

variable {dim d : UInt32} {p : Pooling} {ps : List Pooling}

theorem neighbours_sizesAlong_cons (dim : UInt32) (p : Pooling) (ps : List Pooling) :
    neighbours (sizesAlong dim (p :: ps)) = (dim, reduceDim dim p.kernelSize p.stride) ::
      neighbours (sizesAlong (reduceDim dim p.kernelSize p.stride) ps) := by
  cases ps <;> rfl

theorem reduceAll_cons (dim : UInt32) (p : Pooling) (ps : List Pooling) :
    reduceAll dim (p :: ps) = reduceAll (reduceDim dim p.kernelSize p.stride) ps := rfl

theorem getLast?_sizesAlong (dim : UInt32) (ps : List Pooling) :
    (sizesAlong dim ps).getLast? = some (reduceAll dim ps) := by
  induction ps generalizing dim with
  | nil => rfl
  | cons p ps ih => rw [sizesAlong, List.getLast?_cons, ih, Option.getD_some, reduceAll_cons]

/-- Neighbours are the sizes before and behind one of the blocks. -/
theorem mem_neighbours_sizesAlong {sizes : UInt32 × UInt32} :
    sizes ∈ neighbours (sizesAlong dim ps) ↔ ∃ before p after, ps = before ++ p :: after ∧
      sizes = (reduceAll dim before, reduceDim (reduceAll dim before) p.kernelSize p.stride) := by
  induction ps generalizing dim with
  | nil => simp [sizesAlong, neighbours]
  | cons p ps ih =>
    rw [neighbours_sizesAlong_cons, List.mem_cons, ih]
    constructor
    · rintro (rfl | ⟨before, q, after, rfl, rfl⟩)
      · exact ⟨[], p, ps, rfl, rfl⟩
      · exact ⟨p :: before, q, after, rfl, rfl⟩
    · rintro ⟨before, q, after, hsplit, rfl⟩
      cases before with
      | nil =>
        obtain ⟨rfl, rfl⟩ := List.cons.inj hsplit
        exact .inl rfl
      | cons p' before =>
        obtain ⟨rfl, rfl⟩ := List.cons.inj hsplit
        exact .inr ⟨before, q, after, rfl, rfl⟩

theorem Narrowing.le_of_mem (h : Narrowing dim ps) (hd : d ∈ sizesAlong dim ps) : d ≤ dim := by
  induction ps generalizing dim with
  | nil =>
    obtain rfl := List.mem_singleton.mp hd
    exact UInt32.le_refl _
  | cons p ps ih =>
    rcases List.mem_cons.mp hd with rfl | hd
    · exact UInt32.le_refl _
    · exact UInt32.le_trans (ih h.2 hd) h.1.reduceDim_le

/-- Blocks make a side no wider just when all sizes are exact and none is above one before it. -/
theorem narrowing_iff : Narrowing dim ps ↔
    (sizesAlong dim ps).map (·.toNat) = sidesAlong dim.toNat ps ∧
      (sizesAlong dim ps).Pairwise (· ≥ ·) := by
  induction ps generalizing dim with
  | nil => simp [Narrowing, sizesAlong, sidesAlong]
  | cons p ps ih =>
    rw [Narrowing, sizesAlong, sidesAlong, List.map_cons, List.cons_eq_cons, List.pairwise_cons]
    constructor
    · rintro ⟨hp, hps⟩
      have hrest := hps
      rw [ih, hp.toNat_reduceDim] at hrest
      exact ⟨⟨rfl, hrest.1⟩, fun d hd => UInt32.le_trans (hps.le_of_mem hd) hp.reduceDim_le,
        hrest.2⟩
    · rintro ⟨⟨-, hexact⟩, hle, hsorted⟩
      -- the next size is first in both lists
      have hfirst : (reduceDim dim p.kernelSize p.stride).toNat =
          positions dim.toNat p.kernelSize.toNat p.stride.toNat := by
        cases ps <;> exact (List.cons.inj hexact).1
      have hmem : reduceDim dim p.kernelSize p.stride ∈
          sizesAlong (reduceDim dim p.kernelSize p.stride) ps := by
        cases ps <;> exact List.mem_cons_self
      have hp : p.Narrows dim := by
        rw [Pooling.narrows_iff, ← hfirst]
        exact UInt32.le_iff_toNat_le.mp (hle _ hmem)
      refine ⟨hp, ih.mpr ⟨?_, hsorted⟩⟩
      rw [hexact, hfirst]

theorem narrowing_of_one_le (hps : ∀ p ∈ ps, 1 ≤ p.kernelSize) : Narrowing dim ps := by
  induction ps generalizing dim with
  | nil => trivial
  | cons p ps ih =>
    obtain ⟨hp, hps⟩ := List.forall_mem_cons.mp hps
    exact ⟨p.narrows_of_one_le hp dim, ih hps⟩

theorem Narrowing.eq_zero (h : Narrowing 0 ps) (hd : d ∈ sizesAlong 0 ps) : d = 0 :=
  UInt32.le_zero_iff.mp (h.le_of_mem hd)

/-- A side that becomes no wider is gone once at most. -/
theorem Narrowing.countP_vanishes (h : Narrowing dim ps) :
    (neighbours (sizesAlong dim ps)).countP vanishes =
      if dim ≠ 0 ∧ reduceAll dim ps = 0 then 1 else 0 := by
  induction ps generalizing dim with
  | nil => simp [sizesAlong, neighbours, reduceAll]
  | cons p ps ih =>
    rw [neighbours_sizesAlong_cons, List.countP_cons, ih h.2, reduceAll_cons]
    have hlast := List.mem_of_getLast? (getLast?_sizesAlong (reduceDim dim p.kernelSize p.stride) ps)
    by_cases hzero : reduceDim dim p.kernelSize p.stride = 0
    · have hrest := h.2
      rw [hzero] at hrest hlast
      simp [vanishes, hzero, hrest.eq_zero hlast]
    · have hdim : dim ≠ 0 := by
        rintro rfl
        exact hzero (UInt32.le_zero_iff.mp h.1.reduceDim_le)
      simp [vanishes, hzero, hdim]

end Along

/-- A collapse is reported wherever the side is gone from one size to the next. -/
theorem countP_isCollapse_spatialViolations (before : Option (NodeId × UInt32)) (dim : UInt32)
    (ns : List Node) :
    (spatialViolations before dim ns).countP Violation.isCollapse =
      (neighbours (sizesAlong dim (ns.filterMap (·.block.pooling?)))).countP vanishes := by
  induction ns generalizing before dim with
  | nil => rfl
  | cons n ns ih =>
    have hmismatch : (before.bind fun b => n.mismatch? b.1 b.2).toList.countP
        Violation.isCollapse = 0 := by
      rw [List.countP_eq_zero]
      intro x hx
      obtain ⟨b, -, hx⟩ := Option.bind_eq_some_iff.mp (Option.mem_toList.mp hx)
      simp [(Node.part_of_mismatch? hx).2]
    rw [spatialViolations_cons, List.countP_append, List.countP_append, ih, hmismatch]
    unfold Node.collapse? Block.reduce
    cases hp : n.block.pooling? with
    | none =>
      rw [List.filterMap_cons_none (f := fun n : Node => n.block.pooling?) hp]
      simp
    | some p =>
      rw [List.filterMap_cons_some (f := fun n : Node => n.block.pooling?) hp,
        neighbours_sizesAlong_cons, List.countP_cons, Nat.add_comm (List.countP _ _)]
      simp only [Option.bind_eq_bind, Option.bind_some, Option.elim_some, Nat.zero_add]
      congr 1
      split <;> rfl

namespace Graph

theorem countP_isCollapse_validate (g : Graph) (c : ShapeConfig) :
    (g.validate c).countP Violation.isCollapse =
      (neighbours (g.spatialSizes c)).countP vanishes := by
  rw [countP_validate fun _ => Violation.part_eq_spatial]
  exact countP_isCollapse_spatialViolations none c.initialSpatialSize (g.members .spatial)

theorem getLast?_spatialSizes (g : Graph) (c : ShapeConfig) :
    (g.spatialSizes c).getLast? = some (g.finalSize c) := getLast?_sizesAlong _ _

theorem flattened?_eq_none {g : Graph} {c : ShapeConfig} (h : g.finalSize c = 0) :
    g.flattened? c = none := by
  unfold flattened?
  cases g.lastChannels? with
  | none => rfl
  | some channels => simp [h]

/--
Pooling blocks make the side of a graph no wider, as they do when no kernel is zero, just when each
size is the number of positions of the kernel and none is above one before it. Then a side that is
zero stays zero, and that it collapses is reported once, when a side that is left to begin with is
zero in the end. Whatever the kernels are, each collapse on the way is reported, and behind the last
block of a side that is zero there is nothing to flatten.
-/
theorem spatialSizes_narrowing (g : Graph) (c : ShapeConfig) :
    (Narrowing c.initialSpatialSize g.poolings ↔
      (g.spatialSizes c).map (·.toNat) = sidesAlong c.initialSpatialSize.toNat g.poolings ∧
        (g.spatialSizes c).Pairwise (· ≥ ·)) ∧
    (Narrowing c.initialSpatialSize g.poolings →
      (∀ before after, g.spatialSizes c = before ++ 0 :: after → ∀ d ∈ after, d = 0) ∧
        (g.validate c).countP Violation.isCollapse =
          if c.initialSpatialSize ≠ 0 ∧ g.finalSize c = 0 then 1 else 0) ∧
    ((∀ p ∈ g.poolings, 1 ≤ p.kernelSize) → Narrowing c.initialSpatialSize g.poolings) ∧
    (g.validate c).countP Violation.isCollapse = (neighbours (g.spatialSizes c)).countP vanishes ∧
    (g.spatialSizes c).getLast? = some (g.finalSize c) ∧
    (g.finalSize c = 0 → g.flattened? c = none) := by
  refine ⟨narrowing_iff, ?_, narrowing_of_one_le, countP_isCollapse_validate g c,
    getLast?_spatialSizes g c, flattened?_eq_none⟩
  intro h
  constructor
  · intro before after hsplit d hd
    have hsorted := (narrowing_iff.mp h).2
    change (g.spatialSizes c).Pairwise (· ≥ ·) at hsorted
    rw [hsplit, List.pairwise_append, List.pairwise_cons] at hsorted
    exact UInt32.le_zero_iff.mp (hsorted.2.1.1 d hd)
  · rw [countP_isCollapse_validate]
    exact h.countP_vanishes

/-- Three pooling blocks, the one in the middle with a kernel as given. -/
def poolingThrice (kernel : UInt32) : GraphDocument where
  nodes :=
    [.new ⟨"a"⟩ 0 (.pooling ⟨1, 5, 2, .max⟩), .new ⟨"b"⟩ 1 (.pooling ⟨1, kernel, 2, .max⟩),
     .new ⟨"c"⟩ 2 (.pooling ⟨1, 5, 2, .max⟩)]

/-- With a kernel of zero, a side that was gone is there again. -/
theorem spatialSizes_narrowing_zeroKernel :
    let c : ShapeConfig := { initialSpatialSize := 4 }
    (∃ g, Graph.decoder (.ofJson (poolingThrice 0).toJson) = .ok g ∧
      ¬ Narrowing c.initialSpatialSize g.poolings ∧ g.spatialSizes c = [4, 0, 1, 0] ∧
      (g.validate c).countP Violation.isCollapse = 2) ∧
    ∃ g, Graph.decoder (.ofJson (poolingThrice 1).toJson) = .ok g ∧
      g.spatialSizes c = [4, 0, 0, 0] ∧ (g.validate c).countP Violation.isCollapse = 1 ∧
      g.flattened? c = none := by
  intro c
  let g (kernel : UInt32) : Graph :=
    { slots := (poolingThrice kernel).nodes.map some, spatial := [⟨"a"⟩, ⟨"b"⟩, ⟨"c"⟩] }
  have hread0 : Graph.decoder (.ofJson (poolingThrice 0).toJson) = .ok (g 0) := by decide +kernel
  have hread1 : Graph.decoder (.ofJson (poolingThrice 1).toJson) = .ok (g 1) := by decide +kernel
  obtain ⟨hnarrow, -, -, hcollapses, -, -⟩ := spatialSizes_narrowing (g 0) c
  obtain ⟨-, honce, hkernels, -, -, hnone⟩ := spatialSizes_narrowing (g 1) c
  have hsizes : (g 0).spatialSizes c = [4, 0, 1, 0] := by decide
  refine ⟨⟨g 0, hread0, ?_, hsizes, ?_⟩, g 1, hread1, by decide, ?_, hnone (by decide)⟩
  · rw [hnarrow, hsizes]
    decide
  · rw [hcollapses, hsizes]
    decide
  · rw [(honce (hkernels (by decide))).2]
    decide

end Graph

end LayerGraph
