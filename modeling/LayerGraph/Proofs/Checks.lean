import LayerGraph.Violation

namespace LayerGraph

theorem neighbours_cons_cons {α : Type} (a b : α) (l : List α) :
    neighbours (a :: b :: l) = (a, b) :: neighbours (b :: l) := rfl

/-- The parts that the check of a graph is made of. -/
inductive Violation.Part where
  | values
  | duplicates (family : Family)
  | spatial
  | flattened
  | neural
  deriving DecidableEq

/-- The part that a violation comes from. -/
def Violation.part : Violation → Part
  | .invalidValue _ _ _ => .values
  | .duplicateSequenceIndex family _ _ _ => .duplicates family
  | .chainMismatch .spatial _ _ _ _ | .passThroughMismatch _ _ _ _ | .spatialCollapse _ => .spatial
  | .derivedSizeMismatch _ _ _ => .flattened
  | .chainMismatch .neural _ _ _ _ => .neural

def Violation.isCollapse : Violation → Bool
  | .spatialCollapse _ => true
  | _ => false

theorem Violation.part_eq_spatial {x : Violation} (hx : x.isCollapse = true) :
    x.part = .spatial := by
  cases x with
  | spatialCollapse node => rfl
  | _ => cases hx

/-- From one size to the next, whatever is left of a side is gone. -/
def vanishes (sizes : UInt32 × UInt32) : Bool := sizes.1 ≠ 0 ∧ sizes.2 = 0

theorem Block.pooling?_eq_some_iff {b : Block} {p : Pooling} :
    b.pooling? = some p ↔ b = .pooling p := by
  cases b <;> simp [pooling?]

namespace Node

/-- What is wrong with the channels that a block takes of a convolution. -/
def mismatch? (n : Node) (conv : NodeId) (out : UInt32) : Option Violation :=
  match n.block with
  | .convolutional p =>
    if p.sizeIn = out then none else some (.chainMismatch .spatial n.id conv out p.sizeIn)
  | .pooling p =>
    if p.channels = out then none else some (.passThroughMismatch n.id conv out p.channels)
  | _ => none

def collapse? (n : Node) (dim : UInt32) : Option Violation := do
  let p ← n.block.pooling?
  if vanishes (dim, reduceDim dim p.kernelSize p.stride) then some (.spatialCollapse n.id) else none

/-- The last convolution behind a block, and its channels. -/
def lastConvolution? (n : Node) (before : Option (NodeId × UInt32)) : Option (NodeId × UInt32) :=
  (n.block.convolution?.map fun p => (n.id, p.sizeOut)).or before

end Node

/-- The side behind a block. -/
def Block.reduce (dim : UInt32) (b : Block) : UInt32 :=
  b.pooling?.elim dim fun p => reduceDim dim p.kernelSize p.stride

section Family

variable {x : Violation} {before : Option (NodeId × UInt32)} {conv : NodeId} {dim out : UInt32}
  {n : Node} {ns : List Node}

theorem spatialViolations_cons (before : Option (NodeId × UInt32)) (dim : UInt32) (n : Node)
    (ns : List Node) : spatialViolations before dim (n :: ns) =
      (before.bind fun b => n.mismatch? b.1 b.2).toList ++ (n.collapse? dim).toList ++
        spatialViolations (n.lastConvolution? before) (n.block.reduce dim) ns := by
  have hlist : ∀ (P : Prop) [Decidable P] (x : Violation),
      (if P then none else some x).toList = if P then [] else [x] := by
    intro P _ x
    split <;> rfl
  rw [spatialViolations]
  cases hb : n.block with
  | convolutional p =>
    cases before <;> simp [Node.mismatch?, Node.collapse?, Node.lastConvolution?, Block.reduce, hb,
      Block.pooling?, Block.convolution?, hlist]
  | pooling p =>
    have hcollapse : (n.collapse? dim).toList =
        if reduceDim dim p.kernelSize p.stride = 0 ∧ dim ≠ 0 then [.spatialCollapse n.id]
        else [] := by
      simp only [Node.collapse?, hb, Block.pooling?, Option.bind_eq_bind, Option.bind_some,
        vanishes, decide_eq_true_eq, and_comm]
      split <;> rfl
    cases before <;> simp [Node.mismatch?, hcollapse, Node.lastConvolution?, Block.reduce, hb,
      Block.pooling?, Block.convolution?, hlist]
  | _ =>
    cases before <;> simp [Node.mismatch?, Node.collapse?, Node.lastConvolution?, Block.reduce, hb,
      Block.pooling?, Block.convolution?]

theorem Node.part_of_mismatch? (h : n.mismatch? conv out = some x) :
    x.part = .spatial ∧ x.isCollapse = false := by
  unfold mismatch? at h
  split at h
  · split at h
    · cases h
    · rw [← Option.some.inj h]
      exact ⟨rfl, rfl⟩
  · split at h
    · cases h
    · rw [← Option.some.inj h]
      exact ⟨rfl, rfl⟩
  · cases h

theorem Node.collapse?_eq_some_iff : n.collapse? dim = some x ↔
    ∃ p, n.block = .pooling p ∧ vanishes (dim, reduceDim dim p.kernelSize p.stride) = true ∧
      x = .spatialCollapse n.id := by
  unfold collapse?
  constructor
  · intro h
    obtain ⟨p, hp, h⟩ := Option.bind_eq_some_iff.mp h
    rw [Option.ite_none_right_eq_some, Option.some_inj] at h
    exact ⟨p, Block.pooling?_eq_some_iff.mp hp, h.1, h.2.symm⟩
  · rintro ⟨p, hp, hv, rfl⟩
    rw [Block.pooling?_eq_some_iff.mpr hp]
    exact if_pos hv

theorem part_of_mem_spatialViolations (hx : x ∈ spatialViolations before dim ns) :
    x.part = .spatial := by
  induction ns generalizing before dim with
  | nil => cases hx
  | cons n ns ih =>
    rw [spatialViolations_cons, List.mem_append, List.mem_append, Option.mem_toList,
      Option.mem_toList] at hx
    rcases hx with (hx | hx) | hx
    · obtain ⟨b, -, hx⟩ := Option.bind_eq_some_iff.mp hx
      exact (Node.part_of_mismatch? hx).1
    · obtain ⟨p, -, -, rfl⟩ := Node.collapse?_eq_some_iff.mp hx
      rfl
    · exact ih hx

end Family

namespace Graph

variable {g : Graph} {c : ShapeConfig} {x : Violation}

/-- What a part of the check reports. -/
def reports (g : Graph) (c : ShapeConfig) : Violation.Part → List Violation
  | .values => g.nodes.flatMap (·.invalidValues)
  | .duplicates f => g.duplicates f
  | .spatial => spatialViolations none c.initialSpatialSize (g.members .spatial)
  | .flattened => (g.derivedViolation? c).toList
  | .neural => g.neuralViolations

theorem validate_eq (g : Graph) (c : ShapeConfig) : g.validate c =
    g.reports c .values ++ g.reports c (.duplicates .neural) ++
      g.reports c (.duplicates .spatial) ++ g.reports c .spatial ++ g.reports c .flattened ++
      g.reports c .neural := rfl

theorem part_of_mem_reports {s : Violation.Part} (hx : x ∈ g.reports c s) : x.part = s := by
  cases s with
  | values =>
    obtain ⟨n, -, hx⟩ := List.mem_flatMap.mp hx
    obtain ⟨_, -, rfl⟩ := List.mem_map.mp hx
    rfl
  | duplicates f =>
    obtain ⟨⟨m, n⟩, -, hx⟩ := List.mem_filterMap.mp hx
    dsimp only at hx
    split at hx
    · rw [← Option.some.inj hx]
      rfl
    · cases hx
  | spatial => exact part_of_mem_spatialViolations hx
  | flattened =>
    obtain ⟨n, -, hx⟩ := Option.bind_eq_some_iff.mp (Option.mem_toList.mp hx)
    obtain ⟨expected, -, hx⟩ := Option.bind_eq_some_iff.mp hx
    obtain ⟨⟨actual, _⟩, -, hx⟩ := Option.bind_eq_some_iff.mp hx
    dsimp only at hx
    split at hx
    · cases hx
    · rw [← Option.some.inj hx]
      rfl
  | neural =>
    obtain ⟨⟨m, n⟩, -, hx⟩ := List.mem_filterMap.mp hx
    obtain ⟨⟨_, out⟩, -, hx⟩ := Option.bind_eq_some_iff.mp hx
    obtain ⟨⟨sizeIn, _⟩, -, hx⟩ := Option.bind_eq_some_iff.mp hx
    dsimp only at hx
    split at hx
    · cases hx
    · rw [← Option.some.inj hx]
      rfl

/-- What a part reports can be told from the rest. -/
theorem filter_validate (g : Graph) (c : ShapeConfig) (s : Violation.Part) :
    (g.validate c).filter (·.part = s) = g.reports c s := by
  have hself : (g.reports c s).filter (·.part = s) = g.reports c s :=
    List.filter_eq_self.mpr fun x hx => by simp [part_of_mem_reports hx]
  have hother : ∀ t, t ≠ s → (g.reports c t).filter (·.part = s) = [] := fun t ht =>
    List.filter_eq_nil_iff.mpr fun x hx => by simp [part_of_mem_reports hx, ht]
  rw [validate_eq]
  simp only [List.filter_append]
  cases s with
  | duplicates f =>
    cases f <;> simp [hself, hother]
  | _ => simp [hself, hother]

/-- Violations of one kind are counted where they come from. -/
theorem countP_validate {s : Violation.Part} {q : Violation → Bool}
    (hq : ∀ x, q x = true → x.part = s) :
    (g.validate c).countP q = (g.reports c s).countP q := by
  rw [← filter_validate, List.countP_filter]
  apply List.countP_congr
  intro x _
  simpa using hq x

end Graph

end LayerGraph
