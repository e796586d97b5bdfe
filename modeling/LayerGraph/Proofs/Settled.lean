import LayerGraph.Proofs.Reconciled

namespace LayerGraph

/-- What sizes follow from: which block it is, and the block. -/
def Node.core (n : Node) : Node := { id := n.id, block := n.block }

theorem Node.core_eq_iff {m n : Node} : m.core = n.core ↔ m.id = n.id ∧ m.block = n.block := by
  simp [core]

namespace Graph

variable {g h : Graph} {c : ShapeConfig} {id : NodeId}

theorem settled_iff (hg : WellFormed g) :
    g.Settled c ↔ ∀ a ∈ g.assignments c, g.slotValue? a.node a.slot = some a.value := by
  constructor
  · intro hs a ha
    have hv := slotValue?_reconcile hg ((mem_assignments hg).mp ha)
    rwa [show g.reconcile c = (g, []) from hs] at hv
  · intro ha
    unfold Settled
    rw [reconcile_eq_assignAll hg]
    exact assignAll_eq_self ha

theorem assign_eq_self_of_none {a : Assignment} (ha : (g.assign a).2 = none) :
    g.assign a = (g, none) := by
  unfold assign at ha ⊢
  cases hv : (g.node? a.node).bind (·.block.slot? a.slot) with
  | none => rfl
  | some old =>
    simp only [hv] at ha ⊢
    split
    · rfl
    · rename_i ho
      rw [if_neg ho] at ha
      cases ha

theorem assignAll_eq_self_of_nil {as : List Assignment} (has : (g.assignAll as).2 = []) :
    g.assignAll as = (g, []) := by
  induction as generalizing g with
  | nil => rfl
  | cons a as ih =>
    rw [assignAll_cons] at has ⊢
    obtain ⟨ha, has⟩ := List.append_eq_nil_iff.mp has
    have hself : g.assign a = (g, none) := by
      apply assign_eq_self_of_none
      simpa using ha
    rw [hself] at has ⊢
    rw [ih has]
    rfl

/-- A graph without anything to adjust is settled. -/
theorem settled_of_adjustments_nil (hg : WellFormed g) (hs : (g.reconcile c).2 = []) :
    g.Settled c := by
  rw [reconcile_eq_assignAll hg] at hs
  unfold Settled
  rw [reconcile_eq_assignAll hg]
  exact assignAll_eq_self_of_nil hs

theorem passChannels_core (incoming : Option UInt32) (ns : List Node) :
    passChannels incoming (ns.map Node.core) = passChannels incoming ns := by
  induction ns generalizing incoming with
  | nil => rfl
  | cons n ns ih =>
    rw [List.map_cons, passChannels, passChannels, ih]
    rfl

theorem chainSizes_core (incoming : Option UInt32) (ns : List Node) :
    chainSizes incoming (ns.map Node.core) = chainSizes incoming ns := by
  induction ns generalizing incoming with
  | nil => rfl
  | cons n ns ih =>
    rw [List.map_cons, chainSizes, chainSizes, ih]
    rfl

/-- The families stand the same, with the same blocks in them. -/
structure SameFamilies (g h : Graph) : Prop where
  family : ∀ f, h.family f = g.family f
  members : ∀ f, (h.members f).map Node.core = (g.members f).map Node.core

theorem SameFamilies.filterMap_block {β : Type} (hgh : SameFamilies g h) (f : Family)
    (k : Block → Option β) :
    (h.members f).filterMap (k ·.block) = (g.members f).filterMap (k ·.block) := by
  -- what `k` reads of a node is in its core
  have hcore : ∀ ns : List Node,
      ns.filterMap (k ·.block) = (ns.map Node.core).filterMap (k ·.block) := by
    intro ns
    rw [List.filterMap_map]
    rfl
  rw [hcore, hgh.members, ← hcore]

theorem SameFamilies.assignments (hgh : SameFamilies g h) (c : ShapeConfig) :
    h.assignments c = g.assignments c := by
  have hconvolutions : h.convolutions = g.convolutions :=
    hgh.filterMap_block .spatial Block.convolution?
  have hpoolings : h.poolings = g.poolings := hgh.filterMap_block .spatial Block.pooling?
  have hneural : h.neural = g.neural := hgh.family .neural
  have hflat : h.flattenedAssignment? c = g.flattenedAssignment? c := by
    unfold flattenedAssignment? flattened? lastChannels? finalSize
    rw [hconvolutions, hpoolings, hneural]
  unfold Graph.assignments
  rw [← passChannels_core, ← chainSizes_core, hgh.members, hgh.members, passChannels_core,
    chainSizes_core, hflat]

/-- A graph with the same blocks in the same families is settled with the other one. -/
theorem Settled.of_same (hg : WellFormed g) (hh : WellFormed h) (hgh : SameFamilies g h)
    (hslot : ∀ id s, h.slotValue? id s = g.slotValue? id s) (hs : g.Settled c) : h.Settled c := by
  rw [settled_iff hg] at hs
  rw [settled_iff hh, hgh.assignments]
  intro a ha
  rw [hslot]
  exact hs a ha

/-- Labels and places on the canvas have no part in the sizes. -/
theorem Settled.mapNode {f : Node → Node} (hg : WellFormed g) (hcore : ∀ n, (f n).core = n.core)
    (horder : ∀ n, (f n).sequenceIndex = n.sequenceIndex) (hs : g.Settled c) (id : NodeId) :
    (g.mapNode id f).Settled c := by
  have hid : ∀ n, (f n).id = n.id := fun n => (Node.core_eq_iff.mp (hcore n)).1
  have hblock : ∀ n, (f n).block = n.block := fun n => (Node.core_eq_iff.mp (hcore n)).2
  have hone : ∀ n, (if n.id = id then f n else n).core = n.core := by
    intro n
    split
    · exact hcore n
    · rfl
  have honeid : ∀ n : Node, (if n.id = id then f n else n).id = n.id :=
    fun n => (Node.core_eq_iff.mp (hone n)).1
  have hfamily : ∀ n, (f n).family? = n.family? := by
    intro n
    change (f n).block.family? = n.block.family?
    rw [hblock]
  have hh : WellFormed (g.mapNode id f) := wellFormed_mapNode hg hid hfamily horder
  rw [mapNode_eq_mapNodes] at hh ⊢
  apply hs.of_same hg hh
  · constructor
    · exact fun k => family_mapNodes g _ k
    · intro k
      rw [members_mapNodes honeid, List.map_map]
      exact List.map_congr_left fun n _ => hone n
  · intro j s
    unfold slotValue?
    rw [node?_mapNodes honeid, Option.bind_map]
    congr 1
    funext n
    exact congrArg (Block.slot? s) (Node.core_eq_iff.mp (hone n)).2

end Graph

end LayerGraph
