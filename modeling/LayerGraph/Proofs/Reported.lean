import LayerGraph.Proofs.Settled
import LayerGraph.Violation

namespace LayerGraph

/-- The adjustment that mends what is wrong, if reconciling does. -/
def Violation.mend? : Violation → Option Adjustment
  | .chainMismatch _ node _ expected actual => some ⟨node, "sizeIn", actual, expected⟩
  | .passThroughMismatch node _ expected actual => some ⟨node, "channels", actual, expected⟩
  | .derivedSizeMismatch node expected actual => some ⟨node, "sizeIn", actual, expected⟩
  | .spatialCollapse _ | .invalidValue _ _ _ | .duplicateSequenceIndex _ _ _ _ => none

namespace Graph

variable {g : Graph} {c : ShapeConfig} {id : NodeId} {s : Slot} {old v : UInt32}

/-- What setting a slot adjusts. -/
def adjustment? (g : Graph) (a : Assignment) : Option Adjustment := do
  let old ← g.slotValue? a.node a.slot
  if old = a.value then none else some ⟨a.node, a.slot.name, old, a.value⟩

theorem assign_snd (g : Graph) (a : Assignment) : (g.assign a).2 = g.adjustment? a := by
  unfold assign adjustment? slotValue?
  cases (g.node? a.node).bind (·.block.slot? a.slot) with
  | none => rfl
  | some old =>
    simp only [Option.bind_eq_bind, Option.bind_some]
    split <;> rfl

/-- What is set on the way does not change what is adjusted later: that is in other nodes. -/
theorem assignAll_snd (hg : WellFormed g) {as : List Assignment} (has : (as.map (·.node)).Nodup) :
    (g.assignAll as).2 = as.filterMap g.adjustment? := by
  induction as generalizing g with
  | nil => rfl
  | cons a as ih =>
    rw [List.map_cons, List.nodup_cons] at has
    have hrest : as.filterMap (g.assign a).1.adjustment? = as.filterMap g.adjustment? := by
      apply List.filterMap_congr
      intro b hb
      have hne : b.node ≠ a.node := fun h => has.1 (h ▸ List.mem_map_of_mem hb)
      unfold adjustment?
      rw [slotValue?_assign hg, if_neg fun h => hne h.1]
    rw [assignAll_cons, ih (wellFormed_assign hg a) has.2, hrest, assign_snd]
    cases ha : g.adjustment? a with
    | none => rw [List.filterMap_cons_none ha]; rfl
    | some x => rw [List.filterMap_cons_some ha]; rfl

theorem reconcile_snd (hg : WellFormed g) (c : ShapeConfig) :
    (g.reconcile c).2 = (g.assignments c).filterMap g.adjustment? := by
  rw [reconcile_eq_assignAll hg, assignAll_snd hg (map_node_assignments_nodup hg c)]

/-- A slot is reported just when it is adjusted. -/
theorem mend_mismatch {x : Violation} (hs : g.slotValue? id s = some old)
    (hx : x.mend? = some ⟨id, s.name, old, v⟩) :
    (if old = v then none else some x).bind Violation.mend? = g.adjustment? ⟨id, s, v⟩ := by
  unfold adjustment?
  rw [hs]
  split
  · rename_i h
    exact (if_pos h).symm
  · rename_i h
    exact hx.trans (if_neg h).symm

theorem mend_mismatches {x : Violation} (hs : g.slotValue? id s = some old)
    (hx : x.mend? = some ⟨id, s.name, old, v⟩) :
    (if old = v then [] else [x]).filterMap Violation.mend? =
      [(⟨id, s, v⟩ : Assignment)].filterMap g.adjustment? := by
  rw [List.filterMap_cons, ← mend_mismatch hs hx]
  split
  · rfl
  · rw [List.filterMap_cons, Option.bind_some]
    rfl

/-- The graph has in the slots of some nodes what the nodes have. -/
def HasSlots (g : Graph) (ns : List Node) : Prop :=
  ∀ n ∈ ns, ∀ s, g.slotValue? n.id s = n.block.slot? s

theorem HasSlots.tail {n : Node} {ns : List Node} (h : g.HasSlots (n :: ns)) : g.HasSlots ns :=
  fun m hm => h m (List.mem_cons_of_mem n hm)

theorem hasSlots_members (hg : WellFormed g) (f : Family) : g.HasSlots (g.members f) :=
  fun _ hn => slotValue?_of_mem_members hg hn

/-- The convolution that both walks carry along is the same one. -/
theorem mend_spatialViolations {ns : List Node} (hns : g.HasSlots ns)
    (before : Option (NodeId × UInt32)) (dim : UInt32) :
    (spatialViolations before dim ns).filterMap Violation.mend? =
      (passChannels (before.map (·.2)) ns).filterMap g.adjustment? := by
  induction ns generalizing before dim with
  | nil => rfl
  | cons n ns ih =>
    have hn := hns n List.mem_cons_self
    have ih := ih hns.tail
    rw [passChannels, List.filterMap_append]
    cases hb : n.block with
    | convolutional p =>
      rw [hb] at hn
      simp only [spatialViolations, hb, List.filterMap_append, ih]
      congr 1
      cases before with
      | none => rfl
      | some x => exact mend_mismatches (hn .sizeIn) rfl
    | pooling p =>
      rw [hb] at hn
      -- a collapse is not mended
      have hcollapse : ∀ reduced : UInt32, (if reduced = 0 ∧ dim ≠ 0 then
          [Violation.spatialCollapse n.id] else []).filterMap Violation.mend? = [] := by
        intro reduced
        split <;> rfl
      simp only [spatialViolations, hb, List.filterMap_append, ih, hcollapse, List.append_nil]
      congr 1
      cases before with
      | none => rfl
      | some x => exact mend_mismatches (hn .channels) rfl
    | _ =>
      simp only [spatialViolations, hb, ih]
      rfl

/-- Behind the first one, every block is chained to its neighbour. -/
theorem chainSizes_cons (m : Node) (ns : List Node) :
    chainSizes none (m :: ns) = (neighbours (m :: ns)).filterMap fun (m, n) =>
      m.block.sizeOut?.map (⟨n.id, .sizeIn, ·⟩) := by
  change chainSizes m.block.sizeOut? ns = _
  induction ns generalizing m with
  | nil => rfl
  | cons n ns ih =>
    have hnext : neighbours (m :: n :: ns) = (m, n) :: neighbours (n :: ns) := rfl
    rw [chainSizes, ih, hnext, List.filterMap_cons]
    cases hout : m.block.sizeOut? <;> simp [hout]

theorem mend_neuralViolations (hg : WellFormed g) :
    g.neuralViolations.filterMap Violation.mend? =
      (chainSizes none (g.members .neural)).filterMap g.adjustment? := by
  have hslots := hasSlots_members hg .neural
  unfold neuralViolations
  cases hm : g.members .neural with
  | nil => rfl
  | cons m ns =>
    rw [hm] at hslots
    rw [chainSizes_cons, List.filterMap_filterMap, List.filterMap_filterMap]
    apply List.filterMap_congr
    rintro ⟨x, y⟩ hxy
    have hy := hslots y (List.mem_of_mem_tail (List.of_mem_zip hxy).2) .sizeIn
    change g.slotValue? y.id .sizeIn = y.block.sizes?.map (·.1) at hy
    simp only [Block.sizeOut?]
    cases x.block.sizes? with
    | none => rfl
    | some p =>
      cases hsizes : y.block.sizes? with
      | none =>
        rw [hsizes] at hy
        unfold adjustment?
        simp [hy]
      | some q =>
        rw [hsizes] at hy
        exact mend_mismatch hy rfl

/-- Only a neural block can be the first one, and it has an input size. -/
theorem mend_derivedViolation? (hg : WellFormed g) (c : ShapeConfig) :
    (g.derivedViolation? c).toList.filterMap Violation.mend? =
      (g.flattenedAssignment? c).toList.filterMap g.adjustment? := by
  have hslots := hasSlots_members hg .neural
  have hids := hg.map_id_members .neural
  change (g.members .neural).map (·.id) = g.neural at hids
  unfold derivedViolation? flattenedAssignment?
  rw [← hids]
  cases hm : g.members .neural with
  | nil => rfl
  | cons n ns =>
    rw [hm] at hslots
    have hn := hslots n List.mem_cons_self .sizeIn
    have hmem : n ∈ g.members .neural := hm ▸ List.mem_cons_self
    obtain ⟨size, hsize⟩ := Option.isSome_iff_exists.mp
      (Block.isSome_sizeIn_of_neural (hg.mem_members.mp hmem).2.1)
    rw [hsize] at hn
    obtain ⟨q, hq, rfl⟩ := Option.map_eq_some_iff.mp hsize
    cases g.flattened? c with
    | none => rfl
    | some v =>
      have hmend := mend_mismatch (x := .derivedSizeMismatch n.id v q.1) (v := v) hn rfl
      change ((n.block.sizes?.bind fun q => if q.1 = v then none else
        some (Violation.derivedSizeMismatch n.id v q.1)).toList.filterMap Violation.mend?) =
          [(⟨n.id, .sizeIn, v⟩ : Assignment)].filterMap g.adjustment?
      rw [hq, Option.bind_some, List.filterMap_cons, ← hmend]
      split <;> rfl

/-- What is not mended is found apart from the families' sizes. -/
theorem filterMap_mend?_validate (hg : WellFormed g) (c : ShapeConfig) :
    (g.validate c).filterMap Violation.mend? = (g.reconcile c).2 := by
  have hvalues : (g.nodes.flatMap (·.invalidValues)).filterMap Violation.mend? = [] := by
    rw [List.filterMap_eq_nil_iff]
    intro x hx
    obtain ⟨n, -, hx⟩ := List.mem_flatMap.mp hx
    obtain ⟨_, -, rfl⟩ := List.mem_map.mp hx
    rfl
  have hduplicates : ∀ f, (g.duplicates f).filterMap Violation.mend? = [] := by
    intro f
    rw [List.filterMap_eq_nil_iff]
    intro x hx
    obtain ⟨⟨m, n⟩, -, hx⟩ := List.mem_filterMap.mp hx
    simp only at hx
    split at hx
    · rw [← Option.some.inj hx]
      rfl
    · cases hx
  unfold validate
  rw [reconcile_snd hg, assignments]
  simp only [List.filterMap_append, hvalues, hduplicates, List.nil_append]
  rw [mend_spatialViolations (hasSlots_members hg .spatial), mend_derivedViolation? hg,
    mend_neuralViolations hg]
  rfl

theorem settled_iff_validate (hg : WellFormed g) (c : ShapeConfig) :
    g.Settled c ↔ ∀ x ∈ g.validate c, x.mend? = none := by
  rw [← List.filterMap_eq_nil_iff, filterMap_mend?_validate hg]
  constructor
  · intro hs
    exact congrArg Prod.snd hs
  · exact settled_of_adjustments_nil hg

/--
Reconciling adjusts what validating reports of sizes that do not follow from the others, and sets
what was expected. It leaves a graph as it is just when none is reported.
-/
theorem reconcile_snd_eq_validate (hg : g.Reachable) (c : ShapeConfig) :
    (g.reconcile c).2 = (g.validate c).filterMap Violation.mend? ∧
      ((g.reconcile c).1 = g ↔ ∀ x ∈ g.validate c, x.mend? = none) := by
  have hw := hg.wellFormed
  refine ⟨(filterMap_mend?_validate hw c).symm, ?_⟩
  rw [← settled_iff_validate hw]
  constructor
  · intro h
    have hs := settled_reconcile hw c
    rwa [h] at hs
  · intro hs
    exact congrArg Prod.fst hs

/-- A size that does not follow in each place where one can, and two blocks of one sequence index. -/
def misfits : List GraphOperation :=
  [.add (.new ⟨"a"⟩ 0 (.convolutional ⟨3, 32, 3, 1⟩)),
   .add (.new ⟨"b"⟩ 1 (.convolutional ⟨8, 64, 3, 1⟩)),
   .add (.new ⟨"p"⟩ 1 (.pooling ⟨7, 2, 2, .max⟩)), .add (.new ⟨"in"⟩ 0 (.input ⟨12, 8⟩)),
   .add (.new ⟨"h"⟩ 1 (.hidden ⟨5, 4, .relu⟩))]

theorem reconcile_snd_eq_validate_misfits :
    let g := misfits.foldl GraphOperation.apply Graph.empty
    let c : ShapeConfig := { initialSpatialSize := 4 }
    g.Reachable ∧ (g.validate c).length = 5 ∧
    (g.reconcile c).2 = [⟨⟨"b"⟩, "sizeIn", 8, 32⟩, ⟨⟨"p"⟩, "channels", 7, 64⟩,
      ⟨⟨"in"⟩, "sizeIn", 12, 256⟩, ⟨⟨"h"⟩, "sizeIn", 5, 8⟩] ∧
    (g.reconcile c).1 ≠ g := by
  intro g c
  have hg : g.Reachable := ⟨misfits, rfl⟩
  obtain ⟨hsnd, hfst⟩ := reconcile_snd_eq_validate hg c
  refine ⟨hg, by decide, ?_, ?_⟩
  · rw [hsnd]
    decide
  · intro h
    have hnone := hfst.mp h (.passThroughMismatch ⟨"p"⟩ ⟨"b"⟩ 64 7) (by decide)
    exact absurd hnone (by decide)

end Graph

end LayerGraph
