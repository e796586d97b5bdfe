import LayerGraph.Proofs.WellFormed
import LayerGraph.Reconcile

namespace LayerGraph

namespace Block

/-- The block with nothing in its slots. -/
def blank (b : Block) : Block := (b.setSlot 0 .sizeIn).setSlot 0 .channels

theorem blank_setSlot (v : UInt32) (s : Slot) (b : Block) : (b.setSlot v s).blank = b.blank := by
  cases s <;> cases b <;> rfl

theorem slot?_setSlot_self (v : UInt32) (s : Slot) (b : Block) :
    (b.setSlot v s).slot? s = (b.slot? s).map fun _ => v := by
  cases s <;> cases b <;> rfl

theorem slot?_setSlot_of_ne {s t : Slot} (hst : s ≠ t) (v : UInt32) (b : Block) :
    (b.setSlot v s).slot? t = b.slot? t := by
  cases s <;> cases t <;> first | exact absurd rfl hst | cases b <;> rfl

theorem setSlot_of_slot?_eq_none {s : Slot} {b : Block} (hb : b.slot? s = none) (v : UInt32) :
    b.setSlot v s = b := by
  cases s <;> cases b <;> first | rfl | cases hb

theorem setSlot_of_slot?_eq_some {s : Slot} {b : Block} {v : UInt32} (hb : b.slot? s = some v) :
    b.setSlot v s = b := by
  cases s <;> cases b <;> cases hb <;> rfl

/-- A block is what it is without slots and what its slots hold. -/
theorem eq_of_blank_eq {a b : Block} (hblank : a.blank = b.blank)
    (hslot : ∀ s, a.slot? s = b.slot? s) : a = b := by
  have ha : (a.blank.setSlot ((a.slot? .sizeIn).getD 0) .sizeIn).setSlot
      ((a.slot? .channels).getD 0) .channels = a := by cases a <;> rfl
  have hb : (b.blank.setSlot ((b.slot? .sizeIn).getD 0) .sizeIn).setSlot
      ((b.slot? .channels).getD 0) .channels = b := by cases b <;> rfl
  rw [← ha, ← hb, hblank, hslot, hslot]

theorem kind?_blank (b : Block) : b.blank.kind? = b.kind? := by cases b <;> rfl

theorem sizeOut?_blank (b : Block) : b.blank.sizeOut? = b.sizeOut? := by cases b <;> rfl

theorem convolution?_blank (b : Block) :
    b.blank.convolution? = b.convolution?.map ({ · with sizeIn := 0 }) := by cases b <;> rfl

theorem pooling?_blank (b : Block) :
    b.blank.pooling? = b.pooling?.map ({ · with channels := 0 }) := by cases b <;> rfl

theorem kind?_setSlot (v : UInt32) (s : Slot) (b : Block) : (b.setSlot v s).kind? = b.kind? := by
  cases s <;> cases b <;> rfl

theorem family?_setSlot (v : UInt32) (s : Slot) (b : Block) :
    (b.setSlot v s).family? = b.family? := by
  unfold family?
  rw [kind?_setSlot]

end Block

namespace Node

def blank (n : Node) : Node := { n with block := n.block.blank }

theorem kind?_blank (n : Node) : n.blank.kind? = n.kind? := Block.kind?_blank n.block

def setSlot (v : UInt32) (s : Slot) (n : Node) : Node := { n with block := n.block.setSlot v s }

end Node

namespace Graph

variable {g h : Graph} {id : NodeId} {n : Node}

def blank (g : Graph) : Graph := g.mapNodes Node.blank

/-- What a slot of a node holds. -/
def slotValue? (g : Graph) (id : NodeId) (s : Slot) : Option UInt32 :=
  (g.node? id).bind (·.block.slot? s)

theorem assign_fst (hg : WellFormed g) (a : Assignment) :
    (g.assign a).1 = g.mapNode a.node (Node.setSlot a.value a.slot) := by
  -- a slot that is not there, or holds the value already, is not written; setting it changes nothing
  have hself : ∀ w, g.slotValue? a.node a.slot = w → (w = none ∨ w = some a.value) →
      g.mapNode a.node (Node.setSlot a.value a.slot) = g := by
    intro w hw hv
    apply mapNode_eq_self
    intro n hn hi
    have hnode := (node?_eq_some_iff hg.ids_nodup).mpr ⟨hn, hi⟩
    have hslot : n.block.slot? a.slot = w := by
      rw [← hw, slotValue?, hnode]
      rfl
    have hb : n.block.setSlot a.value a.slot = n.block := by
      rcases hv with rfl | rfl
      · exact Block.setSlot_of_slot?_eq_none hslot _
      · exact Block.setSlot_of_slot?_eq_some hslot
    rw [Node.setSlot, hb]
  unfold assign
  cases hv : (g.node? a.node).bind (·.block.slot? a.slot) with
  | none => exact (hself none hv (.inl rfl)).symm
  | some old =>
    by_cases ho : old = a.value
    · simp only [if_pos ho]
      exact (hself (some old) hv (.inr (congrArg some ho))).symm
    · simp only [if_neg ho]
      rfl

theorem blank_assign (g : Graph) (a : Assignment) : (g.assign a).1.blank = g.blank := by
  unfold assign
  cases (g.node? a.node).bind (·.block.slot? a.slot) with
  | none => rfl
  | some old =>
    by_cases ho : old = a.value
    · simp only [if_pos ho]
    · simp only [if_neg ho, blank, mapNode_eq_mapNodes, mapNodes, List.map_map]
      -- slot by slot, what is set is blanked again
      congr 1
      apply List.map_congr_left
      intro s _
      cases s with
      | none => rfl
      | some n =>
        by_cases hi : n.id = a.node
        · simp [hi, Node.blank, Block.blank_setSlot]
        · simp [hi]

theorem assignAll_cons (g : Graph) (a : Assignment) (as : List Assignment) :
    g.assignAll (a :: as) =
      (((g.assign a).1.assignAll as).1,
        (g.assign a).2.toList ++ ((g.assign a).1.assignAll as).2) := rfl

theorem assignAll_append (g : Graph) (as bs : List Assignment) :
    g.assignAll (as ++ bs) =
      (((g.assignAll as).1.assignAll bs).1,
        (g.assignAll as).2 ++ ((g.assignAll as).1.assignAll bs).2) := by
  induction as generalizing g with
  | nil => rfl
  | cons a as ih => rw [List.cons_append, assignAll_cons, assignAll_cons, ih, List.append_assoc]

theorem blank_assignAll (g : Graph) (as : List Assignment) :
    (g.assignAll as).1.blank = g.blank := by
  induction as generalizing g with
  | nil => rfl
  | cons a as ih => exact (ih (g.assign a).1).trans (blank_assign g a)

theorem wellFormed_assign (hg : WellFormed g) (a : Assignment) : WellFormed (g.assign a).1 := by
  rw [assign_fst hg]
  apply wellFormed_mapNode hg
  · intro n
    rfl
  · intro n
    exact Block.family?_setSlot _ _ _
  · intro n
    rfl

theorem wellFormed_assignAll (hg : WellFormed g) (as : List Assignment) :
    WellFormed (g.assignAll as).1 := by
  induction as generalizing g with
  | nil => exact hg
  | cons a as ih => exact ih (wellFormed_assign hg a)

theorem slotValue?_assign (hg : WellFormed g) (a : Assignment) (id : NodeId) (s : Slot) :
    (g.assign a).1.slotValue? id s =
      if id = a.node ∧ s = a.slot then (g.slotValue? id s).map fun _ => a.value
      else g.slotValue? id s := by
  have hid : ∀ n : Node,
      (if n.id = a.node then Node.setSlot a.value a.slot n else n).id = n.id := by
    intro n
    split <;> rfl
  unfold slotValue?
  rw [assign_fst hg, mapNode_eq_mapNodes, node?_mapNodes hid]
  cases hn : g.node? id with
  | none => simp
  | some n =>
    have hni := node?_id hn
    simp only [Option.map_some, Option.bind_some, hni]
    by_cases hi : id = a.node
    · by_cases hs : s = a.slot
      · subst hs
        rw [if_pos hi, if_pos ⟨hi, rfl⟩]
        exact Block.slot?_setSlot_self _ _ _
      · rw [if_pos hi, if_neg fun h => hs h.2]
        exact Block.slot?_setSlot_of_ne (Ne.symm hs) _ _
    · rw [if_neg hi, if_neg fun h => hi h.1]

theorem slotValue?_assignAll_of_not_mem (hg : WellFormed g) {as : List Assignment} {s : Slot}
    (has : ∀ a ∈ as, a.node = id → a.slot ≠ s) :
    (g.assignAll as).1.slotValue? id s = g.slotValue? id s := by
  induction as generalizing g with
  | nil => rfl
  | cons a as ih =>
    have htail := ih (wellFormed_assign hg a) fun b hb => has b (List.mem_cons_of_mem a hb)
    rw [assignAll_cons, htail, slotValue?_assign hg]
    apply if_neg
    rintro ⟨rfl, rfl⟩
    exact has a List.mem_cons_self rfl rfl

/-- When no node is assigned to twice, the slots hold what was assigned to them. -/
theorem slotValue?_assignAll_of_mem (hg : WellFormed g) {as : List Assignment} {a : Assignment}
    (has : (as.map (·.node)).Nodup) (ha : a ∈ as) (hslot : (g.slotValue? a.node a.slot).isSome) :
    (g.assignAll as).1.slotValue? a.node a.slot = some a.value := by
  induction as generalizing g with
  | nil => exact absurd ha (by simp)
  | cons b as ih =>
    rw [List.map_cons, List.nodup_cons] at has
    have hb := wellFormed_assign hg b
    rw [assignAll_cons]
    rcases List.mem_cons.mp ha with rfl | ha
    · -- no later assignment is to the same node, so the value stays
      have hout : ∀ x ∈ as, x.node = a.node → x.slot ≠ a.slot := by
        intro x hx he
        exact absurd (List.mem_map_of_mem hx) (he ▸ has.1)
      obtain ⟨v, hv⟩ := Option.isSome_iff_exists.mp hslot
      rw [slotValue?_assignAll_of_not_mem hb hout, slotValue?_assign hg, if_pos ⟨rfl, rfl⟩, hv]
      rfl
    · apply ih hb has.2 ha
      rw [slotValue?_assign hg]
      split
      · simpa using hslot
      · exact hslot

theorem assignAll_eq_self {as : List Assignment}
    (has : ∀ a ∈ as, g.slotValue? a.node a.slot = some a.value) : g.assignAll as = (g, []) := by
  induction as with
  | nil => rfl
  | cons a as ih =>
    have ha : g.assign a = (g, none) := by
      have hv : (g.node? a.node).bind (·.block.slot? a.slot) = some a.value :=
        has a List.mem_cons_self
      unfold assign
      rw [hv]
      exact if_pos rfl
    rw [assignAll_cons, ha, ih fun b hb => has b (List.mem_cons_of_mem a hb)]
    rfl

theorem node?_blank (g : Graph) (id : NodeId) : g.blank.node? id = (g.node? id).map Node.blank :=
  node?_mapNodes (f := Node.blank) (fun _ => rfl) id

theorem family_of_blank_eq (hblank : h.blank = g.blank) (f : Family) : h.family f = g.family f := by
  rw [← family_mapNodes h Node.blank, ← family_mapNodes g Node.blank]
  exact congrArg (·.family f) hblank

/-- What is not in a slot is the same of a node that differs in its slots only. -/
theorem exists_node?_of_blank_eq (hblank : h.blank = g.blank) (hn : g.node? id = some n) :
    ∃ m, h.node? id = some m ∧ m.blank = n.blank := by
  have hnode : (h.node? id).map Node.blank = some n.blank := by
    rw [← node?_blank, hblank, node?_blank, hn, Option.map_some]
  exact Option.map_eq_some_iff.mp hnode

theorem members_blank (g : Graph) (f : Family) :
    g.blank.members f = (g.members f).map Node.blank :=
  members_mapNodes (f := Node.blank) (fun _ => rfl) f

theorem lastChannels?_blank (g : Graph) : g.blank.lastChannels? = g.lastChannels? := by
  have hc : g.blank.convolutions = g.convolutions.map ({ · with sizeIn := 0 }) := by
    unfold convolutions
    rw [members_blank, List.filterMap_map, List.map_filterMap]
    apply List.filterMap_congr
    intro n _
    exact Block.convolution?_blank n.block
  unfold lastChannels?
  rw [hc, List.getLast?_map, Option.map_map]
  rfl

theorem finalSize_blank (g : Graph) (c : ShapeConfig) : g.blank.finalSize c = g.finalSize c := by
  have hp : g.blank.poolings = g.poolings.map ({ · with channels := 0 }) := by
    unfold poolings
    rw [members_blank, List.filterMap_map, List.map_filterMap]
    apply List.filterMap_congr
    intro n _
    exact Block.pooling?_blank n.block
  unfold finalSize
  rw [hp, List.foldl_map]

theorem flattened?_blank (g : Graph) (c : ShapeConfig) : g.blank.flattened? c = g.flattened? c := by
  unfold flattened?
  rw [lastChannels?_blank, finalSize_blank]

theorem flattenedAssignment?_blank (g : Graph) (c : ShapeConfig) :
    g.blank.flattenedAssignment? c = g.flattenedAssignment? c := by
  unfold flattenedAssignment?
  rw [flattened?_blank]
  rfl

end Graph

end LayerGraph
