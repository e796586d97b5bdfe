import LayerGraph.Proofs.Slots

namespace LayerGraph

/-- The slot of a spatial block that takes the channels before it. -/
def Block.channelSlot? : Block → Option Slot
  | .convolutional _ => some .sizeIn
  | .pooling _ => some .channels
  | _ => none

/-- The channels that a convolution puts out. -/
def Block.channelsOut? (b : Block) : Option UInt32 := b.convolution?.map (·.sizeOut)

/-- Along the spatial family, every block takes the channels of the convolution before it. -/
def passChannels : Option UInt32 → List Node → List Assignment
  | _, [] => []
  | incoming, n :: ns =>
    (do return ⟨n.id, ← n.block.channelSlot?, ← incoming⟩ : Option Assignment).toList ++
      passChannels (n.block.channelsOut?.or incoming) ns

/-- Along the neural family, every block takes the output of the block before it. -/
def chainSizes : Option UInt32 → List Node → List Assignment
  | _, [] => []
  | incoming, n :: ns =>
    (incoming.map (⟨n.id, .sizeIn, ·⟩)).toList ++ chainSizes n.block.sizeOut? ns

theorem passChannels_blank (incoming : Option UInt32) (ns : List Node) :
    passChannels incoming (ns.map Node.blank) = passChannels incoming ns := by
  induction ns generalizing incoming with
  | nil => rfl
  | cons n ns ih =>
    have hslot : n.blank.block.channelSlot? = n.block.channelSlot? := by
      unfold Node.blank
      cases n.block <;> rfl
    have hout : n.blank.block.channelsOut? = n.block.channelsOut? := by
      unfold Node.blank
      cases n.block <;> rfl
    rw [List.map_cons, passChannels, passChannels, ih, hslot, hout]
    rfl

theorem chainSizes_blank (incoming : Option UInt32) (ns : List Node) :
    chainSizes incoming (ns.map Node.blank) = chainSizes incoming ns := by
  induction ns generalizing incoming with
  | nil => rfl
  | cons n ns ih =>
    rw [List.map_cons, chainSizes, chainSizes, ih, Node.blank, Block.sizeOut?_blank]

theorem Block.isSome_sizeIn_of_neural {b : Block} (hb : b.family? = some .neural) :
    (b.slot? .sizeIn).isSome := by
  cases b <;> first | rfl | cases hb

theorem Node.eq_of_blank_eq {m n : Node} (hmn : m.blank = n.blank) (hb : m.block = n.block) :
    m = n := by
  have hm : { m.blank with block := m.block } = m := rfl
  rw [← hm, hmn, hb]
  rfl

theorem eq_of_map_eq {α β : Type} {f : α → β} {l l' : List α} (hl : l.map f = l'.map f)
    (hf : ∀ x ∈ l, ∀ y ∈ l', f x = f y → x = y) : l = l' := by
  induction l generalizing l' with
  | nil => exact (List.map_eq_nil_iff.mp hl.symm).symm
  | cons x l ih =>
    cases l' with
    | nil => exact absurd hl (by simp)
    | cons y l' =>
      obtain ⟨hxy, hl⟩ := List.cons.inj hl
      have hhead := hf x List.mem_cons_self y List.mem_cons_self hxy
      have htail := ih hl fun a ha b hb =>
        hf a (List.mem_cons_of_mem x ha) b (List.mem_cons_of_mem y hb)
      rw [hhead, htail]

namespace Graph

variable {g h : Graph} {id : NodeId} {n : Node}

/-- What the slots that other blocks determine have to be, in the order of the walk that sets them. -/
def assignments (g : Graph) (c : ShapeConfig) : List Assignment :=
  passChannels none (g.members .spatial) ++ (g.flattenedAssignment? c).toList ++
    chainSizes none (g.members .neural)

theorem assignments_blank (g : Graph) (c : ShapeConfig) :
    g.blank.assignments c = g.assignments c := by
  unfold assignments
  rw [members_blank, members_blank, passChannels_blank, chainSizes_blank,
    flattenedAssignment?_blank]

theorem filterMap_node?_of_blank_eq (hgh : h.blank = g.blank) (ids : List NodeId) :
    (ids.filterMap h.node?).map Node.blank = (ids.filterMap g.node?).map Node.blank := by
  rw [List.map_filterMap, List.map_filterMap]
  apply List.filterMap_congr
  intro id _
  rw [← node?_blank, ← node?_blank, hgh]

theorem blank_take (g : Graph) (id : NodeId) (s : Slot) (incoming : Option UInt32) :
    (g.take id s incoming).1.blank = g.blank := blank_assignAll g _

/-- What the walk sets does not change what it reads further on. -/
theorem reconcileSpatial_eq_assignAll (g : Graph) (incoming : Option UInt32) (ids : List NodeId) :
    g.reconcileSpatial incoming ids =
      g.assignAll (passChannels incoming (ids.filterMap g.node?)) := by
  induction ids generalizing g incoming with
  | nil => rfl
  | cons id ids ih =>
    -- behind a slot that was set the walk reads blocks without their slots, the same as before
    have hstep : ∀ s now next, (g.take id s now).1.reconcileSpatial next ids =
        (g.take id s now).1.assignAll (passChannels next (ids.filterMap g.node?)) := by
      intro s now next
      rw [ih, ← passChannels_blank, filterMap_node?_of_blank_eq (blank_take g id s now),
        passChannels_blank]
    cases hn : g.node? id with
    | none => simp only [reconcileSpatial, hn, Option.map_none, List.filterMap_cons_none hn, ih]
    | some n =>
      have hi := node?_id hn
      rw [List.filterMap_cons_some hn, passChannels, assignAll_append, hi]
      cases hb : n.block with
      | convolutional p =>
        simp only [reconcileSpatial, hn, Option.map_some, hb, hstep]
        cases incoming <;> rfl
      | pooling p =>
        simp only [reconcileSpatial, hn, Option.map_some, hb, hstep]
        cases incoming <;> rfl
      | _ =>
        simp only [reconcileSpatial, hn, Option.map_some, hb, ih]
        rfl

theorem reconcileNeural_eq_assignAll (g : Graph) (incoming : Option UInt32) {ids : List NodeId}
    (hids : ∀ id ∈ ids, g.contains id = true) :
    g.reconcileNeural incoming ids = g.assignAll (chainSizes incoming (ids.filterMap g.node?)) := by
  induction ids generalizing g incoming with
  | nil => rfl
  | cons id ids ih =>
    obtain ⟨n, hn⟩ := Option.isSome_iff_exists.mp (hids id List.mem_cons_self)
    have hblank := blank_take g id .sizeIn incoming
    have hnode : ∀ j, ((g.take id .sizeIn incoming).1.node? j).map Node.blank =
        (g.node? j).map Node.blank := by
      intro j
      rw [← node?_blank, hblank, node?_blank]
    have hids' : ∀ j ∈ ids, (g.take id .sizeIn incoming).1.contains j = true := by
      intro j hj
      have := congrArg Option.isSome (hnode j)
      simp only [Option.isSome_map] at this
      exact this.trans (hids j (List.mem_cons_of_mem id hj))
    -- the size that is passed on was not set
    have hout : ((g.take id .sizeIn incoming).1.node? id).bind (·.block.sizeOut?) =
        n.block.sizeOut? := by
      have hm := hnode id
      rw [hn] at hm
      obtain ⟨m, hm, he⟩ := Option.map_eq_some_iff.mp hm
      rw [hm, Option.bind_some, ← Block.sizeOut?_blank, ← Block.sizeOut?_blank n.block]
      exact congrArg (fun n : Node => n.block.sizeOut?) he
    rw [List.filterMap_cons_some hn, chainSizes, assignAll_append, node?_id hn]
    simp only [reconcileNeural]
    rw [hout, ih _ _ hids', ← chainSizes_blank, filterMap_node?_of_blank_eq hblank,
      chainSizes_blank]
    rfl

/-- The walk comes to the same as assigning what the graph asked for at its start. -/
theorem reconcile_eq_assignAll (hg : WellFormed g) (c : ShapeConfig) :
    g.reconcile c = g.assignAll (g.assignments c) := by
  have hs := reconcileSpatial_eq_assignAll g none g.spatial
  have hsb : (g.reconcileSpatial none g.spatial).1.blank = g.blank := by
    rw [hs]
    exact blank_assignAll g _
  have hf : (g.reconcileSpatial none g.spatial).1.flattenedAssignment? c =
      g.flattenedAssignment? c := by
    rw [← flattenedAssignment?_blank, hsb, flattenedAssignment?_blank]
  unfold reconcile
  simp only [hf]
  -- g1 is behind the spatial walk and g2 behind the flattened size; both are g up to slots
  generalize hg1 : (g.reconcileSpatial none g.spatial).1 = g1 at hsb
  generalize hg2 : (g1.assignAll (g.flattenedAssignment? c).toList).1 = g2
  have hb2 : g2.blank = g.blank := by
    rw [← hg2, blank_assignAll, hsb]
  have hw2 : WellFormed g2 := by
    rw [← hg2, ← hg1, hs]
    exact wellFormed_assignAll (wellFormed_assignAll hg _) _
  have hneural : g2.neural = g.neural := by
    change g2.blank.neural = g.blank.neural
    rw [hb2]
  have hids : ∀ id ∈ g2.neural, g2.contains id = true := fun id hid =>
    hw2.contains_of_mem_family (f := .neural) hid
  have hn := reconcileNeural_eq_assignAll g2 none hids
  rw [hn, hneural, ← chainSizes_blank, filterMap_node?_of_blank_eq hb2, chainSizes_blank]
  unfold assignments
  rw [assignAll_append, assignAll_append]
  rw [hs] at hg1 ⊢
  simp only [members, family] at hg1 ⊢
  rw [hg1, hg2]

/-- The channels behind some blocks: those that leave the last convolution among them. -/
def channelsBehind? (ns : List Node) : Option UInt32 :=
  (ns.filterMap (·.block.channelsOut?)).getLast?

/-- A slot of a block that other blocks determine, and the value that follows from them. -/
inductive Determined (g : Graph) (c : ShapeConfig) : NodeId → Slot → UInt32 → Prop where
  | convolution {before n after p v} (hs : g.members .spatial = before ++ n :: after)
      (hn : n.block = .convolutional p) (hv : channelsBehind? before = some v) :
      Determined g c n.id .sizeIn v
  | pooling {before n after p v} (hs : g.members .spatial = before ++ n :: after)
      (hn : n.block = .pooling p) (hv : channelsBehind? before = some v) :
      Determined g c n.id .channels v
  | chained {before m n after v} (hs : g.members .neural = before ++ m :: n :: after)
      (hv : m.block.sizeOut? = some v) : Determined g c n.id .sizeIn v
  /-- The first neural block, when there is a convolution and the spatial size has not collapsed. -/
  | flattened {n after p} (hs : g.members .neural = n :: after)
      (hp : g.convolutions.getLast? = some p) (hd : 0 < g.finalSize c) :
      Determined g c n.id .sizeIn
        (saturate (p.sizeOut.toNat * (g.finalSize c).toNat * (g.finalSize c).toNat))

def Owned (g : Graph) (c : ShapeConfig) (id : NodeId) (s : Slot) : Prop := ∃ v, g.Determined c id s v

theorem channelsBehind?_cons (n : Node) (ns : List Node) :
    channelsBehind? (n :: ns) = (channelsBehind? ns).or n.block.channelsOut? := by
  unfold channelsBehind?
  cases hn : n.block.channelsOut? with
  | none => rw [List.filterMap_cons_none (f := fun n : Node => n.block.channelsOut?) hn, Option.or_none]
  | some v =>
    rw [List.filterMap_cons_some (f := fun n : Node => n.block.channelsOut?) hn, List.getLast?_cons]
    cases (ns.filterMap (·.block.channelsOut?)).getLast? <;> rfl

theorem mem_passChannels {incoming : Option UInt32} {ns : List Node} {a : Assignment} :
    a ∈ passChannels incoming ns ↔ ∃ before n after, ns = before ++ n :: after ∧ n.id = a.node ∧
      n.block.channelSlot? = some a.slot ∧
      (channelsBehind? before).or incoming = some a.value := by
  induction ns generalizing incoming with
  | nil => simp [passChannels]
  | cons n ns ih =>
    have hhere : a ∈ (do return ⟨n.id, ← n.block.channelSlot?, ← incoming⟩ : Option Assignment).toList ↔
        n.id = a.node ∧ n.block.channelSlot? = some a.slot ∧ incoming = some a.value := by
      obtain ⟨node, slot, value⟩ := a
      cases n.block.channelSlot? <;> cases incoming <;> simp [bind, pure, eq_comm]
    rw [passChannels, List.mem_append, hhere, ih]
    constructor
    · rintro (⟨hid, hslot, hv⟩ | ⟨before, m, after, rfl, hid, hslot, hv⟩)
      · exact ⟨[], n, ns, rfl, hid, hslot, hv⟩
      · -- the channels that reach the rest are those of n, or else the incoming ones
        refine ⟨n :: before, m, after, rfl, hid, hslot, ?_⟩
        rw [channelsBehind?_cons, Option.or_assoc]
        exact hv
    · rintro ⟨before, m, after, he, hid, hslot, hv⟩
      cases before with
      | nil =>
        obtain ⟨rfl, rfl⟩ := List.cons.inj he
        exact .inl ⟨hid, hslot, hv⟩
      | cons x before =>
        obtain ⟨rfl, rfl⟩ := List.cons.inj he
        refine .inr ⟨before, m, after, rfl, hid, hslot, ?_⟩
        rw [← Option.or_assoc, ← channelsBehind?_cons]
        exact hv

theorem mem_chainSizes {incoming : Option UInt32} {ns : List Node} {a : Assignment} :
    a ∈ chainSizes incoming ns ↔ a.slot = .sizeIn ∧
      ((∃ n after, ns = n :: after ∧ n.id = a.node ∧ incoming = some a.value) ∨
        ∃ before m n after, ns = before ++ m :: n :: after ∧ n.id = a.node ∧
          m.block.sizeOut? = some a.value) := by
  induction ns generalizing incoming with
  | nil => simp [chainSizes]
  | cons n ns ih =>
    have hhere : a ∈ (incoming.map (⟨n.id, .sizeIn, ·⟩)).toList ↔
        a.slot = .sizeIn ∧ n.id = a.node ∧ incoming = some a.value := by
      obtain ⟨node, slot, value⟩ := a
      cases incoming <;> simp [eq_comm, and_left_comm]
    rw [chainSizes, List.mem_append, hhere, ih]
    constructor
    · rintro (⟨hs, hid, hv⟩ | ⟨hs, ⟨m, after, rfl, hid, hv⟩ | ⟨before, x, m, after, rfl, hid, hv⟩⟩)
      · exact ⟨hs, .inl ⟨n, ns, rfl, hid, hv⟩⟩
      · exact ⟨hs, .inr ⟨[], n, m, after, rfl, hid, hv⟩⟩
      · exact ⟨hs, .inr ⟨n :: before, x, m, after, rfl, hid, hv⟩⟩
    · rintro ⟨hs, ⟨m, after, he, hid, hv⟩ | ⟨before, x, m, after, he, hid, hv⟩⟩
      · obtain ⟨rfl, rfl⟩ := List.cons.inj he
        exact .inl ⟨hs, hid, hv⟩
      · cases before with
        | nil =>
          obtain ⟨rfl, rfl⟩ := List.cons.inj he
          exact .inr ⟨hs, .inl ⟨m, after, rfl, hid, hv⟩⟩
        | cons y before =>
          obtain ⟨rfl, rfl⟩ := List.cons.inj he
          exact .inr ⟨hs, .inr ⟨before, x, m, after, rfl, hid, hv⟩⟩

/-- Multiplying in two steps stops at the largest number just when the product is above it. -/
theorem satMul_satMul {a d : UInt32} (hd : 0 < d) :
    satMul (satMul a d) d = saturate (a.toNat * d.toNat * d.toNat) := by
  have hd1 : 1 ≤ d.toNat := by
    rw [UInt32.lt_iff_toNat_lt] at hd
    exact hd
  apply UInt32.toNat.inj
  unfold satMul
  rw [toNat_saturate, toNat_saturate, toNat_saturate]
  rcases Nat.le_total (a.toNat * d.toNat) (2 ^ 32 - 1) with h | h
  · rw [min_eq_left h]
  · -- the first product is cut off already, and d is not zero
    have h1 : 2 ^ 32 - 1 ≤ (2 ^ 32 - 1) * d.toNat := Nat.le_mul_of_pos_right _ hd1
    have h2 : (2 ^ 32 - 1) * d.toNat ≤ a.toNat * d.toNat * d.toNat := Nat.mul_le_mul_right _ h
    rw [min_eq_right h, min_eq_right h1, min_eq_right (h1.trans h2)]

theorem mem_flattenedAssignment? (hg : WellFormed g) {c : ShapeConfig} {a : Assignment} :
    a ∈ (g.flattenedAssignment? c).toList ↔ ∃ n after p, g.members .neural = n :: after ∧
      g.convolutions.getLast? = some p ∧ 0 < g.finalSize c ∧ a = ⟨n.id, .sizeIn,
        saturate (p.sizeOut.toNat * (g.finalSize c).toNat * (g.finalSize c).toNat)⟩ := by
  have hids := hg.map_id_members .neural
  unfold flattenedAssignment? flattened? lastChannels?
  change (g.members .neural).map (·.id) = g.neural at hids
  rw [← hids]
  cases g.members .neural with
  | nil => simp
  | cons n after =>
    cases g.convolutions.getLast? with
    | none => simp [bind]
    | some p =>
      by_cases hd : g.finalSize c = 0
      · simp [bind, hd]
      · have hd' : 0 < g.finalSize c := by
          rw [UInt32.lt_iff_toNat_lt]
          exact Nat.pos_of_ne_zero fun h => hd (UInt32.toNat.inj h)
        simp [bind, pure, hd, hd', satMul_satMul hd']

/-- The walk sets just the slots that other blocks determine. -/
theorem mem_assignments (hg : WellFormed g) {c : ShapeConfig} {a : Assignment} :
    a ∈ g.assignments c ↔ g.Determined c a.node a.slot a.value := by
  unfold assignments
  rw [List.mem_append, List.mem_append, mem_passChannels, mem_flattenedAssignment? hg,
    mem_chainSizes]
  constructor
  · rintro ((⟨before, n, after, hs, hid, hslot, hv⟩ | ⟨n, after, p, hs, hp, hd, rfl⟩) |
      ⟨hslot, ⟨n, after, -, -, hv⟩ | ⟨before, m, n, after, hs, hid, hv⟩⟩)
    · rw [Option.or_none] at hv
      obtain ⟨node, slot, value⟩ := a
      subst hid
      cases hb : n.block with
      | convolutional p =>
        obtain rfl : Slot.sizeIn = slot := by simpa [Block.channelSlot?, hb] using hslot
        exact .convolution hs hb hv
      | pooling p =>
        obtain rfl : Slot.channels = slot := by simpa [Block.channelSlot?, hb] using hslot
        exact .pooling hs hb hv
      | _ => simp [Block.channelSlot?, hb] at hslot
    · exact .flattened hs hp hd
    · exact absurd hv (by simp)
    · obtain ⟨node, slot, value⟩ := a
      subst hid hslot
      exact .chained hs hv
  · obtain ⟨node, slot, value⟩ := a
    rintro (⟨hs, hn, hv⟩ | ⟨hs, hn, hv⟩ | ⟨hs, hv⟩ | ⟨hs, hp, hd⟩)
    · refine .inl (.inl ⟨_, _, _, hs, rfl, ?_, ?_⟩)
      · rw [hn]
        rfl
      · rw [hv]
        rfl
    · refine .inl (.inl ⟨_, _, _, hs, rfl, ?_, ?_⟩)
      · rw [hn]
        rfl
      · rw [hv]
        rfl
    · exact .inr ⟨rfl, .inr ⟨_, _, _, _, hs, rfl, hv⟩⟩
    · exact .inl (.inr ⟨_, _, _, hs, hp, hd, rfl⟩)

theorem map_node_passChannels_sublist (incoming : Option UInt32) (ns : List Node) :
    ((passChannels incoming ns).map (·.node)).Sublist (ns.map (·.id)) := by
  induction ns generalizing incoming with
  | nil => exact List.Sublist.refl _
  | cons n ns ih =>
    rw [passChannels, List.map_append, List.map_cons]
    have hrest := ih (n.block.channelsOut?.or incoming)
    cases n.block.channelSlot? with
    | none => exact hrest.cons n.id
    | some s =>
      cases incoming with
      | none => exact hrest.cons n.id
      | some v => exact hrest.cons_cons n.id

theorem map_node_chainSizes_sublist (incoming : Option UInt32) (ns : List Node) :
    ((chainSizes incoming ns).map (·.node)).Sublist (ns.map (·.id)) := by
  induction ns generalizing incoming with
  | nil => exact List.Sublist.refl _
  | cons n ns ih =>
    rw [chainSizes, List.map_append, List.map_cons]
    have hrest := ih n.block.sizeOut?
    cases incoming with
    | none => exact hrest.cons n.id
    | some v => exact hrest.cons_cons n.id

/-- No node is set twice: spatial blocks are not neural, and only the first neural block is flattened. -/
theorem map_node_assignments_nodup (hg : WellFormed g) (c : ShapeConfig) :
    ((g.assignments c).map (·.node)).Nodup := by
  have hspatial := map_node_passChannels_sublist none (g.members .spatial)
  rw [hg.map_id_members] at hspatial
  have hneural : (((g.flattenedAssignment? c).toList ++ chainSizes none (g.members .neural)).map
      (·.node)).Sublist (g.family .neural) := by
    rw [← hg.map_id_members .neural, List.map_append]
    cases hf : g.flattenedAssignment? c with
    | none => exact map_node_chainSizes_sublist none _
    | some a =>
      obtain ⟨n, after, p, hs, -, -, rfl⟩ :=
        (mem_flattenedAssignment? hg (a := a)).mp (by rw [hf]; exact List.mem_singleton_self a)
      rw [hs, List.map_cons]
      exact (map_node_chainSizes_sublist n.block.sizeOut? after).cons_cons n.id
  unfold assignments
  rw [List.append_assoc, List.map_append, List.nodup_append]
  refine ⟨(hg.family_nodup _).sublist hspatial, (hg.family_nodup _).sublist hneural, ?_⟩
  -- a block of both families would have two of them
  rintro i hi j hj rfl
  obtain ⟨-, m, hm, hmi, hmf⟩ := (hg.mem_family _ _).mp (hspatial.subset hi)
  obtain ⟨-, n, hn, hni, hnf⟩ := (hg.mem_family _ _).mp (hneural.subset hj)
  have hmn : m = n := List.inj_on_of_nodup_map hg.ids_nodup hm hn (hmi.trans hni.symm)
  rw [hmn, hnf] at hmf
  exact absurd hmf (by simp)

theorem slotValue?_of_mem_members (hg : WellFormed g) {f : Family} (hn : n ∈ g.members f) (s : Slot) :
    g.slotValue? n.id s = n.block.slot? s := by
  have hnode := (node?_eq_some_iff hg.ids_nodup).mpr ⟨(hg.mem_members.mp hn).1, rfl⟩
  rw [slotValue?, hnode]
  rfl

/-- What other blocks determine is a slot that the block has. -/
theorem isSome_slotValue?_of_determined (hg : WellFormed g) {c : ShapeConfig} {s : Slot}
    {v : UInt32} (hd : g.Determined c id s v) : (g.slotValue? id s).isSome := by
  have hneural : ∀ n ∈ g.members .neural, (g.slotValue? n.id .sizeIn).isSome := by
    intro n hn
    rw [slotValue?_of_mem_members hg hn]
    exact Block.isSome_sizeIn_of_neural (hg.mem_members.mp hn).2.1
  cases hd with
  | convolution hs hn hv =>
    rw [slotValue?_of_mem_members hg (hs ▸ List.mem_append_cons_self), hn]
    rfl
  | pooling hs hn hv =>
    rw [slotValue?_of_mem_members hg (hs ▸ List.mem_append_cons_self), hn]
    rfl
  | chained hs hv =>
    apply hneural
    rw [hs]
    simp
  | flattened hs hp hd =>
    apply hneural
    rw [hs]
    exact List.mem_cons_self

/--
The graphs agree on all but some slots: on blocks, ids, families, places, labels, positions and
connections, and on the slots that are not among them.
-/
structure AgreesBut (owned : NodeId → Slot → Prop) (g h : Graph) : Prop where
  blank : h.blank = g.blank
  free : ∀ id s, ¬ owned id s → h.slotValue? id s = g.slotValue? id s

theorem nodes_map_blank_of_blank_eq (hblank : h.blank = g.blank) :
    h.nodes.map Node.blank = g.nodes.map Node.blank := by
  rw [← nodes_mapNodes, ← nodes_mapNodes]
  exact congrArg nodes hblank

/-- A graph is what it is without slots and what its slots hold. -/
theorem eq_of_blank_eq (hg : WellFormed g) (hblank : h.blank = g.blank)
    (hslot : ∀ id s, h.slotValue? id s = g.slotValue? id s) : h = g := by
  have hnodes := nodes_map_blank_of_blank_eq hblank
  have hhids : (h.nodes.map (·.id)).Nodup := by
    have he : ∀ l : List Node, l.map (·.id) = (l.map Node.blank).map (·.id) := by
      intro l
      rw [List.map_map]
      rfl
    rw [he, hnodes, ← he]
    exact hg.ids_nodup
  have hnode : ∀ m ∈ h.nodes, ∀ n ∈ g.nodes, m.blank = n.blank → m = n := by
    intro m hm n hn hmn
    have hid : m.id = n.id := show m.blank.id = n.blank.id by rw [hmn]
    have hblock : m.blank.block = n.blank.block := by rw [hmn]
    apply Node.eq_of_blank_eq hmn
    apply Block.eq_of_blank_eq hblock
    intro s
    have hv := hslot n.id s
    rw [slotValue?, slotValue?, (node?_eq_some_iff hhids).mpr ⟨hm, hid⟩,
      (node?_eq_some_iff hg.ids_nodup).mpr ⟨hn, rfl⟩] at hv
    exact hv
  -- the tables agree slot by slot, vacant ones included
  have hslots : h.slots = g.slots := by
    have hmap : h.slots.map (Option.map Node.blank) = g.slots.map (Option.map Node.blank) :=
      congrArg Graph.slots hblank
    apply eq_of_map_eq hmap
    intro s hs t ht hst
    cases s with
    | none => exact (Option.map_eq_none_iff.mp hst.symm).symm
    | some m =>
      obtain ⟨n, rfl, hmn⟩ := Option.map_eq_some_iff.mp hst.symm
      have hm : m ∈ h.nodes := List.mem_filterMap.mpr ⟨some m, hs, rfl⟩
      have hn : n ∈ g.nodes := List.mem_filterMap.mpr ⟨some n, ht, rfl⟩
      rw [hnode m hm n hn hmn.symm]
  obtain ⟨slots, vacant, neural, spatial, edges⟩ := h
  obtain ⟨slots', vacant', neural', spatial', edges'⟩ := g
  obtain rfl : slots = slots' := hslots
  simp only [blank, mapNodes, Graph.mk.injEq] at hblank
  obtain ⟨-, rfl, rfl, rfl, rfl⟩ := hblank
  rfl

theorem agreesBut_reconcile (hg : WellFormed g) (c : ShapeConfig) :
    AgreesBut (g.Owned c) g (g.reconcile c).1 := by
  rw [reconcile_eq_assignAll hg]
  constructor
  · exact blank_assignAll g _
  · intro id s hs
    apply slotValue?_assignAll_of_not_mem hg
    rintro a ha rfl rfl
    exact hs ⟨a.value, (mem_assignments hg).mp ha⟩

theorem slotValue?_reconcile (hg : WellFormed g) {c : ShapeConfig} {s : Slot} {v : UInt32}
    (hd : g.Determined c id s v) : (g.reconcile c).1.slotValue? id s = some v := by
  rw [reconcile_eq_assignAll hg]
  exact slotValue?_assignAll_of_mem hg (a := ⟨id, s, v⟩) (map_node_assignments_nodup hg c)
    ((mem_assignments hg).mpr hd) (isSome_slotValue?_of_determined hg hd)

theorem wellFormed_reconcile (hg : WellFormed g) (c : ShapeConfig) :
    WellFormed (g.reconcile c).1 := by
  rw [reconcile_eq_assignAll hg]
  exact wellFormed_assignAll hg _

/-- No block has a size other than the one that follows from the blocks before it. -/
def Settled (g : Graph) (c : ShapeConfig) : Prop := g.reconcile c = (g, [])

theorem settled_reconcile (hg : WellFormed g) (c : ShapeConfig) :
    (g.reconcile c).1.Settled c := by
  have hblank := (agreesBut_reconcile hg c).blank
  -- a second pass asks for what the first one did
  have has : (g.reconcile c).1.assignments c = g.assignments c := by
    rw [← assignments_blank, hblank, assignments_blank]
  unfold Settled
  rw [reconcile_eq_assignAll (wellFormed_reconcile hg c), has]
  apply assignAll_eq_self
  intro a ha
  exact slotValue?_reconcile hg ((mem_assignments hg).mp ha)

/--
Reconciling gives the one graph that agrees with the given one on everything that other blocks do
not determine and holds the determined values elsewhere. A second pass changes nothing.
-/
theorem eq_reconcile_iff (hg : g.Reachable) (c : ShapeConfig) :
    (∀ r, r = (g.reconcile c).1 ↔
      AgreesBut (g.Owned c) g r ∧ ∀ id s v, g.Determined c id s v → r.slotValue? id s = some v) ∧
    (g.reconcile c).1.reconcile c = ((g.reconcile c).1, []) := by
  have hw := hg.wellFormed
  refine ⟨?_, settled_reconcile hw c⟩
  intro r
  constructor
  · rintro rfl
    exact ⟨agreesBut_reconcile hw c, fun _ _ _ => slotValue?_reconcile hw⟩
  · rintro ⟨⟨hblank, hfree⟩, hdetermined⟩
    have hr := agreesBut_reconcile hw c
    apply eq_of_blank_eq (wellFormed_reconcile hw c) (hblank.trans hr.blank.symm)
    -- a slot is determined by other blocks, or left as g has it
    intro id s
    by_cases ho : g.Owned c id s
    · obtain ⟨v, hv⟩ := ho
      rw [hdetermined id s v hv, slotValue?_reconcile hw hv]
    · rw [hfree id s ho, hr.free id s ho]

/-- Two convolutions that do not fit, and a block behind them that does not fit either. -/
def mismatched : List GraphOperation :=
  [.add (.new ⟨"a"⟩ 0 (.convolutional ⟨3, 32, 3, 1⟩)), .add (.new ⟨"in"⟩ 0 (.input ⟨12, 8⟩)),
   .add (.new ⟨"b"⟩ 1 (.convolutional ⟨8, 64, 3, 1⟩))]

theorem eq_reconcile_iff_mismatched :
    let g := mismatched.foldl GraphOperation.apply Graph.empty
    g.Reachable ∧
    (g.reconcile { initialSpatialSize := 2 }).2.map (fun a => (a.node.text, a.new)) =
      [("b", 32), ("in", 256)] ∧
    (∀ r, r = (g.reconcile { initialSpatialSize := 2 }).1 ↔
      AgreesBut (g.Owned { initialSpatialSize := 2 }) g r ∧
      ∀ id s v, g.Determined { initialSpatialSize := 2 } id s v → r.slotValue? id s = some v) := by
  intro g
  have hg : g.Reachable := ⟨mismatched, rfl⟩
  exact ⟨hg, by decide, (eq_reconcile_iff hg _).1⟩

end Graph

end LayerGraph
