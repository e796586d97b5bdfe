import LayerGraph.Proofs.Domains
import LayerGraph.Proofs.Narrowed
import LayerGraph.Proofs.Reported

namespace LayerGraph

section Neighbours

variable {α : Type} {key : α → UInt32} {l : List α}

/-- In a list in order, those with one key are neighbours. -/
theorem countP_neighbours (hl : l.Pairwise fun a b => key a ≤ key b) (i : UInt32) :
    (neighbours l).countP (fun (a, b) => key a = key b ∧ key a = i) =
      l.countP (key · = i) - 1 := by
  induction l with
  | nil => rfl
  | cons a l ih =>
    cases l with
    | nil =>
      have hone : [a].countP (key · = i) ≤ 1 := List.countP_le_length
      exact (Nat.sub_eq_zero_of_le hone).symm
    | cons b l =>
      obtain ⟨ha, hl⟩ := List.pairwise_cons.mp hl
      have hab := ha b List.mem_cons_self
      have hcons : (a :: b :: l).countP (key · = i) =
          (b :: l).countP (key · = i) + if key a = i then 1 else 0 := by
        rw [List.countP_cons]
        simp
      rw [neighbours_cons_cons, List.countP_cons, ih hl, hcons]
      by_cases hai : key a = i
      · by_cases hbi : key b = i
        · have hsome : 1 ≤ (b :: l).countP (key · = i) :=
            List.countP_pos_iff.mpr ⟨b, List.mem_cons_self, by simp [hbi]⟩
          rw [if_pos hai, if_pos (by simp [hai, hbi])]
          omega
        · -- past a higher key there is none that is as low
          have hnone : (b :: l).countP (key · = i) = 0 := by
            rw [List.countP_eq_zero]
            intro x hx hxi
            have hxi : key x = i := of_decide_eq_true hxi
            rcases List.mem_cons.mp hx with rfl | hx
            · exact hbi hxi
            · have hbx := (List.pairwise_cons.mp hl).1 x hx
              exact hbi (UInt32.le_antisymm (hxi ▸ hbx) (hai ▸ hab))
          simp [hnone, hai, Ne.symm hbi]
      · simp [hai]

end Neighbours

/-- The family and the sequence index that two blocks share. -/
def Violation.shared? : Violation → Option (Family × UInt32)
  | .duplicateSequenceIndex family index _ _ => some (family, index)
  | _ => none

theorem Violation.exists_shared? {x : Violation} {f : Family} (hx : x.part = .duplicates f) :
    ∃ i, x.shared? = some (f, i) := by
  cases x with
  | duplicateSequenceIndex family i first second =>
    obtain rfl := Part.duplicates.inj hx
    exact ⟨i, rfl⟩
  | chainMismatch family node previous expected actual => cases family <;> cases hx
  | _ => cases hx

theorem Violation.part_eq_duplicates {x : Violation} {f : Family} {i : UInt32}
    (hx : x.shared? = some (f, i)) : x.part = .duplicates f := by
  cases x with
  | duplicateSequenceIndex family j first second =>
    cases hx
    rfl
  | _ => cases hx

theorem Block.rejections_eq_nil_iff_read? (b : Block) :
    b.rejections = [] ↔ ∀ k, b.kind? = some k → ∀ spec ∈ k.params,
      ∃ v, b.read? spec.param = some v ∧ spec.domain.Contains v := by
  cases hk : b.kind? with
  | none =>
    have hnone : b.rejections = [] := by
      unfold rejections
      rw [hk]
    simp [hnone]
  | some k =>
    rw [rejections_eq_nil_iff_forall hk]
    simp only [Option.some.injEq, forall_eq']
    apply forall₂_congr
    intro spec hspec
    obtain ⟨v, hv⟩ := Option.isSome_iff_exists.mp (isSome_read? hk spec hspec)
    simp [hv, Domain.rejection?_eq_none_iff]

namespace Graph

variable {g : Graph} {c : ShapeConfig} {f : Family} {i : UInt32}

/-- All that the check looks at is as it should be. -/
structure Valid (g : Graph) (c : ShapeConfig) : Prop where
  inDomain : ∀ n ∈ g.nodes, ∀ k, n.kind? = some k → ∀ spec ∈ k.params,
    ∃ v, n.block.read? spec.param = some v ∧ spec.domain.Contains v
  distinct : ∀ m ∈ g.nodes, ∀ n ∈ g.nodes, m.family?.isSome = true → m.family? = n.family? →
    m.sequenceIndex = n.sequenceIndex → m = n
  /-- A convolution takes the channels of the one before it. -/
  convolutions : ∀ before n after p out, g.members .spatial = before ++ n :: after →
    n.block = .convolutional p → channelsBehind? before = some out → p.sizeIn = out
  /-- A pooling block passes on the channels of the nearest convolution before it. -/
  poolings : ∀ before n after p out, g.members .spatial = before ++ n :: after →
    n.block = .pooling p → channelsBehind? before = some out → p.channels = out
  /-- The first neural block takes what the convolutions give when flattened. -/
  first : ∀ n after size, g.members .neural = n :: after → g.flattened? c = some size →
    n.block.slot? .sizeIn = some size
  later : ∀ before m n after, g.members .neural = before ++ m :: n :: after →
    n.block.slot? .sizeIn = m.block.sizeOut?
  /-- No pooling block makes all of a side vanish. -/
  kept : ∀ before p after, g.poolings = before ++ p :: after →
    reduceAll c.initialSpatialSize before ≠ 0 →
      reduceDim (reduceAll c.initialSpatialSize before) p.kernelSize p.stride ≠ 0

theorem members_perm_filter (hg : WellFormed g) (f : Family) :
    (g.members f).Perm (g.nodes.filter (·.family? = some f)) := by
  have hnodup : (g.nodes.filter (·.family? = some f)).Nodup :=
    (List.Nodup.of_map _ hg.ids_nodup).filter _
  rw [List.perm_ext_iff_of_nodup (hg.members_nodup f) hnodup]
  intro n
  rw [hg.mem_members, List.mem_filter]
  simp

theorem countP_members (hg : WellFormed g) (f : Family) (i : UInt32) :
    (g.members f).countP (·.sequenceIndex = i) =
      g.nodes.countP fun n => n.family? = some f ∧ n.sequenceIndex = i := by
  rw [(members_perm_filter hg f).countP_eq, List.countP_filter]
  apply List.countP_congr
  intro n _
  simp [and_comm]

/-- All the blocks with a sequence index but one are reported. -/
theorem countP_shared?_duplicates (hg : WellFormed g) (f : Family) (i : UInt32) :
    (g.duplicates f).countP (·.shared? = some (f, i)) =
      (g.members f).countP (·.sequenceIndex = i) - 1 := by
  rw [← countP_neighbours (hg.sorted f) i]
  unfold duplicates
  rw [List.countP_filterMap]
  apply List.countP_congr
  rintro ⟨m, n⟩ _
  dsimp only
  split
  · rename_i h
    simp [h, Violation.shared?]
  · rename_i h
    simp [h]

theorem duplicates_eq_nil_iff (hg : WellFormed g) :
    g.duplicates f = [] ↔ ((g.members f).map (·.sequenceIndex)).Nodup := by
  have hcount : ∀ i, ((g.members f).map (·.sequenceIndex)).count i =
      (g.members f).countP (·.sequenceIndex = i) := by
    intro i
    rw [List.count, List.countP_map]
    rfl
  rw [List.nodup_iff_count_le_one]
  simp only [hcount]
  constructor
  · intro hnil i
    have h := countP_shared?_duplicates hg f i
    rw [hnil, List.countP_nil] at h
    omega
  · intro hone
    rw [List.eq_nil_iff_forall_not_mem]
    intro x hx
    obtain ⟨j, hj⟩ := Violation.exists_shared?
      (part_of_mem_reports (c := {}) (s := .duplicates f) hx)
    have hpos : 0 < (g.duplicates f).countP (·.shared? = some (f, j)) :=
      List.countP_pos_iff.mpr ⟨x, hx, by simp [hj]⟩
    have h := countP_shared?_duplicates hg f j
    have := hone j
    omega

theorem duplicates_eq_nil_iff_distinct (hg : WellFormed g) : (∀ f, g.duplicates f = []) ↔
    ∀ m ∈ g.nodes, ∀ n ∈ g.nodes, m.family?.isSome = true → m.family? = n.family? →
      m.sequenceIndex = n.sequenceIndex → m = n := by
  have hmem : ∀ f n, n ∈ g.members f ↔ n ∈ g.nodes ∧ n.family? = some f := by
    intro f n
    simp [hg.mem_members]
  simp only [duplicates_eq_nil_iff hg, List.nodup_map_iff_inj_on (hg.members_nodup _), hmem]
  constructor
  · intro h m hm n hn hsome hmn
    obtain ⟨f, hf⟩ := Option.isSome_iff_exists.mp hsome
    exact h f m ⟨hm, hf⟩ n ⟨hn, hmn ▸ hf⟩
  · rintro h f m ⟨hm, hmf⟩ n ⟨hn, hnf⟩
    exact h m hm n hn (by simp [hmf]) (hmf.trans hnf.symm)

theorem flattened?_eq_some_iff {v : UInt32} : g.flattened? c = some v ↔
    ∃ p, g.convolutions.getLast? = some p ∧ 0 < g.finalSize c ∧
      saturate (p.sizeOut.toNat * (g.finalSize c).toNat * (g.finalSize c).toNat) = v := by
  unfold flattened? lastChannels?
  cases g.convolutions.getLast? with
  | none => simp
  | some p =>
    by_cases hd : g.finalSize c = 0
    · simp [hd]
    · have hpos : 0 < g.finalSize c := UInt32.pos_iff_ne_zero.mpr hd
      simp [hd, hpos, satMul_satMul hpos]

theorem settled_iff_determined (hg : WellFormed g) : g.Settled c ↔
    ∀ id s v, g.Determined c id s v → g.slotValue? id s = some v := by
  rw [settled_iff hg]
  constructor
  · intro h id s v hd
    exact h ⟨id, s, v⟩ ((mem_assignments hg).mpr hd)
  · intro h a ha
    exact h _ _ _ ((mem_assignments hg).mp ha)

/-- No collapse is reported just when each pooling block leaves something of a side. -/
theorem countP_isCollapse_eq_zero_iff : (g.validate c).countP Violation.isCollapse = 0 ↔
    ∀ before p after, g.poolings = before ++ p :: after →
      reduceAll c.initialSpatialSize before ≠ 0 →
        reduceDim (reduceAll c.initialSpatialSize before) p.kernelSize p.stride ≠ 0 := by
  rw [countP_isCollapse_validate, List.countP_eq_zero]
  unfold spatialSizes
  simp only [mem_neighbours_sizesAlong]
  constructor
  · intro h before p after hsplit hdim hzero
    exact h _ ⟨before, p, after, hsplit, rfl⟩ (by simp [vanishes, hdim, hzero])
  · rintro h _ ⟨before, p, after, hsplit, rfl⟩ hvanishes
    obtain ⟨hdim, hzero⟩ := of_decide_eq_true hvanishes
    exact h before p after hsplit hdim hzero

/-- What is reported is a value, a shared sequence index, a size that is mended, or a collapse. -/
theorem validate_eq_nil_iff (hg : WellFormed g) : g.validate c = [] ↔
    (∀ n ∈ g.nodes, n.block.rejections = []) ∧ (∀ f, g.duplicates f = []) ∧ g.Settled c ∧
      (g.validate c).countP Violation.isCollapse = 0 := by
  rw [settled_iff_validate hg]
  constructor
  · intro h
    have hreports : ∀ s, g.reports c s = [] := by
      intro s
      rw [← filter_validate, h]
      rfl
    refine ⟨?_, fun f => hreports (.duplicates f), by simp [h], by simp [h]⟩
    intro n hn
    exact List.map_eq_nil_iff.mp (List.flatMap_eq_nil_iff.mp (hreports .values) n hn)
  · rintro ⟨hvalues, hduplicates, hmend, hcollapse⟩
    rw [List.eq_nil_iff_forall_not_mem]
    intro x hx
    have hreport : x ∈ g.reports c x.part := by
      rw [← filter_validate]
      exact List.mem_filter.mpr ⟨hx, by simp⟩
    cases x with
    | invalidValue node param reason =>
      obtain ⟨n, hn, hreport⟩ := List.mem_flatMap.mp hreport
      simp [Node.invalidValues, hvalues n hn] at hreport
    | duplicateSequenceIndex family i first second =>
      have hnil : g.reports c (.duplicates family) = [] := hduplicates family
      exact absurd hreport (hnil ▸ List.not_mem_nil)
    | spatialCollapse node =>
      exact List.countP_eq_zero.mp hcollapse _ hx rfl
    | _ => cases hmend _ hx

theorem valid_iff (hg : WellFormed g) : g.Valid c ↔
    (∀ n ∈ g.nodes, n.block.rejections = []) ∧ (∀ f, g.duplicates f = []) ∧ g.Settled c ∧
      (g.validate c).countP Violation.isCollapse = 0 := by
  simp only [Block.rejections_eq_nil_iff_read?]
  rw [duplicates_eq_nil_iff_distinct hg, settled_iff_determined hg, countP_isCollapse_eq_zero_iff]
  have hslot : ∀ f before n after s, g.members f = before ++ n :: after →
      g.slotValue? n.id s = n.block.slot? s := fun f before n after s hs =>
    slotValue?_of_mem_members hg (hs ▸ List.mem_append_cons_self) s
  constructor
  · intro h
    refine ⟨h.inDomain, h.distinct, ?_, h.kept⟩
    rintro id s v (⟨hs, hn, hv⟩ | ⟨hs, hn, hv⟩ | ⟨hs, hv⟩ | ⟨hs, hp, hd⟩)
    · rw [hslot _ _ _ _ _ hs, hn, ← h.convolutions _ _ _ _ _ hs hn hv]
      rfl
    · rw [hslot _ _ _ _ _ hs, hn, ← h.poolings _ _ _ _ _ hs hn hv]
      rfl
    · rw [hslot _ (_ ++ [_]) _ _ _ (by simpa using hs), h.later _ _ _ _ hs, hv]
    · rw [hslot _ [] _ _ _ hs]
      exact h.first _ _ _ hs (flattened?_eq_some_iff.mpr ⟨_, hp, hd, rfl⟩)
  · rintro ⟨hvalues, hdistinct, hslots, hkept⟩
    refine ⟨hvalues, hdistinct, ?_, ?_, ?_, ?_, hkept⟩
    · intro before n after p out hs hn hv
      have hout := hslots _ _ _ (.convolution hs hn hv)
      rw [hslot _ _ _ _ _ hs, hn] at hout
      exact Option.some.inj hout
    · intro before n after p out hs hn hv
      have hout := hslots _ _ _ (.pooling hs hn hv)
      rw [hslot _ _ _ _ _ hs, hn] at hout
      exact Option.some.inj hout
    · intro n after size hs hsize
      obtain ⟨p, hp, hd, rfl⟩ := flattened?_eq_some_iff.mp hsize
      exact (hslot _ [] _ _ _ hs).symm.trans (hslots _ _ _ (.flattened hs hp hd))
    · intro before m n after hs
      -- a neural block has an output size
      have hm : m ∈ g.members .neural := hs ▸ List.mem_append_cons_self
      obtain ⟨size, hsize⟩ := Option.isSome_iff_exists.mp
        (Block.isSome_sizeIn_of_neural (hg.mem_members.mp hm).2.1)
      obtain ⟨sizes, hsizes, -⟩ := Option.map_eq_some_iff.mp hsize
      have hout : m.block.sizeOut? = some sizes.2 := by
        unfold Block.sizeOut?
        rw [hsizes]
        rfl
      rw [hout, ← hslot _ (before ++ [m]) _ _ _ (by simpa using hs)]
      exact hslots _ _ _ (.chained hs hout)

/--
The check reports nothing just when all is as it should be. Of the blocks of a family that share a
sequence index, all but one are reported.
-/
theorem validate_complete (hg : g.Reachable) (c : ShapeConfig) :
    (g.validate c = [] ↔ g.Valid c) ∧ ∀ f i, (g.validate c).countP (·.shared? = some (f, i)) =
      (g.nodes.countP fun n => n.family? = some f ∧ n.sequenceIndex = i) - 1 := by
  have hw := hg.wellFormed
  refine ⟨(validate_eq_nil_iff hw).trans (valid_iff hw).symm, ?_⟩
  intro f i
  rw [countP_validate (s := .duplicates f) fun x hx =>
    Violation.part_eq_duplicates (by simpa using hx), ← countP_members hw]
  exact countP_shared?_duplicates hw f i

/-- Nothing is wrong with the first four blocks; two more take the sequence index of the last. -/
def crowded : List GraphOperation :=
  [.add (.new ⟨"a"⟩ 0 (.convolutional ⟨3, 8, 3, 1⟩)),
   .add (.new ⟨"p"⟩ 1 (.pooling ⟨8, 2, 2, .max⟩)),
   .add (.new ⟨"in"⟩ 0 (.input ⟨32, 8⟩)), .add (.new ⟨"x"⟩ 1 (.hidden ⟨8, 8, .relu⟩)),
   .add (.new ⟨"y"⟩ 1 (.hidden ⟨8, 8, .relu⟩)), .add (.new ⟨"z"⟩ 1 (.hidden ⟨8, 8, .relu⟩))]

theorem validate_complete_crowded :
    let c : ShapeConfig := { initialSpatialSize := 4 }
    let g := (crowded.take 4).foldl GraphOperation.apply Graph.empty
    let h := crowded.foldl GraphOperation.apply Graph.empty
    g.Reachable ∧ g.Valid c ∧ h.Reachable ∧ ¬ h.Valid c ∧
      (h.validate c).countP (·.shared? = some (.neural, 1)) = 2 := by
  intro c g h
  have hg : g.Reachable := ⟨crowded.take 4, rfl⟩
  have hh : h.Reachable := ⟨crowded, rfl⟩
  obtain ⟨hvalid, -⟩ := validate_complete hg c
  obtain ⟨hvalid', hshared⟩ := validate_complete hh c
  refine ⟨hg, hvalid.mp (by decide), hh, fun hv => absurd (hvalid'.mpr hv) (by decide), ?_⟩
  rw [hshared]
  decide

end Graph

end LayerGraph
