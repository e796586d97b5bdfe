import LayerGraph.Proofs.EditInPlace
import LayerGraph.Proofs.Edits
import LayerGraph.Proofs.Reported

namespace LayerGraph

namespace Graph

variable {g : Graph} {c : ShapeConfig} {n : Node} {a : Adjustment} {as : List Assignment}

theorem adjustment?_eq_some_iff {x : Assignment} :
    g.adjustment? x = some a ↔ a.node = x.node ∧ a.param = x.slot.name ∧ a.new = x.value ∧
      g.slotValue? x.node x.slot = some a.old ∧ a.old ≠ a.new := by
  obtain ⟨node, param, old, new⟩ := a
  unfold adjustment?
  cases g.slotValue? x.node x.slot with
  | none => simp
  | some v =>
    by_cases hv : v = x.value
    · simp only [Option.bind_eq_bind, Option.bind_some, if_pos hv, Option.some.injEq]
      constructor
      · nofun
      · rintro ⟨-, -, rfl, rfl, hne⟩
        exact absurd hv hne
    · simp only [Option.bind_eq_bind, Option.bind_some, if_neg hv, Option.some.injEq,
        Adjustment.mk.injEq]
      constructor
      · rintro ⟨rfl, rfl, rfl, rfl⟩
        exact ⟨rfl, rfl, rfl, rfl, hv⟩
      · rintro ⟨rfl, rfl, rfl, rfl, -⟩
        exact ⟨rfl, rfl, rfl, rfl⟩

theorem map_node_adjustments_sublist (g : Graph) (as : List Assignment) :
    ((as.filterMap g.adjustment?).map (·.node)).Sublist (as.map (·.node)) := by
  induction as with
  | nil => exact List.Sublist.refl _
  | cons x as ih =>
    cases hx : g.adjustment? x with
    | none =>
      rw [List.filterMap_cons_none hx]
      exact ih.cons x.node
    | some a =>
      rw [List.filterMap_cons_some hx, List.map_cons, List.map_cons,
        (adjustment?_eq_some_iff.mp hx).1]
      exact ih.cons_cons x.node

/-- No slot is reported twice. -/
theorem nodup_reconcile_snd (hg : WellFormed g) (c : ShapeConfig) :
    ((g.reconcile c).2.map fun a => (a.node, a.param)).Nodup := by
  have hnodes : ((g.reconcile c).2.map (·.node)).Nodup := by
    rw [reconcile_snd hg]
    exact (map_node_assignments_nodup hg c).sublist (map_node_adjustments_sublist g _)
  apply List.Nodup.of_map Prod.fst
  rwa [List.map_map]

/-- What is reported is what differs, with the values before and after. -/
theorem mem_reconcile_snd_iff (hg : WellFormed g) :
    a ∈ (g.reconcile c).2 ↔ a.old ≠ a.new ∧ ∃ s, a.param = s.name ∧
      g.slotValue? a.node s = some a.old ∧
      (g.reconcile c).1.slotValue? a.node s = some a.new := by
  rw [reconcile_snd hg, List.mem_filterMap]
  constructor
  · rintro ⟨x, hx, ha⟩
    obtain ⟨hnode, hparam, hnew, hold, hne⟩ := adjustment?_eq_some_iff.mp ha
    refine ⟨hne, x.slot, hparam, hnode ▸ hold, ?_⟩
    rw [hnode, hnew]
    exact slotValue?_reconcile hg ((mem_assignments hg).mp hx)
  · rintro ⟨hne, s, hparam, hold, hnew⟩
    -- a slot that nothing determines would have kept its value
    have howned : g.Owned c a.node s := by
      by_contra ho
      rw [(agreesBut_reconcile hg c).free a.node s ho, hold] at hnew
      exact hne (Option.some.inj hnew)
    obtain ⟨v, hv⟩ := howned
    rw [slotValue?_reconcile hg hv] at hnew
    obtain rfl := Option.some.inj hnew
    exact ⟨⟨a.node, s, a.new⟩, (mem_assignments hg).mpr hv,
      adjustment?_eq_some_iff.mpr ⟨rfl, hparam, rfl, hold, hne⟩⟩

theorem assignments_assignAll (g : Graph) (as : List Assignment) (c : ShapeConfig) :
    (g.assignAll as).1.assignments c = g.assignments c := by
  rw [← assignments_blank, blank_assignAll, assignments_blank]

theorem map_node_nodup_of_sublist (hg : WellFormed g) (has : as.Sublist (g.assignments c)) :
    (as.map (·.node)).Nodup := (map_node_assignments_nodup hg c).sublist (has.map _)

theorem reconcile_assignAll_fst (hg : WellFormed g) (has : as.Sublist (g.assignments c)) :
    ((g.assignAll as).1.reconcile c).1 = (g.reconcile c).1 := by
  have hw := wellFormed_assignAll hg as
  have hdetermined : ∀ id s v, (g.assignAll as).1.Determined c id s v ↔ g.Determined c id s v := by
    intro id s v
    have hwalk := mem_assignments hw (c := c) (a := ⟨id, s, v⟩)
    rw [assignments_assignAll] at hwalk
    exact hwalk.symm.trans (mem_assignments hg)
  have hfirst := agreesBut_reconcile hw c
  have hdirect := agreesBut_reconcile hg c
  apply eq_of_blank_eq (wellFormed_reconcile hg c)
  · rw [hfirst.blank, blank_assignAll, hdirect.blank]
  · intro id s
    by_cases ho : g.Owned c id s
    · obtain ⟨v, hv⟩ := ho
      rw [slotValue?_reconcile hw ((hdetermined id s v).mpr hv), slotValue?_reconcile hg hv]
    · have ho' : ¬ (g.assignAll as).1.Owned c id s :=
        fun ⟨v, hv⟩ => ho ⟨v, (hdetermined id s v).mp hv⟩
      rw [hfirst.free id s ho', hdirect.free id s ho]
      apply slotValue?_assignAll_of_not_mem hg
      rintro x hx rfl rfl
      exact ho ⟨x.value, (mem_assignments hg).mp (has.subset hx)⟩

/-- What was assigned needs no adjustment any more, and everything else the one it needed before. -/
theorem adjustment?_assignAll (hg : WellFormed g) (has : as.Sublist (g.assignments c))
    {x : Assignment} (hx : x ∈ g.assignments c) :
    (g.assignAll as).1.adjustment? x = if x ∈ as then none else g.adjustment? x := by
  have hnodup := map_node_nodup_of_sublist hg has
  have hvalue : (g.assignAll as).1.slotValue? x.node x.slot =
      if x ∈ as then some x.value else g.slotValue? x.node x.slot := by
    split
    · rename_i hmem
      exact slotValue?_assignAll_of_mem hg hnodup hmem
        (isSome_slotValue?_of_determined hg ((mem_assignments hg).mp hx))
    · rename_i hmem
      apply slotValue?_assignAll_of_not_mem hg
      intro y hy hnode _
      have hxy : y = x := List.inj_on_of_nodup_map (map_node_assignments_nodup hg c)
        (has.subset hy) hx hnode
      exact hmem (hxy ▸ hy)
  unfold adjustment?
  rw [hvalue]
  split
  · exact if_pos rfl
  · rfl

/-- Both together report what reconciling would have reported, in another order. -/
theorem perm_reconcile_snd (hg : WellFormed g) (has : as.Sublist (g.assignments c)) :
    ((g.assignAll as).2 ++ ((g.assignAll as).1.reconcile c).2).Perm (g.reconcile c).2 := by
  have hlater : ((g.assignAll as).1.reconcile c).2 =
      ((g.assignments c).filter (· ∉ as)).filterMap g.adjustment? := by
    rw [reconcile_snd (wellFormed_assignAll hg as), assignments_assignAll, List.filterMap_filter]
    apply List.filterMap_congr
    intro x hx
    rw [adjustment?_assignAll hg has hx]
    by_cases hmem : x ∈ as <;> simp [hmem]
  have hnow : as.Perm ((g.assignments c).filter (· ∈ as)) := by
    have hnodup := (map_node_assignments_nodup hg c).of_map
    rw [List.perm_ext_iff_of_nodup (hnodup.sublist has) (hnodup.filter _)]
    intro x
    rw [List.mem_filter, decide_eq_true_iff]
    exact ⟨fun hx => ⟨has.subset hx, hx⟩, And.right⟩
  rw [assignAll_snd hg (map_node_nodup_of_sublist hg has), hlater, ← List.filterMap_append,
    reconcile_snd hg]
  apply List.Perm.filterMap
  refine (hnow.append_right _).trans ?_
  have hsplit := List.filter_append_perm (fun x => decide (x ∈ as)) (g.assignments c)
  simpa using hsplit

theorem passChannels_suffix (incoming : Option UInt32) (before after : List Node) {p : Convolution}
    (hn : n.block = .convolutional p) :
    passChannels (some p.sizeOut) after <:+ passChannels incoming (before ++ n :: after) := by
  induction before generalizing incoming with
  | nil =>
    rw [List.nil_append, passChannels, hn]
    exact List.suffix_append _ _
  | cons m before ih =>
    rw [List.cons_append, passChannels]
    exact (ih _).trans (List.suffix_append _ _)

theorem chainSizes_suffix (incoming : Option UInt32) (before after : List Node) (n : Node) :
    chainSizes n.block.sizeOut? after <:+ chainSizes incoming (before ++ n :: after) := by
  induction before generalizing incoming with
  | nil => exact List.suffix_append _ _
  | cons m before ih =>
    rw [List.cons_append, chainSizes]
    exact (ih _).trans (List.suffix_append _ _)

/-- The channels reach the next convolution, past anything else. -/
theorem nextConvolution_sublist (out : UInt32) (after : List Node) :
    ((after.find? (·.kind? = some .convolutional)).map
      (⟨·.id, .sizeIn, out⟩)).toList.Sublist (passChannels (some out) after) := by
  induction after with
  | nil => exact List.Sublist.refl _
  | cons m after ih =>
    rw [passChannels]
    cases hm : m.block with
    | convolutional p =>
      have hkind : m.kind? = some .convolutional := by rw [Node.kind?, hm]; rfl
      rw [List.find?_cons_of_pos (by simpa using hkind)]
      exact List.sublist_append_left _ _
    | _ =>
      have hkind : m.kind? ≠ some .convolutional := by simp [Node.kind?, hm, Block.kind?]
      rw [List.find?_cons_of_neg (by simpa using hkind)]
      exact ih.trans (List.sublist_append_right _ _)

theorem convolutionCascade_sublist (g : Graph) (id : NodeId) (out : UInt32) :
    (g.convolutionCascade id out).Sublist
      (passChannels (some out) (g.membersAfter .spatial id)) := by
  unfold convolutionCascade
  dsimp only
  cases g.membersAfter .spatial id with
  | nil => exact List.Sublist.refl _
  | cons m after =>
    cases hm : m.block with
    | pooling p =>
      -- the block directly behind takes the channels too, and is not the next convolution
      have hkind : m.kind? = some .pooling := by rw [Node.kind?, hm]; rfl
      have hpool : (m :: after).head?.filter (·.kind? = some .pooling) = some m := by simp [hkind]
      rw [hpool, List.find?_cons_of_neg (by simp [hkind]), passChannels, hm]
      exact (List.Sublist.refl _).append (nextConvolution_sublist out after)
    | _ =>
      have hkind : m.kind? ≠ some .pooling := by simp [Node.kind?, hm, Block.kind?]
      have hpool : (m :: after).head?.filter (·.kind? = some .pooling) = none := by simp [hkind]
      rw [hpool]
      exact nextConvolution_sublist out (m :: after)

theorem members_eq_append_membersAfter (hg : WellFormed g) {f : Family} (hn : n ∈ g.members f) :
    ∃ before, g.members f = before ++ n :: g.membersAfter f n.id := by
  obtain ⟨before, after, hs⟩ := List.append_of_mem hn
  have hids : ((g.members f).map (·.id)).Nodup := by
    rw [hg.map_id_members]
    exact hg.family_nodup f
  have hbefore : ∀ m ∈ before, m.id ≠ n.id := by
    rw [hs, List.map_append, List.nodup_append] at hids
    intro m hm
    exact hids.2.2 m.id (List.mem_map_of_mem hm) n.id List.mem_cons_self
  have hafter : g.membersAfter f n.id = after := by
    unfold membersAfter
    rw [hs, List.dropWhile_append_of_pos (by simpa using hbefore), List.dropWhile_cons_of_neg]
    · rfl
    · simp
  exact ⟨before, hafter ▸ hs⟩

theorem nextNeural_sublist (hg : WellFormed g) (hn : n ∈ g.members .neural) {next : Node}
    {out : UInt32} (hout : n.block.sizeOut? = some out)
    (hnext : (g.membersAfter .neural n.id).head? = some next) :
    [(⟨next.id, .sizeIn, out⟩ : Assignment)].Sublist (chainSizes none (g.members .neural)) := by
  obtain ⟨before, hs⟩ := members_eq_append_membersAfter hg hn
  obtain ⟨later, hlater⟩ := List.head?_eq_some_iff.mp hnext
  rw [hs]
  refine List.Sublist.trans ?_ (chainSizes_suffix none before _ n).sublist
  rw [hlater, hout, chainSizes]
  exact List.sublist_append_left _ _

/-- What is set at once, reconciling would set in the same order. -/
theorem cascade_sublist (hg : WellFormed g) (hn : n ∈ g.nodes) (param : String) (c : ShapeConfig) :
    (g.cascade n param c).Sublist (g.assignments c) := by
  have hmember : ∀ f, n.block.family? = some f → n ∈ g.members f :=
    fun f hf => hg.mem_members.mpr ⟨hn, hf, nofun⟩
  have hflat : (g.flattenedAssignment? c).toList.Sublist (g.assignments c) :=
    (List.sublist_append_right _ _).trans (List.sublist_append_left _ _)
  unfold cascade
  split
  · rename_i p hb
    split
    · obtain ⟨before, hs⟩ := members_eq_append_membersAfter hg (hmember .spatial (by rw [hb]; rfl))
      have hspatial : (g.convolutionCascade n.id p.sizeOut).Sublist
          (passChannels none (g.members .spatial)) := by
        rw [hs]
        exact (convolutionCascade_sublist g n.id p.sizeOut).trans
          (passChannels_suffix none before _ hb).sublist
      exact (hspatial.append (List.Sublist.refl _)).trans (List.sublist_append_left _ _)
    · exact List.nil_sublist _
  · split
    · exact hflat
    · exact List.nil_sublist _
  · rename_i hconvolution hpooling
    split
    · split
      · rename_i out next hout hnext
        -- a block that has an output size and is no convolution is neural
        have hfamily : n.block.family? = some .neural := by
          cases hb : n.block with
          | convolutional p => exact absurd hb (hconvolution p)
          | input p | hidden p | output p => rfl
          | _ => simp [hb, Block.sizeOut?, Block.sizes?] at hout
        exact (nextNeural_sublist hg (hmember .neural hfamily) hout hnext).trans
          (List.sublist_append_right _ _)
      · exact List.nil_sublist _
    · exact List.nil_sublist _

/--
An edit comes to what its write and reconciling come to, and reports each slot that then differs
once, with what it held behind the write and what it holds at the end. Made in place, an edit that
fails leaves the graph as it was.
-/
theorem edit_eq_reconcile_written (hg : g.Reachable) (id : NodeId) (param : String)
    (value : ParamValue) (c : ShapeConfig) :
    (∀ o h, g.edit id param value c = .ok (o, h) → ∃ g₁, g.written? id param value = some g₁ ∧
      h = (g₁.reconcile c).1 ∧ (o.adjustments.map fun a => (a.node, a.param)).Nodup ∧
      ∀ a, a ∈ o.adjustments ↔ a.old ≠ a.new ∧ ∃ s, a.param = s.name ∧
        g₁.slotValue? a.node s = some a.old ∧ h.slotValue? a.node s = some a.new) ∧
    (InPlace.edit id param value c).run g =
      match g.edit id param value c with
      | .ok (o, h) => .ok o h
      | .error e => .error e g := by
  constructor
  · intro o h he
    obtain ⟨g₁, assigned, hwritten, hcascade, rfl, ho⟩ := edit_eq_ok he
    have hw := (wellFormed_written hg.wellFormed hwritten).1
    have has : assigned.Sublist (g₁.assignments c) := by
      rcases hcascade with rfl | ⟨m, hm, rfl⟩
      · exact List.nil_sublist _
      · exact cascade_sublist hw hm param c
    have hperm : o.adjustments.Perm (g₁.reconcile c).2 := ho ▸ perm_reconcile_snd hw has
    rw [reconcile_assignAll_fst hw has]
    refine ⟨g₁, hwritten, rfl, ?_, ?_⟩
    · exact (hperm.map _).nodup_iff.mpr (nodup_reconcile_snd hw c)
    · intro a
      rw [hperm.mem_iff]
      exact mem_reconcile_snd_iff hw
  · rw [run_edit hg.wellFormed]
    cases g.edit id param value c <;> rfl

/-- Three convolutions that do not fit, with sizes behind them that do not fit either. -/
def unfitting : List GraphOperation :=
  [.add (.new ⟨"z"⟩ 0 (.convolutional ⟨3, 5, 3, 1⟩)),
   .add (.new ⟨"a"⟩ 1 (.convolutional ⟨3, 32, 3, 1⟩)),
   .add (.new ⟨"p"⟩ 2 (.pooling ⟨7, 2, 2, .max⟩)),
   .add (.new ⟨"b"⟩ 3 (.convolutional ⟨8, 64, 3, 1⟩)), .add (.new ⟨"in"⟩ 0 (.input ⟨12, 8⟩)),
   .add (.new ⟨"h"⟩ 1 (.hidden ⟨5, 4, .relu⟩))]

/-- What follows from the edit comes first, then what did not fit before; and an edit is refused. -/
theorem edit_eq_reconcile_written_unfitting :
    let g := unfitting.foldl GraphOperation.apply Graph.empty
    let c : ShapeConfig := { initialSpatialSize := 4 }
    g.Reachable ∧
    (∃ o h g₁, g.edit ⟨"a"⟩ "sizeOut" (.ofUInt32 16) c = .ok (o, h) ∧
      o.adjustments = [⟨⟨"p"⟩, "channels", 7, 16⟩, ⟨⟨"b"⟩, "sizeIn", 8, 16⟩,
        ⟨⟨"in"⟩, "sizeIn", 12, 256⟩, ⟨⟨"a"⟩, "sizeIn", 3, 5⟩, ⟨⟨"h"⟩, "sizeIn", 5, 8⟩] ∧
      g.written? ⟨"a"⟩ "sizeOut" (.ofUInt32 16) = some g₁ ∧ h = (g₁.reconcile c).1) ∧
    (InPlace.edit ⟨"p"⟩ "channels" (.ofUInt32 16) c).run g =
      .error (.readOnlyParameter "poolingBlock" "channels") g := by
  intro g c
  have hg : g.Reachable := ⟨unfitting, rfl⟩
  refine ⟨hg, ?_, ?_⟩
  · have hadjustments : (g.edit ⟨"a"⟩ "sizeOut" (.ofUInt32 16) c).toOption.map (·.1.adjustments) =
        some [⟨⟨"p"⟩, "channels", 7, 16⟩, ⟨⟨"b"⟩, "sizeIn", 8, 16⟩, ⟨⟨"in"⟩, "sizeIn", 12, 256⟩,
          ⟨⟨"a"⟩, "sizeIn", 3, 5⟩, ⟨⟨"h"⟩, "sizeIn", 5, 8⟩] := by decide
    cases he : g.edit ⟨"a"⟩ "sizeOut" (.ofUInt32 16) c with
    | error e =>
      rw [he] at hadjustments
      cases hadjustments
    | ok r =>
      rw [he] at hadjustments
      obtain ⟨g₁, hwritten, hreconciled, -⟩ :=
        (edit_eq_reconcile_written hg ⟨"a"⟩ "sizeOut" (.ofUInt32 16) c).1 r.1 r.2 he
      exact ⟨r.1, r.2, g₁, rfl, Option.some.inj hadjustments, hwritten, hreconciled⟩
  · rw [(edit_eq_reconcile_written hg ⟨"p"⟩ "channels" (.ofUInt32 16) c).2]
    have he : g.edit ⟨"p"⟩ "channels" (.ofUInt32 16) c =
      .error (.readOnlyParameter "poolingBlock" "channels") := rfl
    rw [he]

end Graph

end LayerGraph
