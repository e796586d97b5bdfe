import LayerGraph.Proofs.Arrivals

namespace LayerGraph

/-- What an editor reads of a block under a name. -/
def Node.read? (n : Node) (name : String) : Option ParamValue :=
  match name with
  | "sequenceIndex" => some (.ofUInt32 n.sequenceIndex)
  | "label" => some (.text n.label)
  | _ => n.block.get? name

/-- The value as it is kept under a name in blocks of the kind. -/
def Kind.kept? (k : Kind) (name : String) (v : ParamValue) : Option ParamValue :=
  match name with
  | "sequenceIndex" => v.uint32?.map .ofUInt32
  | "label" => v.text?.map .text
  | _ => (k.param? name).bind (·.domain.kept? v)

theorem Node.read?_param {n : Node} {k : Kind} {name : String} {spec : ParamSpec}
    (hs : k.param? name = some spec) : n.read? name = n.block.read? spec.param := by
  obtain ⟨hindex, hlabel⟩ := Graph.name_ne_of_param? hs
  unfold read?
  split
  · contradiction
  · contradiction
  · exact Block.get?_eq hs n.block

theorem Kind.kept?_param {k : Kind} {name : String} {spec : ParamSpec}
    (hs : k.param? name = some spec) (v : ParamValue) :
    k.kept? name v = spec.domain.kept? v := by
  obtain ⟨hindex, hlabel⟩ := Graph.name_ne_of_param? hs
  unfold kept?
  split
  · contradiction
  · contradiction
  · rw [hs, Option.bind_some]

/-- The kinds of blocks that have an input size. -/
def Kind.Sized (k : Kind) : Prop := k = .convolutional ∨ k.family = some .neural

theorem Kind.sized_of_sizeIn {k : Kind} {spec : ParamSpec} (hs : spec ∈ k.params)
    (hp : spec.param = .sizeIn) : k.Sized := by
  cases k with
  | convolutional => exact .inl rfl
  | input | hidden | output => exact .inr rfl
  | _ => fin_cases hs <;> cases hp

/-- The channels of a pooling are never edited. -/
theorem Kind.not_editable_of_channels {k : Kind} {spec : ParamSpec} (hs : spec ∈ k.params)
    (hp : spec.param = .channels) : spec.editable = false := by
  cases k <;> fin_cases hs <;> first | rfl | cases hp

theorem Kind.Sized.exists_param? {k : Kind} (hk : k.Sized) :
    ∃ spec, k.param? "sizeIn" = some spec ∧ spec.editable = true := by
  cases k with
  | convolutional | input | hidden | output => exact ⟨_, rfl, rfl⟩
  | _ => rcases hk with hk | hk <;> cases hk

theorem Block.kindName_of_kind? {b : Block} {k : Kind} (hk : b.kind? = some k) :
    b.kindName = k.name := by
  cases b <;> cases hk <;> rfl

theorem Block.exists_sizeOut?_of_neural {b : Block} (hb : b.family? = some .neural) :
    ∃ v, b.sizeOut? = some v := by
  cases b <;> first | exact ⟨_, rfl⟩ | cases hb

namespace Graph

variable {g h : Graph} {c : ShapeConfig} {id : NodeId} {n : Node}

theorem exists_channelsBehind?_iff {ns : List Node} :
    (∃ v, channelsBehind? ns = some v) ↔ ∃ m ∈ ns, m.kind? = some .convolutional := by
  induction ns using List.reverseRecOn with
  | nil => simp [channelsBehind?]
  | append_singleton ns n ih =>
    rw [channelsBehind?_concat]
    by_cases hn : n.kind? = some .convolutional
    · obtain ⟨v, hv⟩ := Block.exists_channelsOut? hn
      exact iff_of_true ⟨v, by rw [hv]; rfl⟩ ⟨n, by simp, hn⟩
    · rw [Block.channelsOut?_eq_none hn, Option.none_or, ih]
      simp [hn]

/-- The input size of a convolution follows when there is a convolution before it. -/
theorem owned_convolution_iff (hg : WellFormed g) {before after : List Node}
    (hs : g.members .spatial = before ++ n :: after) (hk : n.kind? = some .convolutional) :
    g.Owned c n.id .sizeIn ↔ ∃ m ∈ before, m.kind? = some .convolutional := by
  have hn : n ∈ g.members .spatial := by simp [hs]
  have hneural : ∀ m ∈ g.members .neural, n.id ≠ m.id := by
    intro m hm hi
    cases (eq_of_mem_members hg hn hm hi).2
  rw [← exists_channelsBehind?_iff]
  constructor
  · rintro ⟨v, hd⟩
    generalize hi : n.id = i at hd
    cases hd with
    | @convolution _ m _ _ _ hs' _ hv =>
      have hm : m ∈ g.members .spatial := by simp [hs']
      obtain ⟨rfl, -⟩ := eq_of_mem_members hg hn hm hi
      exact ⟨v, (split_members_unique hg hs hs').1 ▸ hv⟩
    | chained hs' | flattened hs' => exact absurd hi (hneural _ (by simp [hs']))
  · rintro ⟨v, hv⟩
    obtain ⟨p, hp⟩ := Block.eq_convolutional_of_kind? hk
    exact ⟨v, .convolution hs hp hv⟩

theorem isSome_flattened?_iff :
    (g.flattened? c).isSome ↔ ∃ p, g.convolutions.getLast? = some p ∧ 0 < g.finalSize c := by
  unfold flattened? lastChannels?
  cases g.convolutions.getLast? with
  | none => simp [bind]
  | some p =>
    by_cases hd : g.finalSize c = 0
    · simp [bind, hd]
    · simp [bind, hd, UInt32.pos_iff_ne_zero]

/-- The input size of a neural block follows, but for the first one while nothing is flattened. -/
theorem owned_neural_iff (hg : WellFormed g) (hn : n ∈ g.members .neural) :
    g.Owned c n.id .sizeIn ↔ g.neural.head? ≠ some n.id ∨ (g.flattened? c).isSome := by
  have hspatial : ∀ m ∈ g.members .spatial, n.id ≠ m.id := by
    intro m hm hi
    cases (eq_of_mem_members hg hn hm hi).2
  have hhead : g.neural.head? = (g.members .neural).head?.map (·.id) := by
    rw [← List.head?_map, hg.map_id_members]
    rfl
  rw [hhead, isSome_flattened?_iff]
  constructor
  · rintro ⟨v, hd⟩
    generalize hi : n.id = i at hd
    cases hd with
    | convolution hs' => exact absurd hi (hspatial _ (by simp [hs']))
    | @chained before m x after _ hs' =>
      refine .inl fun hfirst => ?_
      -- a block in front of n is not behind it too
      obtain ⟨y, hy, hyi⟩ := Option.map_eq_some_iff.mp hfirst
      obtain ⟨rest, hy⟩ := List.head?_eq_some_iff.mp hy
      have hymem : y ∈ g.members .neural := by simp [hy]
      have hxmem : x ∈ g.members .neural := by simp [hs']
      obtain ⟨rfl, -⟩ := eq_of_mem_members hg hymem hxmem hyi
      have hbefore : g.members .neural = (before ++ [m]) ++ y :: after := by simpa using hs'
      have hempty := (split_members_unique hg (hy.trans (List.nil_append _).symm) hbefore).1
      simp at hempty
    | flattened hs' hp hd => exact .inr ⟨_, hp, hd⟩
  · intro h
    obtain ⟨before, after, hs⟩ := List.append_of_mem hn
    rcases List.eq_nil_or_concat before with rfl | ⟨earlier, m, rfl⟩
    · obtain ⟨p, hp, hd⟩ := h.resolve_left (by simp [hs])
      exact ⟨_, .flattened hs hp hd⟩
    · have hm : m ∈ g.members .neural := by simp [hs]
      obtain ⟨v, hv⟩ := Block.exists_sizeOut?_of_neural (hg.mem_members.mp hm).2.1
      exact ⟨v, .chained (by simpa using hs) hv⟩

/-- An edit is refused just where reconciling sets the size. -/
theorem sizeInIsDerived_iff (hg : WellFormed g) (hn : n ∈ g.nodes) {k : Kind}
    (hk : n.kind? = some k) (hsize : k.Sized) :
    g.sizeInIsDerived n c = true ↔ g.Owned c n.id .sizeIn := by
  rcases hsize with rfl | hf
  · have hmem : n ∈ g.members .spatial :=
      hg.mem_members.mpr ⟨hn, congrArg (Option.bind · Kind.family) hk, nofun⟩
    obtain ⟨before, after, hs⟩ := List.append_of_mem hmem
    have hbefore : (g.members .spatial).takeWhile (·.id ≠ n.id) = before := by
      rw [hs, List.takeWhile_append_of_pos, List.takeWhile_cons_of_neg, List.append_nil]
      · simp
      · intro m hm
        simpa using id_ne_of_split hg hs hm List.mem_cons_self
    unfold sizeInIsDerived
    rw [show n.block.kind? = some .convolutional from hk]
    simp only [hbefore]
    rw [owned_convolution_iff hg hs hk, List.any_eq_true]
    simp
  · have hfamily : n.family? = some .neural :=
      (congrArg (Option.bind · Kind.family) hk).trans hf
    rw [owned_neural_iff hg (hg.mem_members.mpr ⟨hn, hfamily, nofun⟩)]
    unfold sizeInIsDerived
    rw [show n.block.kind? = some k from hk]
    cases k with
    | input | hidden | output => simp
    | _ => cases hf

theorem blank_edit {name : String} {v : ParamValue} {o : EditOutcome} (hg : WellFormed g)
    (he : g.edit id name v c = .ok (o, h)) :
    ∃ g₁, g.written? id name v = some g₁ ∧ h.blank = g₁.blank := by
  obtain ⟨g₁, assigned, hwritten, -, rfl, -⟩ := edit_eq_ok he
  have hw := wellFormed_assignAll (wellFormed_written hg hwritten).1 assigned
  exact ⟨g₁, hwritten, (agreesBut_reconcile hw c).blank.trans (blank_assignAll g₁ assigned)⟩

/-- No parameter that can be edited is set by reconciling behind the edit. -/
theorem value?_edit (hg : WellFormed g) (hn : n ∈ g.nodes) {k : Kind} {name : String}
    {spec : ParamSpec} (hk : n.kind? = some k) (hs : k.param? name = some spec) {v : ParamValue}
    {o : EditOutcome} (he : g.edit n.id name v c = .ok (o, h)) :
    h.value? n.id spec.param = spec.domain.kept? v := by
  have hnode := (node?_eq_some_iff hg.ids_nodup).mpr ⟨hn, rfl⟩
  obtain ⟨heditable, hv, hfree, rfl⟩ := edit_param_eq_ok hg hnode hk hs he
  have hr := agreesBut_reconcile (wellFormed_write hg n.id spec.param v) c
  have hwritten : (g.write n.id spec.param v).value? n.id spec.param = spec.domain.kept? v := by
    unfold value?
    rw [node?_write, hnode, Option.map_some, Option.bind_some]
    unfold Node.write
    rw [if_pos rfl]
    exact Block.read?_write hk (Kind.param?_eq_some_iff.mp hs).1 hv
  rw [← hwritten]
  by_cases hslot : ∃ s : Slot, s.param = spec.param
  · obtain ⟨s, hparam⟩ := hslot
    rw [← hparam, value?_slot, value?_slot, hparam, hr.free]
    rintro ⟨w, hd⟩
    have hmem := (Kind.param?_eq_some_iff.mp hs).1
    cases s with
    | channels =>
      rw [Kind.not_editable_of_channels hmem hparam.symm] at heditable
      cases heditable
    | sizeIn =>
      -- the size was determined before the edit, which was then refused
      have hsize := Kind.sized_of_sizeIn hmem hparam.symm
      have hderived := (sizeInIsDerived_iff hg hn (c := c) hk hsize).mpr
        ⟨w, determined_of_write hg hn hd (hparam ▸ not_arrives_sizeIn)⟩
      rw [hfree hparam.symm] at hderived
      cases hderived
  · exact value?_of_blank_eq (fun s hp => hslot ⟨s, hp⟩) hr.blank n.id

theorem node?_mapNode_self {f : Node → Node} (hid : ∀ m, (f m).id = m.id)
    (hn : g.node? id = some n) : (g.mapNode id f).node? id = some (f n) := by
  have hone : ∀ m : Node, (if m.id = id then f m else m).id = m.id := by
    intro m
    split
    · exact hid m
    · rfl
  rw [mapNode_eq_mapNodes, node?_mapNodes hone, hn, Option.map_some, if_pos (node?_id hn)]

theorem node?_setSequenceIndex {i : UInt32} (hn : g.node? id = some n)
    (hs : g.setSequenceIndex id i = .ok h) : h.node? id = some { n with sequenceIndex := i } := by
  obtain ⟨m, hm, rfl⟩ := setSequenceIndex_eq_ok_iff.mp hs
  obtain rfl := Option.some.inj (hm.symm.trans hn)
  split
  · rename_i hi
    subst hi
    exact hn
  · rw [node?_file]
    exact node?_mapNode_self (g := g.unfile id) (f := ({ · with sequenceIndex := i }))
      (fun _ => rfl) hn

theorem node?_setLabel {label : String} (hn : g.node? id = some n)
    (hs : g.setLabel id label = .ok h) : h.node? id = some { n with label } := by
  obtain ⟨-, rfl⟩ := setLabel_eq_ok_iff.mp hs
  exact node?_mapNode_self (f := ({ · with label })) (fun _ => rfl) hn

theorem read?_edit_param (hg : WellFormed g) (hn : n ∈ g.nodes) {k : Kind} {name : String}
    {spec : ParamSpec} (hk : n.kind? = some k) (hs : k.param? name = some spec) {v : ParamValue}
    {o : EditOutcome} (he : g.edit n.id name v c = .ok (o, h)) :
    ∃ m w, h.node? n.id = some m ∧ k.kept? name v = some w ∧ m.read? name = some w := by
  have hnode := (node?_eq_some_iff hg.ids_nodup).mpr ⟨hn, rfl⟩
  have hvalue := value?_edit hg hn hk hs he
  obtain ⟨-, hv, -, rfl⟩ := edit_param_eq_ok hg hnode hk hs he
  obtain ⟨w, hw⟩ := Domain.exists_kept? hv
  have hwritten : (g.write n.id spec.param v).node? n.id = some (n.write n.id spec.param v) := by
    rw [node?_write, hnode, Option.map_some]
  obtain ⟨m, hm, -⟩ := exists_node?_of_blank_eq
    (agreesBut_reconcile (wellFormed_write hg n.id spec.param v) c).blank hwritten
  rw [value?, hm, Option.bind_some, hw] at hvalue
  exact ⟨m, w, hm, (Kind.kept?_param hs v).trans hw, (Node.read?_param hs).trans hvalue⟩

/-- What is read behind an edit is what was submitted, as it is kept. -/
theorem read?_edit (hg : WellFormed g) (hn : n ∈ g.nodes) {k : Kind} (hk : n.kind? = some k)
    {name : String} {v : ParamValue} {o : EditOutcome} (he : g.edit n.id name v c = .ok (o, h)) :
    ∃ m w, h.node? n.id = some m ∧ k.kept? name v = some w ∧ m.read? name = some w := by
  have hnode := (node?_eq_some_iff hg.ids_nodup).mpr ⟨hn, rfl⟩
  obtain ⟨g₁, hwritten, hblank⟩ := blank_edit hg he
  unfold written? at hwritten
  split at hwritten
  · obtain ⟨i, hi, hwritten⟩ := Option.bind_eq_some_iff.mp hwritten
    obtain ⟨m, hm, hmn⟩ := exists_node?_of_blank_eq hblank
      (node?_setSequenceIndex hnode (toOption_eq_some_iff.mp hwritten))
    have hindex : m.sequenceIndex = i := congrArg Node.sequenceIndex hmn
    exact ⟨m, .ofUInt32 i, hm, congrArg (Option.map _) hi, hindex ▸ rfl⟩
  · obtain ⟨label, hl, hwritten⟩ := Option.bind_eq_some_iff.mp hwritten
    obtain ⟨m, hm, hmn⟩ := exists_node?_of_blank_eq hblank
      (node?_setLabel hnode (toOption_eq_some_iff.mp hwritten))
    have hlabel : m.label = label := congrArg Node.label hmn
    exact ⟨m, .text label, hm, congrArg (Option.map _) hl, hlabel ▸ rfl⟩
  · obtain ⟨m, b, hm, hb, -⟩ := modifyBlock_eq_ok_iff.mp (toOption_eq_some_iff.mp hwritten)
    obtain rfl := Option.some.inj (hm.symm.trans hnode)
    obtain ⟨k', spec, hk', hs, -⟩ := Block.set_eq_ok_iff_exists.mp hb
    obtain rfl := Option.some.inj (hk'.symm.trans hk)
    exact read?_edit_param hg hn hk hs he

/-- Editing an input size is refused where reconciling sets it, and otherwise for its value only. -/
theorem edit_sizeIn_eq_readOnly_iff (hg : WellFormed g) (hn : n ∈ g.nodes) {k : Kind}
    (hk : n.kind? = some k) (hsize : k.Sized) (v : ParamValue) :
    (g.Owned c n.id .sizeIn →
      g.edit n.id "sizeIn" v c = .error (.readOnlyParameter k.name "sizeIn")) ∧
    ∀ kind param, g.edit n.id "sizeIn" v c = .error (.readOnlyParameter kind param) →
      g.Owned c n.id .sizeIn := by
  have hnode := (node?_eq_some_iff hg.ids_nodup).mpr ⟨hn, rfl⟩
  obtain ⟨spec, hs, heditable⟩ := hsize.exists_param?
  have hedit := edit_param_map_snd hg hnode hk hs v c
  have herror : ∀ e, (g.edit n.id "sizeIn" v c).map (·.2) = .error e ↔
      g.edit n.id "sizeIn" v c = .error e := by
    intro e
    cases g.edit n.id "sizeIn" v c <;> simp [Except.map]
  rw [← sizeInIsDerived_iff hg hn hk hsize]
  refine ⟨?_, ?_⟩
  · intro hd
    rw [← herror, hedit, hd, Block.kindName_of_kind? hk]
    rfl
  · intro kind param he
    rw [← herror, hedit] at he
    by_contra hd
    rw [Bool.not_eq_true] at hd
    rw [hd, Bool.and_false, if_neg Bool.false_ne_true, Block.set_of_editable hk hs heditable,
      ParamSpec.check] at he
    cases hv : spec.domain.rejection? v <;> simp [hv, Except.map] at he

/--
An edit that is made stays made: behind it the parameter, the sequence index or the label reads as
submitted. And the input sizes that cannot be edited, whatever the value, are those that reconciling
sets: those of a convolution behind another one, of a neural block that is not the first, and of the
first one when the convolutions can be flattened.
-/
theorem edit_kept_or_locked (hg : g.Reachable) (hn : n ∈ g.nodes) {k : Kind} (hk : n.kind? = some k)
    (name : String) (value : ParamValue) (c : ShapeConfig) :
    (∀ o h, g.edit n.id name value c = .ok (o, h) →
      ∃ m w, h.node? n.id = some m ∧ k.kept? name value = some w ∧ m.read? name = some w) ∧
    (k.Sized →
      (g.Owned c n.id .sizeIn →
        g.edit n.id "sizeIn" value c = .error (.readOnlyParameter k.name "sizeIn")) ∧
      ∀ kind param, g.edit n.id "sizeIn" value c = .error (.readOnlyParameter kind param) →
        g.Owned c n.id .sizeIn) ∧
    (k = .convolutional → (g.Owned c n.id .sizeIn ↔ ∃ before after,
      g.members .spatial = before ++ n :: after ∧ ∃ m ∈ before, m.kind? = some .convolutional)) ∧
    (k.family = some .neural → (g.Owned c n.id .sizeIn ↔
      g.neural.head? ≠ some n.id ∨ (g.flattened? c).isSome)) := by
  have hw := hg.wellFormed
  have hfamily : n.family? = k.family := congrArg (Option.bind · Kind.family) hk
  refine ⟨fun _ _ => read?_edit hw hn hk,
    fun hsize => edit_sizeIn_eq_readOnly_iff hw hn hk hsize value, ?_, ?_⟩
  · rintro rfl
    obtain ⟨before, after, hs⟩ :=
      List.append_of_mem (hw.mem_members.mpr ⟨hn, hfamily, nofun⟩ : n ∈ g.members .spatial)
    rw [owned_convolution_iff hw hs hk]
    constructor
    · exact fun hm => ⟨before, after, hs, hm⟩
    · rintro ⟨before', after', hs', hm⟩
      exact (split_members_unique hw hs hs').1 ▸ hm
  · intro hf
    exact owned_neural_iff hw (hw.mem_members.mpr ⟨hn, hfamily.trans hf, nofun⟩)

/-- The second convolution can be given other channels to put out, and none to take in. -/
theorem edit_kept_or_locked_unfitting :
    let g := unfitting.foldl GraphOperation.apply Graph.empty
    let n : Node := .new ⟨"a"⟩ 1 (.convolutional ⟨3, 32, 3, 1⟩)
    g.Reachable ∧ n ∈ g.nodes ∧ n.kind? = some .convolutional ∧
    (∃ o h m, g.edit ⟨"a"⟩ "sizeOut" (.ofUInt32 16) {} = .ok (o, h) ∧
      h.node? ⟨"a"⟩ = some m ∧ m.read? "sizeOut" = some (.ofUInt32 16)) ∧
    g.edit ⟨"a"⟩ "sizeIn" (.ofUInt32 16) {} =
      .error (.readOnlyParameter "convolutionalBlock" "sizeIn") := by
  intro g n
  have hg : g.Reachable := ⟨unfitting, rfl⟩
  have hn : n ∈ g.nodes := by decide
  have hk : n.kind? = some .convolutional := rfl
  obtain ⟨hkept, hlocked, hwhere, -⟩ :=
    edit_kept_or_locked hg hn hk "sizeOut" (.ofUInt32 16) {}
  refine ⟨hg, hn, hk, ?_, ?_⟩
  · have hok : (g.edit ⟨"a"⟩ "sizeOut" (.ofUInt32 16) {}).toOption.isSome = true := by decide
    obtain ⟨⟨o, h⟩, he⟩ := Option.isSome_iff_exists.mp hok
    rw [toOption_eq_some_iff] at he
    obtain ⟨m, w, hm, hw, hread⟩ := hkept o h he
    have hsame : Kind.kept? .convolutional "sizeOut" (.ofUInt32 16) = some (.ofUInt32 16) := by
      decide
    exact ⟨o, h, m, he, hm, hread.trans (hw.symm.trans hsame)⟩
  · apply (hlocked (.inl rfl)).1
    rw [hwhere rfl]
    exact ⟨[.new ⟨"z"⟩ 0 (.convolutional ⟨3, 5, 3, 1⟩)], [.new ⟨"p"⟩ 2 (.pooling ⟨7, 2, 2, .max⟩),
      .new ⟨"b"⟩ 3 (.convolutional ⟨8, 64, 3, 1⟩)], by decide, _, List.mem_singleton_self _, rfl⟩

end Graph

end LayerGraph
