import LayerGraph.Proofs.Cascaded
import LayerGraph.Proofs.Parameters

namespace LayerGraph

def Slot.param : Slot → Param
  | .sizeIn => .sizeIn
  | .channels => .channels

namespace Block

theorem read?_slot (s : Slot) (b : Block) : b.read? s.param = (b.slot? s).map .ofUInt32 := by
  cases s <;> cases b <;> rfl

theorem read?_blank {p : Param} (hp : ∀ s : Slot, s.param ≠ p) (b : Block) :
    b.blank.read? p = b.read? p := by
  have hin : p ≠ .sizeIn := (hp .sizeIn).symm
  have hchannels : p ≠ .channels := (hp .channels).symm
  cases b <;> cases p <;> first | rfl | exact absurd rfl hin | exact absurd rfl hchannels

theorem outline_blank (b : Block) : b.blank.outline = b.outline := by cases b <;> rfl

end Block

theorem Graph.mapNodes_mapNodes (g : Graph) (f k : Node → Node) :
    (g.mapNodes f).mapNodes k = g.mapNodes (k ∘ f) := by
  simp [Graph.mapNodes, List.map_map, Option.map_comp_map]

/-- The node with its block as the kind of it starts out. -/
def Node.outline (n : Node) : Node := { n with block := n.block.outline }

theorem Node.eq_of_outline_eq {m n : Node} (hmn : m.outline = n.outline) (hb : m.block = n.block) :
    m = n := by
  have hm : { m.outline with block := m.block } = m := rfl
  rw [← hm, hmn, hb]
  rfl

namespace Graph

variable {g h : Graph} {c : ShapeConfig} {id : NodeId} {n : Node}

/-- The value of a parameter of a block. -/
def value? (g : Graph) (id : NodeId) (p : Param) : Option ParamValue :=
  (g.node? id).bind (·.block.read? p)

/--
The graphs are the same but for the values of some parameters: they have the same blocks in the same
places and of the same kinds, with the same labels, positions, sequence indices and connections, and
the other parameters have the same values.
-/
structure SameBut (changed : NodeId → Param → Prop) (g h : Graph) : Prop where
  outline : h.mapNodes Node.outline = g.mapNodes Node.outline
  kept : ∀ id p, ¬ changed id p → h.value? id p = g.value? id p

theorem value?_slot (g : Graph) (id : NodeId) (s : Slot) :
    g.value? id s.param = (g.slotValue? id s).map .ofUInt32 := by
  unfold value? slotValue?
  cases g.node? id with
  | none => rfl
  | some n => exact Block.read?_slot s n.block

theorem value?_of_blank_eq {p : Param} (hp : ∀ s : Slot, s.param ≠ p)
    (hblank : h.blank = g.blank) (id : NodeId) : h.value? id p = g.value? id p := by
  have hread : ∀ k : Graph, k.value? id p = (k.blank.node? id).bind (·.block.read? p) := by
    intro k
    rw [node?_blank, Option.bind_map]
    unfold value?
    congr 1
    funext n
    exact (Block.read?_blank hp n.block).symm
  rw [hread, hblank, ← hread]

/-- A block none of whose parameters changed is the block that it was. -/
theorem SameBut.node?_eq {changed : NodeId → Param → Prop} (hgh : SameBut changed g h)
    (hid : ∀ p, ¬ changed id p) : h.node? id = g.node? id := by
  have hnode : (h.node? id).map Node.outline = (g.node? id).map Node.outline := by
    rw [← node?_mapNodes (f := Node.outline) (fun _ => rfl), hgh.outline,
      node?_mapNodes (f := Node.outline) (fun _ => rfl)]
  have hvalue := fun p => hgh.kept id p (hid p)
  unfold value? at hvalue
  cases hm : h.node? id with
  | none =>
    rw [hm] at hnode
    exact (Option.map_eq_none_iff.mp hnode.symm).symm
  | some m =>
    rw [hm] at hnode hvalue
    obtain ⟨n, hn, hmn⟩ := Option.map_eq_some_iff.mp hnode.symm
    rw [hn] at hvalue
    have hblock : n.block = m.block :=
      Block.eq_of_read?_eq (congrArg Node.block hmn) fun p => (hvalue p).symm
    rw [hn, Node.eq_of_outline_eq hmn hblock]

theorem name_ne_of_param? {k : Kind} {name : String} {spec : ParamSpec}
    (hs : k.param? name = some spec) : name ≠ "sequenceIndex" ∧ name ≠ "label" := by
  obtain ⟨-, rfl⟩ := Kind.param?_eq_some_iff.mp hs
  cases spec.param <;> decide

/-- Setting a parameter comes to writing it and reconciling. -/
theorem edit_param_map_snd (hg : WellFormed g) (hn : g.node? id = some n) {k : Kind} {name : String}
    {spec : ParamSpec} (hk : n.kind? = some k) (hs : k.param? name = some spec) (v : ParamValue)
    (c : ShapeConfig) :
    (g.edit id name v c).map (·.2) =
      if name = Param.sizeIn.name && g.sizeInIsDerived n c then
        .error (.readOnlyParameter n.block.kindName name)
      else (n.block.set name v).map fun b => ((g.putBlock n b).reconcile c).1 := by
  obtain rfl := node?_id hn
  obtain ⟨hindex, hlabel⟩ := name_ne_of_param? hs
  have hregistered : n.isPlaceholder = false := by
    change n.kind?.isNone = false
    rw [hk]
    rfl
  have hchange : g.change n name v c = do return (n.block.get? name, ← g.editParam n name v c) := by
    unfold change
    split
    · contradiction
    · contradiction
    · rfl
  unfold edit
  rw [get_eq_ok_iff.mpr hn]
  change Except.map _ (if n.isPlaceholder = true then _ else _) = _
  rw [hregistered, if_neg Bool.false_ne_true, hchange]
  unfold editParam
  split
  · rfl
  · rw [modifyBlock_eq_map hn]
    cases hb : n.block.set name v with
    | error e => rfl
    | ok b =>
      have hwritten : g.modifyBlock n.id (·.set name v) = .ok (g.putBlock n b) := by
        rw [modifyBlock_eq_map hn, hb]
        rfl
      have hw := wellFormed_modifyBlock hg hwritten
      obtain ⟨m, hm⟩ := exists_get_putBlock hn b
      have hfollowed := reconcile_assignAll_fst hw
        (cascade_sublist hw (mem_of_node? (get_eq_ok_iff.mp hm)) name c)
      simp only [Except.map, bind, Except.bind, pure, Except.pure, hm]
      exact congrArg Except.ok hfollowed

/-- Writes a value to a parameter of a block. -/
def write (g : Graph) (id : NodeId) (p : Param) (v : ParamValue) : Graph :=
  g.mapNode id fun m => { m with block := m.block.write p v }

theorem wellFormed_write (hg : WellFormed g) (id : NodeId) (p : Param) (v : ParamValue) :
    WellFormed (g.write id p v) := by
  apply wellFormed_mapNode hg
  · exact fun _ => rfl
  · intro m
    exact congrArg (Option.bind · Kind.family) (Block.kind?_write m.block p v)
  · exact fun _ => rfl

theorem putBlock_write (hg : WellFormed g) (hn : g.node? id = some n) (p : Param) (v : ParamValue) :
    g.putBlock n (n.block.write p v) = g.write id p v := by
  obtain rfl := node?_id hn
  have hfamily : (n.block.write p v).family? = n.family? :=
    congrArg (Option.bind · Kind.family) (Block.kind?_write n.block p v)
  unfold putBlock write
  dsimp only
  rw [if_pos hfamily]
  apply mapNode_congr
  intro m hm hi
  rw [eq_of_node? hg.ids_nodup hn hm hi]

/-- What an edit of a parameter that succeeds comes to. -/
theorem edit_param_eq_ok (hg : WellFormed g) (hn : g.node? id = some n) {k : Kind} {name : String}
    {spec : ParamSpec} (hk : n.kind? = some k) (hs : k.param? name = some spec) {v : ParamValue}
    {o : EditOutcome} (he : g.edit id name v c = .ok (o, h)) :
    spec.editable = true ∧ spec.domain.rejection? v = none ∧
      (spec.param = .sizeIn → g.sizeInIsDerived n c = false) ∧
      h = ((g.write id spec.param v).reconcile c).1 := by
  have hmap := edit_param_map_snd hg hn hk hs v c
  obtain ⟨-, hname⟩ := Kind.param?_eq_some_iff.mp hs
  rw [he] at hmap
  split at hmap
  · cases hmap
  · rename_i hfree
    cases hb : n.block.set name v with
    | error e => simp [hb, Except.map] at hmap
    | ok b =>
      obtain ⟨heditable, hv, rfl⟩ := (Block.set_eq_ok_iff hk hs).mp hb
      rw [hb] at hmap
      refine ⟨heditable, hv, ?_, ?_⟩
      · intro hp
        simpa [← hname, hp] using hfree
      · rw [← putBlock_write hg hn]
        exact Except.ok.inj hmap

/-- The sizes that follow from a parameter of a block. -/
inductive Arrives (g : Graph) (n : Node) : Param → NodeId → Param → Prop where
  /-- The next convolution takes the channels of a convolution. -/
  | convolution {before between m after}
      (hs : g.members .spatial = before ++ n :: (between ++ m :: after))
      (hn : n.kind? = some .convolutional)
      (hbetween : ∀ x ∈ between, x.kind? ≠ some .convolutional)
      (hm : m.kind? = some .convolutional) : Arrives g n .sizeOut m.id .sizeIn
  /-- The poolings before the next convolution, or the end, pass the channels on. -/
  | pooling {before between m after}
      (hs : g.members .spatial = before ++ n :: (between ++ m :: after))
      (hn : n.kind? = some .convolutional)
      (hbetween : ∀ x ∈ between, x.kind? ≠ some .convolutional)
      (hm : m.kind? = some .pooling) : Arrives g n .sizeOut m.id .channels
  /-- The first neural block takes the channels of the last convolution. -/
  | flattened {before after m rest} (hs : g.members .spatial = before ++ n :: after)
      (hn : n.kind? = some .convolutional) (hafter : ∀ x ∈ after, x.kind? ≠ some .convolutional)
      (hm : g.members .neural = m :: rest) : Arrives g n .sizeOut m.id .sizeIn
  /-- How many there are of them depends on the windows of the poolings. -/
  | pooled {p m rest} (hn : n.kind? = some .pooling) (hp : p = .kernelSize ∨ p = .stride)
      (hm : g.members .neural = m :: rest) : Arrives g n p m.id .sizeIn
  /-- A neural block takes the output of the one before it. -/
  | chained {before m after} (hs : g.members .neural = before ++ n :: m :: after) :
      Arrives g n .sizeOut m.id .sizeIn

theorem not_arrives_sizeIn {p : Param} : ¬ g.Arrives n .sizeIn id p := by
  intro ha
  cases ha with
  | pooled _ hp => simp at hp

end Graph

/-- What a write to a block makes of a node. -/
def Node.write (id : NodeId) (p : Param) (v : ParamValue) (m : Node) : Node :=
  if m.id = id then { m with block := m.block.write p v } else m

namespace Node

variable {id : NodeId} {p : Param} {v : ParamValue} {m : Node}

theorem id_write : (m.write id p v).id = m.id := by
  unfold write
  split <;> rfl

theorem kind?_write : (m.write id p v).kind? = m.kind? := by
  unfold write
  split
  · exact Block.kind?_write m.block p v
  · rfl

/-- Where nothing is written, or something that does not matter, a node shows the same. -/
theorem apply_write {β : Type} (r : Block → β)
    (hr : m.id = id → r (m.block.write p v) = r m.block) :
    r (m.write id p v).block = r m.block := by
  unfold write
  split
  · rename_i hi
    exact hr hi
  · rfl

end Node

/-- The kernel and the stride of a pooling. -/
def Block.window? (b : Block) : Option (UInt32 × UInt32) :=
  b.pooling?.map fun p => (p.kernelSize, p.stride)

namespace Block

theorem channelsOut?_write {p : Param} (hp : p ≠ .sizeOut) (b : Block) (v : ParamValue) :
    (b.write p v).channelsOut? = b.channelsOut? := by
  cases b <;> cases p <;>
    first | rfl | exact absurd rfl hp | exact apply_getD_bind channelsOut? _ fun _ => rfl

theorem window?_write {p : Param} (hk : p ≠ .kernelSize) (hs : p ≠ .stride) (b : Block)
    (v : ParamValue) : (b.write p v).window? = b.window? := by
  cases b <;> cases p <;>
    first
    | rfl
    | exact absurd rfl hk
    | exact absurd rfl hs
    | exact apply_getD_bind window? _ fun _ => rfl

theorem channelsOut?_eq_none {b : Block} (hb : b.kind? ≠ some .convolutional) :
    b.channelsOut? = none := by
  cases b <;> first | rfl | exact absurd rfl hb

theorem exists_channelsOut? {b : Block} (hb : b.kind? = some .convolutional) :
    ∃ v, b.channelsOut? = some v := by
  cases b <;> cases hb
  exact ⟨_, rfl⟩

theorem eq_convolutional_of_kind? {b : Block} (hb : b.kind? = some .convolutional) :
    ∃ p, b = .convolutional p := by
  cases b <;> cases hb
  exact ⟨_, rfl⟩

theorem eq_pooling_of_kind? {b : Block} (hb : b.kind? = some .pooling) : ∃ p, b = .pooling p := by
  cases b <;> cases hb
  exact ⟨_, rfl⟩

theorem window?_eq_none {b : Block} (hb : b.kind? ≠ some .pooling) : b.window? = none := by
  cases b <;> first | rfl | exact absurd rfl hb

end Block

namespace Graph

variable {g h : Graph} {c : ShapeConfig} {id : NodeId} {n : Node} {p : Param} {v : ParamValue}

theorem channelsBehind?_concat (ns : List Node) (n : Node) :
    channelsBehind? (ns ++ [n]) = n.block.channelsOut?.or (channelsBehind? ns) := by
  unfold channelsBehind?
  rw [List.filterMap_append]
  cases hn : n.block.channelsOut? <;> simp [hn]

/-- The channels behind some blocks depend on the last convolution only. -/
theorem channelsBehind?_write (id : NodeId) (p : Param) (v : ParamValue) (ns : List Node) :
    channelsBehind? (ns.map (Node.write id p v)) = channelsBehind? ns ∨
      ∃ before n between, ns = before ++ n :: between ∧ n.id = id ∧ p = .sizeOut ∧
        n.kind? = some .convolutional ∧ ∀ x ∈ between, x.kind? ≠ some .convolutional := by
  induction ns using List.reverseRecOn with
  | nil => exact .inl rfl
  | append_singleton ns n ih =>
    rw [List.map_append, List.map_singleton, channelsBehind?_concat, channelsBehind?_concat]
    by_cases hn : n.kind? = some .convolutional
    · by_cases hw : n.id = id ∧ p = .sizeOut
      · exact .inr ⟨ns, n, [], rfl, hw.1, hw.2, hn, by simp⟩
      · obtain ⟨w, hw'⟩ := Block.exists_channelsOut? hn
        have hsame : (n.write id p v).block.channelsOut? = n.block.channelsOut? :=
          Node.apply_write Block.channelsOut? fun hi =>
            Block.channelsOut?_write (fun hp => hw ⟨hi, hp⟩) n.block v
        rw [hsame, hw']
        exact .inl rfl
    · have hnone := Block.channelsOut?_eq_none hn
      have hnone' : (n.write id p v).block.channelsOut? = none :=
        Block.channelsOut?_eq_none (Node.kind?_write.trans_ne hn)
      rw [hnone, hnone', Option.none_or, Option.none_or]
      refine ih.imp_right ?_
      rintro ⟨before, m, between, rfl, hi, hp, hm, hbetween⟩
      refine ⟨before, m, between ++ [n], by simp, hi, hp, hm, ?_⟩
      simpa [or_imp, forall_and] using ⟨hbetween, hn⟩

theorem members_write (g : Graph) (id : NodeId) (p : Param) (v : ParamValue) (f : Family) :
    (g.write id p v).members f = (g.members f).map (Node.write id p v) :=
  members_mapNodes (fun _ => Node.id_write) f

theorem lastChannels?_eq (g : Graph) : g.lastChannels? = channelsBehind? (g.members .spatial) := by
  unfold lastChannels? convolutions channelsBehind? Block.channelsOut?
  rw [← List.getLast?_map, List.map_filterMap]

theorem finalSize_eq (g : Graph) (c : ShapeConfig) :
    g.finalSize c = ((g.members .spatial).filterMap (·.block.window?)).foldl
      (fun dim w => reduceDim dim w.1 w.2) c.initialSpatialSize := by
  have hwindows : (g.members .spatial).filterMap (·.block.window?) =
      g.poolings.map fun p => (p.kernelSize, p.stride) := by
    unfold poolings
    rw [List.map_filterMap]
    rfl
  rw [hwindows, List.foldl_map]
  rfl

theorem finalSize_write (hg : WellFormed g) (hn : n ∈ g.nodes)
    (hp : n.kind? = some .pooling → p ≠ .kernelSize ∧ p ≠ .stride) :
    (g.write n.id p v).finalSize c = g.finalSize c := by
  rw [finalSize_eq, finalSize_eq, members_write, List.filterMap_map]
  congr 1
  apply List.filterMap_congr
  intro m hm
  refine Node.apply_write Block.window? fun hi => ?_
  obtain rfl : m = n := List.inj_on_of_nodup_map hg.ids_nodup (hg.mem_members.mp hm).1 hn hi
  by_cases hk : m.kind? = some .pooling
  · exact Block.window?_write (hp hk).1 (hp hk).2 m.block v
  · have hk' : (m.block.write p v).kind? ≠ some .pooling := by rwa [Block.kind?_write]
    rw [Block.window?_eq_none hk, Block.window?_eq_none hk']

theorem exists_members_write {f : Family} {before after : List Node} {m : Node}
    (hs : (g.write id p v).members f = before ++ m :: after) :
    ∃ before' m' after', g.members f = before' ++ m' :: after' ∧
      before'.map (Node.write id p v) = before ∧ m'.write id p v = m ∧
      after'.map (Node.write id p v) = after := by
  rw [members_write] at hs
  obtain ⟨before', rest, hs, hbefore, hrest⟩ := List.map_eq_append_iff.mp hs
  obtain ⟨m', after', rfl, hm, hafter⟩ := List.map_eq_cons_iff.mp hrest
  exact ⟨before', m', after', hs, hbefore, hm, hafter⟩

/-- Members of the families with the same id are the same block, and families do not overlap. -/
theorem eq_of_mem_members (hg : WellFormed g) {f f' : Family} {m : Node} (hm : m ∈ g.members f)
    (hn : n ∈ g.members f') (hi : m.id = n.id) : m = n ∧ f = f' := by
  obtain ⟨hm, hf, -⟩ := hg.mem_members.mp hm
  obtain ⟨hn, hf', -⟩ := hg.mem_members.mp hn
  obtain rfl := List.inj_on_of_nodup_map hg.ids_nodup hm hn hi
  exact ⟨rfl, Option.some.inj (hf.symm.trans hf')⟩

/-- A block has one place in its family. -/
theorem split_members_unique (hg : WellFormed g) {f : Family}
    {before before' after after' : List Node} (hs : g.members f = before ++ n :: after)
    (hs' : g.members f = before' ++ n :: after') : before = before' ∧ after = after' := by
  have hnot := (List.nodup_cons.mp (List.nodup_middle.mp (hs ▸ hg.members_nodup f))).1
  rw [List.mem_append, not_or] at hnot
  obtain ⟨hbefore, -, hafter⟩ :=
    (List.append_cons_inj_of_notMem hnot.1 hnot.2).mp (hs.symm.trans hs')
  exact ⟨hbefore, hafter⟩

theorem id_ne_of_split (hg : WellFormed g) {f : Family} {before after : List Node}
    (hs : g.members f = before ++ after) {m x : Node} (hm : m ∈ before) (hx : x ∈ after) :
    m.id ≠ x.id := by
  intro hi
  have hmf : m ∈ g.members f := by simp [hs, hm]
  have hxf : x ∈ g.members f := by simp [hs, hx]
  exact (List.nodup_append.mp (hs ▸ hg.members_nodup f)).2.2 m hm x hx
    (eq_of_mem_members hg hmf hxf hi).1

theorem channelsBehind?_map_write (hg : WellFormed g) (hn : n ∈ g.nodes) {before rest : List Node}
    (hs : g.members .spatial = before ++ rest)
    (hlast : ∀ earlier between, before = earlier ++ n :: between → p = .sizeOut →
      n.kind? = some .convolutional → ¬ ∀ x ∈ between, x.kind? ≠ some .convolutional) :
    channelsBehind? (before.map (Node.write n.id p v)) = channelsBehind? before := by
  refine (channelsBehind?_write n.id p v before).resolve_right ?_
  rintro ⟨earlier, m, between, rfl, hi, hp, hm, hbetween⟩
  have hmem : m ∈ g.members .spatial := by simp [hs]
  obtain rfl : m = n := List.inj_on_of_nodup_map hg.ids_nodup (hg.mem_members.mp hmem).1 hn hi
  exact hlast earlier between rfl hp hm hbetween

/-- What is determined behind a write, where nothing of it arrives, was determined before. -/
theorem determined_of_write (hg : WellFormed g) (hn : n ∈ g.nodes) {s : Slot} {w : UInt32}
    (hd : (g.write n.id p v).Determined c id s w) (ha : ¬ g.Arrives n p id s.param) :
    g.Determined c id s w := by
  cases hd with
  | convolution hs hm hv =>
    obtain ⟨before, m, after, hmembers, rfl, rfl, rfl⟩ := exists_members_write hs
    rw [Node.id_write] at ha ⊢
    have hk : m.kind? = some .convolutional :=
      Node.kind?_write.symm.trans (congrArg Block.kind? hm)
    obtain ⟨q, hq⟩ := Block.eq_convolutional_of_kind? hk
    refine .convolution hmembers hq ?_
    rw [← hv]
    symm
    apply channelsBehind?_map_write hg hn hmembers
    rintro earlier between rfl rfl hkind hbetween
    exact ha (.convolution (by simpa using hmembers) hkind hbetween hk)
  | pooling hs hm hv =>
    obtain ⟨before, m, after, hmembers, rfl, rfl, rfl⟩ := exists_members_write hs
    rw [Node.id_write] at ha ⊢
    have hk : m.kind? = some .pooling := Node.kind?_write.symm.trans (congrArg Block.kind? hm)
    obtain ⟨q, hq⟩ := Block.eq_pooling_of_kind? hk
    refine .pooling hmembers hq ?_
    rw [← hv]
    symm
    apply channelsBehind?_map_write hg hn hmembers
    rintro earlier between rfl rfl hkind hbetween
    exact ha (.pooling (by simpa using hmembers) hkind hbetween hk)
  | chained hs hv =>
    obtain ⟨before, m, rest, hmembers, rfl, rfl, hrest⟩ := exists_members_write hs
    obtain ⟨x, after, rfl, rfl, rfl⟩ := List.map_eq_cons_iff.mp hrest
    rw [Node.id_write] at ha ⊢
    refine .chained hmembers ?_
    rw [← hv]
    symm
    refine Node.apply_write Block.sizeOut? fun hi => Block.sizeOut?_write ?_ m.block v
    rintro rfl
    have hmem : m ∈ g.members .neural := by simp [hmembers]
    obtain rfl : m = n := List.inj_on_of_nodup_map hg.ids_nodup (hg.mem_members.mp hmem).1 hn hi
    exact ha (.chained hmembers)
  | flattened hs hq hd =>
    rename_i q
    obtain ⟨before, m, after, hmembers, hbefore, rfl, rfl⟩ :=
      exists_members_write (hs.trans (List.nil_append _).symm)
    obtain rfl := List.map_eq_nil_iff.mp hbefore
    rw [Node.id_write] at ha ⊢
    have hsize : (g.write n.id p v).finalSize c = g.finalSize c := by
      apply finalSize_write hg hn
      intro hk
      exact ⟨fun hp => ha (.pooled hk (.inl hp) hmembers),
        fun hp => ha (.pooled hk (.inr hp) hmembers)⟩
    have hlast : (g.write n.id p v).lastChannels? = g.lastChannels? := by
      rw [lastChannels?_eq, lastChannels?_eq, members_write]
      apply channelsBehind?_map_write hg hn (List.append_nil _).symm
      rintro earlier between hsp rfl hk hbetween
      exact ha (.flattened hsp hk hbetween hmembers)
    have hout : g.lastChannels? = some q.sizeOut := by
      rw [← hlast, lastChannels?, hq]
      rfl
    obtain ⟨q', hq', hout⟩ := Option.map_eq_some_iff.mp hout
    rw [hsize] at hd ⊢
    rw [← hout]
    exact .flattened hmembers hq' hd

theorem node?_write (g : Graph) (id j : NodeId) (p : Param) (v : ParamValue) :
    (g.write id p v).node? j = (g.node? j).map (Node.write id p v) :=
  node?_mapNodes (fun _ => Node.id_write) j

theorem value?_write_of_not {j : NodeId} {q : Param} (hj : ¬ (j = id ∧ q = p)) :
    (g.write id p v).value? j q = g.value? j q := by
  unfold value?
  rw [node?_write, Option.bind_map]
  cases hm : g.node? j with
  | none => rfl
  | some m =>
    obtain rfl := node?_id hm
    exact Node.apply_write (·.read? q) fun hi =>
      Block.read?_write_of_ne (fun hq => hj ⟨hi, hq⟩) m.block v

theorem outline_write (g : Graph) (id : NodeId) (p : Param) (v : ParamValue) :
    (g.write id p v).mapNodes Node.outline = g.mapNodes Node.outline := by
  unfold write
  rw [mapNode_eq_mapNodes, mapNodes_mapNodes]
  congr 1
  funext m
  change Node.outline (Node.write id p v m) = m.outline
  unfold Node.write
  split
  · exact congrArg (fun b => { m with block := b }) (Block.outline_write m.block p v)
  · rfl

theorem outline_of_blank_eq (hblank : h.blank = g.blank) :
    h.mapNodes Node.outline = g.mapNodes Node.outline := by
  have houtline : ∀ k : Graph, k.blank.mapNodes Node.outline = k.mapNodes Node.outline := by
    intro k
    rw [blank, mapNodes_mapNodes]
    congr 1
    funext m
    exact congrArg (fun b => { m with block := b }) (Block.outline_blank m.block)
  rw [← houtline, hblank, houtline]

/-- In a settled graph, a write and reconciling change what is written and where it arrives. -/
theorem sameBut_reconcile_write (hg : WellFormed g) (hs : g.Settled c) (hn : n ∈ g.nodes)
    (p : Param) (v : ParamValue) :
    SameBut (fun id q => id = n.id ∧ q = p ∨ g.Arrives n p id q) g
      ((g.write n.id p v).reconcile c).1 := by
  have hw := wellFormed_write hg n.id p v
  have hr := agreesBut_reconcile hw c
  constructor
  · rw [outline_of_blank_eq hr.blank, outline_write]
  · intro id q hq
    obtain ⟨hself, ha⟩ := not_or.mp hq
    have hkept := value?_write_of_not (g := g) (v := v) hself
    by_cases hslot : ∃ s : Slot, s.param = q
    · obtain ⟨s, rfl⟩ := hslot
      by_cases ho : (g.write n.id p v).Owned c id s
      · -- the same value was determined before, so that the slot held it
        obtain ⟨w, hd⟩ := ho
        have hbefore := slotValue?_reconcile hg (determined_of_write hg hn hd ha)
        rw [show g.reconcile c = (g, []) from hs] at hbefore
        rw [value?_slot, value?_slot, slotValue?_reconcile hw hd, hbefore]
      · rw [value?_slot, hr.free id s ho, ← value?_slot, hkept]
    · rw [value?_of_blank_eq (fun s hp => hslot ⟨s, hp⟩) hr.blank, hkept]

/-- Nothing arrives at the blocks before the one that it comes from. -/
theorem not_arrives_before (hg : WellFormed g) {f : Family} {before after : List Node}
    (hs : g.members f = before ++ n :: after) {m : Node} (hm : m ∈ before) (q : Param) :
    ¬ g.Arrives n p m.id q := by
  have hn : n ∈ g.members f := by simp [hs]
  have hmf : m ∈ g.members f := by simp [hs, hm]
  have hlater : ∀ {f' before' after' x}, g.members f' = before' ++ n :: after' → x ∈ after' →
      m.id ≠ x.id := by
    intro f' before' after' x hs' hx
    obtain ⟨-, rfl⟩ := eq_of_mem_members hg hn (by simp [hs'] : n ∈ g.members f') rfl
    obtain ⟨-, rfl⟩ := split_members_unique hg hs hs'
    exact id_ne_of_split hg hs hm (List.mem_cons_of_mem n hx)
  -- what a spatial block gives to the neural family is not in its own
  have hother : ∀ {x rest}, n.kind?.bind Kind.family = some .spatial →
      g.members .neural = x :: rest → m.id ≠ x.id := by
    intro x rest hspatial hneural hi
    obtain ⟨-, rfl⟩ := eq_of_mem_members hg hmf (by simp [hneural] : x ∈ g.members .neural) hi
    cases (hg.mem_members.mp hn).2.1.symm.trans hspatial
  intro ha
  generalize hi : m.id = i at ha
  cases ha with
  | convolution hs' | pooling hs' => exact hlater hs' (by simp) hi
  | chained hs' => exact hlater hs' (by simp) hi
  | flattened _ hk _ hneural | pooled hk _ hneural =>
    exact hother (by rw [hk]; rfl) hneural hi

/--
An edit of a parameter in a graph without anything to adjust changes that parameter and the sizes at
which its value arrives, and nothing else; no block before it in its family changes.
-/
theorem edit_sameBut (hg : g.Reachable) (hs : (g.reconcile c).2 = []) (hn : n ∈ g.nodes) {k : Kind}
    {name : String} {spec : ParamSpec} (hk : n.kind? = some k) (hspec : k.param? name = some spec)
    {value : ParamValue} {o : EditOutcome} (he : g.edit n.id name value c = .ok (o, h)) :
    SameBut (fun id q => id = n.id ∧ q = spec.param ∨ g.Arrives n spec.param id q) g h ∧
      ∀ f before after, g.members f = before ++ n :: after →
        ∀ m ∈ before, h.node? m.id = some m := by
  have hw := hg.wellFormed
  have hnode := (node?_eq_some_iff hw.ids_nodup).mpr ⟨hn, rfl⟩
  obtain ⟨-, -, -, rfl⟩ := edit_param_eq_ok hw hnode hk hspec he
  have hsame := sameBut_reconcile_write hw (settled_of_adjustments_nil hw hs) hn spec.param value
  refine ⟨hsame, ?_⟩
  intro f before after hf m hm
  have hmem := hw.mem_members.mp (by simp [hf, hm] : m ∈ g.members f)
  rw [hsame.node?_eq, (node?_eq_some_iff hw.ids_nodup).mpr ⟨hmem.1, rfl⟩]
  rintro q (⟨hi, -⟩ | ha)
  · exact id_ne_of_split hw hf hm List.mem_cons_self hi
  · exact not_arrives_before hw hf hm q ha

/-- Three convolutions that fit, a pooling between the last two and neural blocks behind them. -/
def fitting : List GraphOperation :=
  [.add (.new ⟨"z"⟩ 0 (.convolutional ⟨3, 5, 3, 1⟩)),
   .add (.new ⟨"a"⟩ 1 (.convolutional ⟨5, 32, 3, 1⟩)),
   .add (.new ⟨"p"⟩ 2 (.pooling ⟨32, 2, 2, .max⟩)),
   .add (.new ⟨"b"⟩ 3 (.convolutional ⟨32, 64, 3, 1⟩)), .add (.new ⟨"in"⟩ 0 (.input ⟨256, 8⟩)),
   .add (.new ⟨"h"⟩ 1 (.hidden ⟨8, 4, .relu⟩))]

/-- The channels of the second convolution arrive at the pooling and at the third one. -/
theorem edit_sameBut_fitting :
    let g := fitting.foldl GraphOperation.apply Graph.empty
    let n : Node := .new ⟨"a"⟩ 1 (.convolutional ⟨5, 32, 3, 1⟩)
    let c : ShapeConfig := { initialSpatialSize := 4 }
    g.Reachable ∧ (g.reconcile c).2 = [] ∧ n ∈ g.nodes ∧
    ∃ o h, g.edit ⟨"a"⟩ "sizeOut" (.ofUInt32 16) c = .ok (o, h) ∧
      o.adjustments = [⟨⟨"p"⟩, "channels", 32, 16⟩, ⟨⟨"b"⟩, "sizeIn", 32, 16⟩] ∧
      SameBut (fun id q => id = ⟨"a"⟩ ∧ q = .sizeOut ∨ g.Arrives n .sizeOut id q) g h ∧
      h.node? ⟨"z"⟩ = some (.new ⟨"z"⟩ 0 (.convolutional ⟨3, 5, 3, 1⟩)) := by
  intro g n c
  have hg : g.Reachable := ⟨fitting, rfl⟩
  have hs : (g.reconcile c).2 = [] := by decide
  have hn : n ∈ g.nodes := by decide
  have hadjustments : (g.edit ⟨"a"⟩ "sizeOut" (.ofUInt32 16) c).toOption.map (·.1.adjustments) =
      some [⟨⟨"p"⟩, "channels", 32, 16⟩, ⟨⟨"b"⟩, "sizeIn", 32, 16⟩] := by decide
  obtain ⟨⟨o, h⟩, he, ho⟩ := Option.map_eq_some_iff.mp hadjustments
  rw [toOption_eq_some_iff] at he
  have hspec : Kind.convolutional.param? "sizeOut" = some (sizeSpec .sizeOut 32) := rfl
  obtain ⟨hsame, hbefore⟩ := edit_sameBut hg hs hn rfl hspec he
  refine ⟨hg, hs, hn, o, h, he, ho, hsame, ?_⟩
  exact hbefore .spatial [.new ⟨"z"⟩ 0 (.convolutional ⟨3, 5, 3, 1⟩)]
    [.new ⟨"p"⟩ 2 (.pooling ⟨32, 2, 2, .max⟩), .new ⟨"b"⟩ 3 (.convolutional ⟨32, 64, 3, 1⟩)]
    (by decide) _ (List.mem_singleton_self _)

end Graph

end LayerGraph
