import LayerGraph.Proofs.CheckedLens
import LayerGraph.Proofs.History
import LayerGraph.Proofs.Inserted
import LayerGraph.Proofs.Validated

namespace LayerGraph

namespace Block

variable {b b' : Block} {name : String} {v : ParamValue} {n : UInt32}

theorem InDomain.setSlot (hb : b.InDomain) (hn : 1 ≤ n) (s : Slot) : (b.setSlot n s).InDomain := by
  cases s <;> cases b <;> first | exact hb | exact ⟨hn, hb.2⟩

theorem InDomain.set (hb : b.InDomain) (h : b.set name v = .ok b') : b'.InDomain := by
  obtain ⟨k, spec, hk, hs, -, hv, rfl⟩ := set_eq_ok_iff_exists.mp h
  obtain ⟨hspec, -⟩ := Kind.param?_eq_some_iff.mp hs
  rw [← rejections_eq_nil_iff, rejections_eq_nil_iff_forall hk] at hb
  rw [← rejections_eq_nil_iff, rejections_eq_nil_iff_forall ((kind?_write b spec.param v).trans hk)]
  intro spec' hspec' w hw
  by_cases he : spec'.param = spec.param
  · -- names are not repeated, so this is the parameter that was written
    have hs' : k.param? name = some spec' :=
      Kind.param?_eq_some_iff.mpr ⟨hspec', he ▸ (Kind.param?_eq_some_iff.mp hs).2⟩
    obtain rfl := Option.some.inj (hs.symm.trans hs')
    rw [read?_write hk hspec hv] at hw
    exact Domain.rejection?_of_kept? hv hw
  · rw [read?_write_of_ne he] at hw
    exact hb spec' hspec' w hw

theorem inDomain_ofKind (k : Kind) : (ofKind k).InDomain := by
  rw [← rejections_eq_nil_iff]
  cases k <;> decide

theorem InDomain.one_le_sizeOut (hb : b.InDomain) (hn : b.sizeOut? = some n) : 1 ≤ n := by
  cases b with
  | input p | hidden p | output p =>
    obtain rfl : p.sizeOut = n := Option.some.inj hn
    exact hb.2
  | convolutional p =>
    obtain rfl : p.sizeOut = n := Option.some.inj hn
    exact hb.2.1
  | _ => cases hn

theorem sizeOut?_of_channelsOut? (hn : b.channelsOut? = some n) : b.sizeOut? = some n := by
  cases b <;> first | exact hn | cases hn

end Block

/-- Blocks are added and changed within their domains only. -/
def GraphOperation.StaysInDomain : GraphOperation → Prop
  | add n => n.block.InDomain
  | modifyBlock _ f => ∀ b b', f b = .ok b' → b.InDomain → b'.InDomain
  | _ => True

theorem one_le_saturate {n : Nat} (hn : 1 ≤ n) : 1 ≤ saturate n := by
  rw [UInt32.le_iff_toNat_le, toNat_saturate]
  exact le_min hn (by decide)

theorem one_le_max {m n : UInt32} (hn : 1 ≤ n) : 1 ≤ max m n := by
  rw [UInt32.le_iff_toNat_le] at hn ⊢
  rw [toNat_max]
  exact hn.trans (le_max_right _ _)

/-- A size that is taken over, or else a default. -/
theorem one_le_getD {o : Option UInt32} {n : UInt32} (ho : ∀ v, o = some v → 1 ≤ v) (hn : 1 ≤ n) :
    1 ≤ o.getD n := by
  cases o with
  | none => exact hn
  | some v => exact ho v rfl

namespace Graph

variable {g h : Graph} {c : ShapeConfig} {id : NodeId} {s : Slot} {v : UInt32}

def InDomain (g : Graph) : Prop := ∀ n ∈ g.nodes, n.block.InDomain

namespace InDomain

variable (hd : g.InDomain)

include hd

theorem one_le_lastChannels (hv : g.lastChannels? = some v) : 1 ≤ v := by
  obtain ⟨p, hp, rfl⟩ := Option.map_eq_some_iff.mp hv
  obtain ⟨n, hn, hnp⟩ := List.mem_filterMap.mp (List.mem_of_getLast? hp)
  apply (hd n (mem_nodes_of_mem_filterMap hn)).one_le_sizeOut
  exact Block.sizeOut?_of_channelsOut? (congrArg (Option.map Convolution.sizeOut) hnp)

theorem one_le_flattened (hv : g.flattened? c = some v) : 1 ≤ v := by
  obtain ⟨p, hp, hdim, rfl⟩ := flattened?_eq_some_iff.mp hv
  have hp1 : 1 ≤ p.sizeOut := hd.one_le_lastChannels (congrArg (Option.map Convolution.sizeOut) hp)
  rw [UInt32.le_iff_toNat_le] at hp1
  rw [UInt32.lt_iff_toNat_lt] at hdim
  exact one_le_saturate (Nat.mul_pos (Nat.mul_pos hp1 hdim) hdim)

theorem one_le_determined (hv : g.Determined c id s v) : 1 ≤ v := by
  have hbehind : ∀ before n after, g.members .spatial = before ++ n :: after →
      channelsBehind? before = some v → 1 ≤ v := by
    intro before n after hs hv
    obtain ⟨m, hm, hmv⟩ := List.mem_filterMap.mp (List.mem_of_getLast? hv)
    have hmem : m ∈ g.members .spatial := hs ▸ List.mem_append_left _ hm
    exact (hd m (mem_nodes_of_mem_filterMap hmem)).one_le_sizeOut (Block.sizeOut?_of_channelsOut? hmv)
  cases hv with
  | convolution hs _ hv | pooling hs _ hv => exact hbehind _ _ _ hs hv
  | chained hs hv =>
    exact (hd _ (mem_nodes_of_mem_filterMap (hs ▸ List.mem_append_cons_self))).one_le_sizeOut hv
  | flattened hs hp hdim => exact hd.one_le_flattened (flattened?_eq_some_iff.mpr ⟨_, hp, hdim, rfl⟩)

theorem one_le_sizeOut_of_mem {o : Option Node} {f : Family} (ho : ∀ n ∈ o, n ∈ g.members f)
    (hv : o.bind (·.block.sizeOut?) = some v) : 1 ≤ v := by
  obtain ⟨n, hn, hnv⟩ := Option.bind_eq_some_iff.mp hv
  exact (hd n (mem_nodes_of_mem_filterMap (ho n hn))).one_le_sizeOut hnv

theorem seeded (hc : 1 ≤ c.inputChannels) (k : Kind) : (g.seeded c k).InDomain := by
  cases k with
  | input =>
    exact ⟨one_le_getD (fun _ => hd.one_le_flattened) (by decide), one_le_max (by decide)⟩
  | hidden =>
    refine ⟨one_le_getD ?_ (by decide), one_le_max (by decide)⟩
    intro v hv
    apply hd.one_le_sizeOut_of_mem (f := .neural) _ hv
    intro n hn
    exact List.mem_of_mem_filter (List.mem_of_getLast? hn)
  | output =>
    refine ⟨one_le_getD ?_ (by decide), one_le_max (by decide)⟩
    intro v hv
    exact hd.one_le_sizeOut_of_mem (fun n hn => List.mem_of_getLast? hn) hv
  | convolutional =>
    have hchannels : 1 ≤ g.lastChannels?.getD c.inputChannels :=
      one_le_getD (fun _ => hd.one_le_lastChannels) hc
    refine ⟨hchannels, one_le_saturate ?_, (by decide : (1 : UInt32) ≤ 3)⟩
    rw [UInt32.le_iff_toNat_le] at hchannels
    exact Nat.mul_pos hchannels (by decide)
  | pooling =>
    have htwo : (1 : UInt32) ≤ 2 := by decide
    exact ⟨one_le_getD (fun _ => hd.one_le_lastChannels) (by decide), htwo, htwo⟩
  | classifier => exact Block.inDomain_ofKind .classifier
  | training => exact Block.inDomain_ofKind .training
  | start => exact Block.inDomain_ofKind .start

theorem mapNode {f : Node → Node} (hf : ∀ n ∈ g.nodes, (f n).block.InDomain) (id : NodeId) :
    (g.mapNode id f).InDomain := by
  intro n hn
  rw [nodes_mapNode] at hn
  obtain ⟨m, hm, rfl⟩ := List.mem_map.mp hn
  split
  · exact hf m hm
  · exact hd m hm

theorem assignAll (hg : WellFormed g) {as : List Assignment} (has : ∀ a ∈ as, 1 ≤ a.value) :
    (g.assignAll as).1.InDomain := by
  induction as generalizing g with
  | nil => exact hd
  | cons a as ih =>
    have hassign : (g.assign a).1.InDomain := by
      rw [assign_fst hg]
      exact hd.mapNode (fun n hn => (hd n hn).setSlot (has a List.mem_cons_self) a.slot) a.node
    exact ih hassign (wellFormed_assign hg a) fun b hb => has b (List.mem_cons_of_mem a hb)

theorem one_le_of_mem_assignments (hg : WellFormed g) {a : Assignment}
    (ha : a ∈ g.assignments c) : 1 ≤ a.value :=
  hd.one_le_determined ((mem_assignments hg).mp ha)

theorem reconcile (hg : WellFormed g) (c : ShapeConfig) : (g.reconcile c).1.InDomain := by
  rw [reconcile_eq_assignAll hg]
  exact hd.assignAll hg fun _ => hd.one_le_of_mem_assignments hg

theorem run {op : GraphOperation} (hg : WellFormed g) (hr : op.run g = .ok h)
    (hop : op.StaysInDomain) : h.InDomain := by
  intro n hn
  rw [(nodes_run_perm hg hr).mem_iff, List.mem_append] at hn
  rcases hn with hn | hn
  · obtain ⟨m, hm, hmn⟩ := List.mem_filterMap.mp hn
    rcases GraphOperation.block_of_onNode hmn with hb | ⟨id, f, rfl, hb⟩
    · rw [hb]
      exact hd m hm
    · exact hop _ _ hb (hd m hm)
  · cases op with
    | add m =>
      obtain rfl : n = m := by simpa [GraphOperation.newNode?] using hn
      exact hop
    | _ => cases hn

theorem remove {n : Node} (hg : WellFormed g) (hr : g.remove id = .ok (n, h)) : h.InDomain := by
  have hrun : (GraphOperation.remove id).run g = .ok h := map_eq_ok_iff.mpr ⟨_, hr, rfl⟩
  exact hd.run hg hrun trivial

theorem written {param : String} {value : ParamValue} (hg : WellFormed g)
    (hw : g.written? id param value = some h) : h.InDomain := by
  unfold written? at hw
  split at hw
  · obtain ⟨i, -, hw⟩ := Option.bind_eq_some_iff.mp hw
    have hrun : (GraphOperation.setSequenceIndex id i).run g = .ok h := toOption_eq_some_iff.mp hw
    exact hd.run hg hrun trivial
  · obtain ⟨label, -, hw⟩ := Option.bind_eq_some_iff.mp hw
    have hrun : (GraphOperation.setLabel id label).run g = .ok h := toOption_eq_some_iff.mp hw
    exact hd.run hg hrun trivial
  · have hrun : (GraphOperation.modifyBlock id (·.set param value)).run g = .ok h :=
      toOption_eq_some_iff.mp hw
    have hset : (GraphOperation.modifyBlock id (·.set param value)).StaysInDomain :=
      fun _ _ hset hb => hb.set hset
    exact hd.run hg hrun hset

theorem edit {param : String} {value : ParamValue} {o : EditOutcome} (hg : WellFormed g)
    (he : g.edit id param value c = .ok (o, h)) : h.InDomain := by
  obtain ⟨g₁, assigned, hwritten, hcascade, rfl, -⟩ := edit_eq_ok he
  have hg₁ := (wellFormed_written hg hwritten).1
  have hd₁ := hd.written hg hwritten
  -- what follows at once is among what reconciling sets
  have has : assigned.Sublist (g₁.assignments c) := by
    rcases hcascade with rfl | ⟨m, hm, rfl⟩
    · exact List.nil_sublist _
    · exact cascade_sublist hg₁ hm param c
  have hassigned := hd₁.assignAll hg₁ fun a ha =>
    hd₁.one_le_of_mem_assignments hg₁ (has.subset ha)
  exact hassigned.reconcile (wellFormed_assignAll hg₁ assigned) c

theorem insert {k : Kind} {id? : Option NodeId} (hg : WellFormed g) (hc : 1 ≤ c.inputChannels)
    (hi : g.insert k id? c = .ok (id, h)) : h.InDomain := by
  obtain ⟨-, hnew, rfl⟩ := insert_eq_ok_iff.mp hi
  have hinserted : (g.inserted k id c).InDomain := by
    intro n hn
    rw [(nodes_inserted_perm hg hnew c).mem_iff] at hn
    rcases List.mem_cons.mp hn with rfl | hn
    · exact hd.seeded hc k
    · obtain ⟨m, hm, rfl⟩ := List.mem_map.mp hn
      obtain ⟨i, hi⟩ := pushed_eq g k m
      rw [hi]
      exact hd m hm
  exact hinserted.reconcile (wellFormed_inserted hg hnew c) c

end InDomain
end Graph

/-- What the engine is called for. -/
inductive EngineCall where
  | insert (k : Kind) (id? : Option NodeId)
  | edit (id : NodeId) (param : String) (value : ParamValue)
  | remove (id : NodeId)
  | reconcile

namespace EngineCall

variable {g h : Graph} {c : ShapeConfig} {call : EngineCall}

def run (c : ShapeConfig) (g : Graph) : EngineCall → Except GraphError Graph
  | insert k id? => (·.2) <$> g.insert k id? c
  | edit id param value => (·.2) <$> g.edit id param value c
  | remove id => (·.2) <$> g.remove id
  | reconcile => .ok (g.reconcile c).1

/-- A call that fails leaves the graph as it is. -/
def apply (c : ShapeConfig) (g : Graph) (call : EngineCall) : Graph :=
  match call.run c g with
  | .ok h => h
  | .error _ => g

theorem wellFormed_run (hg : g.WellFormed) (hr : call.run c g = .ok h) : h.WellFormed := by
  cases call with
  | insert k id? =>
    obtain ⟨⟨id, h⟩, hi, rfl⟩ := map_eq_ok_iff.mp hr
    exact (Graph.edited_insert hg hi).1.wellFormed
  | edit id param value =>
    obtain ⟨⟨o, h⟩, he, rfl⟩ := map_eq_ok_iff.mp hr
    exact (Graph.edited_edit hg he).1.wellFormed
  | remove id =>
    obtain ⟨⟨n, h⟩, hremove, rfl⟩ := map_eq_ok_iff.mp hr
    exact Graph.wellFormed_remove hg hremove
  | reconcile =>
    obtain rfl := Except.ok.inj hr
    exact Graph.wellFormed_reconcile hg c

theorem inDomain_run (hg : g.WellFormed) (hd : g.InDomain) (hc : 1 ≤ c.inputChannels)
    (hr : call.run c g = .ok h) : h.InDomain := by
  cases call with
  | insert k id? =>
    obtain ⟨⟨id, h⟩, hi, rfl⟩ := map_eq_ok_iff.mp hr
    exact hd.insert hg hc hi
  | edit id param value =>
    obtain ⟨⟨o, h⟩, he, rfl⟩ := map_eq_ok_iff.mp hr
    exact hd.edit hg he
  | remove id =>
    obtain ⟨⟨n, h⟩, hremove, rfl⟩ := map_eq_ok_iff.mp hr
    exact hd.remove hg hremove
  | reconcile =>
    obtain rfl := Except.ok.inj hr
    exact hd.reconcile hg c

/-- A call keeps the values in their domains, also when it fails. -/
theorem inDomain_apply (hg : g.WellFormed) (hd : g.InDomain) (hc : 1 ≤ c.inputChannels)
    (call : EngineCall) : (call.apply c g).WellFormed ∧ (call.apply c g).InDomain := by
  unfold apply
  cases hr : call.run c g with
  | ok h => exact ⟨wellFormed_run hg hr, inDomain_run hg hd hc hr⟩
  | error e => exact ⟨hg, hd⟩

theorem inDomain_foldl (hg : g.WellFormed) (hd : g.InDomain) (hc : 1 ≤ c.inputChannels)
    (calls : List EngineCall) : (calls.foldl (apply c) g).InDomain := by
  induction calls generalizing g with
  | nil => exact hd
  | cons call calls ih =>
    obtain ⟨hg', hd'⟩ := inDomain_apply hg hd hc call
    exact ih hg' hd'

/-- However long the engine works on a graph without a value outside its domain, there is none. -/
theorem rejections_after (hg : g.Reachable) (hvalues : ∀ n ∈ g.nodes, n.block.rejections = [])
    (hc : 1 ≤ c.inputChannels) (calls : List EngineCall) :
    ∀ n ∈ (calls.foldl (apply c) g).nodes, n.block.rejections = [] ∧ n.block.InDomain := by
  intro n hn
  have hd : g.InDomain := fun m hm => (Block.rejections_eq_nil_iff _).mp (hvalues m hm)
  have hn := inDomain_foldl hg.wellFormed hd hc calls n hn
  exact ⟨(Block.rejections_eq_nil_iff _).mpr hn, hn⟩

end EngineCall

/-- A convolution that gives as many channels as there can be, and a training block. -/
def saturated : List GraphOperation :=
  [.add (.new ⟨"a"⟩ 0 (.convolutional ⟨3, 4294967295, 3, 1⟩)),
   .add (.new ⟨"t"⟩ 0 (.training {}))]

/-- Channels are doubled and flattened, a kernel of zero is refused, and a block is taken out. -/
def doubled : List EngineCall :=
  [.insert .convolutional (some ⟨"b"⟩), .insert .input (some ⟨"in"⟩),
   .edit ⟨"b"⟩ "kernelSize" (.ofUInt32 0), .edit ⟨"b"⟩ "sizeOut" (.ofUInt32 1),
   .insert .hidden none, .remove ⟨"a"⟩, .reconcile]

theorem EngineCall.rejections_after_saturated :
    let g := saturated.foldl GraphOperation.apply Graph.empty
    g.Reachable ∧ (∀ n ∈ g.nodes, n.block.rejections = []) ∧
    ∀ n ∈ (doubled.foldl (EngineCall.apply {}) g).nodes,
      n.block.rejections = [] ∧ n.block.InDomain := by
  intro g
  have hg : g.Reachable := ⟨saturated, rfl⟩
  have hvalues : ∀ n ∈ g.nodes, n.block.rejections = [] := by decide
  exact ⟨hg, hvalues, rejections_after hg hvalues (by decide) doubled⟩

end LayerGraph
