import LayerGraph.Edit
import LayerGraph.Insert
import LayerGraph.Proofs.BlockText
import LayerGraph.Proofs.Parameters
import LayerGraph.Proofs.Settled

namespace LayerGraph

namespace Block

theorem storable_of_kind? {b : Block} {k : Kind} (hb : b.kind? = some k) : b.Storable := by
  cases b with
  | unknown kind data => cases hb
  | _ => trivial

theorem storable_blank_iff (b : Block) : b.blank.Storable ↔ b.Storable := by
  cases b <;> exact Iff.rfl

theorem kind?_set {b b' : Block} {name : String} {v : ParamValue} (h : b.set name v = .ok b') :
    b'.kind? = b.kind? ∧ b.kind?.isSome = true := by
  obtain ⟨k, spec, hk, -, -, -, rfl⟩ := set_eq_ok_iff_exists.mp h
  exact ⟨kind?_write b spec.param v, by rw [hk]; rfl⟩

theorem kind?_seeded (g : Graph) (c : ShapeConfig) (k : Kind) : (g.seeded c k).kind? = some k := by
  cases k <;> rfl

end Block

namespace Graph

variable {g h k : Graph} {c : ShapeConfig} {id : NodeId} {n : Node}

/-- The blocks of a graph can be stored. -/
def Storable (g : Graph) : Prop := ∀ n ∈ g.nodes, n.block.Storable

/-- A change of a graph within its nodes, after which they can be stored as before. -/
structure Carries (g h : Graph) : Prop where
  storable : g.Storable → h.Storable
  contains_eq : h.contains = g.contains

theorem Carries.refl (g : Graph) : Carries g g := ⟨fun hs => hs, rfl⟩

theorem Carries.trans (hgh : Carries g h) (hhk : Carries h k) : Carries g k where
  storable hs := hhk.storable (hgh.storable hs)
  contains_eq := hhk.contains_eq.trans hgh.contains_eq

theorem carries_of_nodes_eq (hnodes : h.nodes = g.nodes) : Carries g h where
  storable hs := by
    unfold Storable
    rw [hnodes]
    exact hs
  contains_eq := contains_congr hnodes

theorem carries_mapNodes {f : Node → Node} (g : Graph) (hid : ∀ n, (f n).id = n.id)
    (hblock : ∀ n ∈ g.nodes, n.block.Storable → (f n).block.Storable) :
    Carries g (g.mapNodes f) where
  storable hs n hn := by
    rw [nodes_mapNodes] at hn
    obtain ⟨m, hm, rfl⟩ := List.mem_map.mp hn
    exact hblock m hm (hs m hm)
  contains_eq := by
    funext id
    exact contains_mapNodes hid id

theorem carries_mapNode {f : Node → Node} (g : Graph) (hid : ∀ n, (f n).id = n.id)
    (hblock : ∀ n ∈ g.nodes, n.id = id → n.block.Storable → (f n).block.Storable) :
    Carries g (g.mapNode id f) := by
  rw [mapNode_eq_mapNodes]
  apply carries_mapNodes
  · intro n
    split
    · exact hid n
    · rfl
  · intro n hn hb
    split
    · rename_i hi
      exact hblock n hn hi hb
    · exact hb

/-- Neither is changed by what the slots hold. -/
theorem carries_of_blank_eq (hblank : h.blank = g.blank) : Carries g h where
  storable hs n hn := by
    -- the node is one of `g` with other sizes
    have hmem : n.blank ∈ g.blank.nodes := by
      rw [← hblank, blank, nodes_mapNodes]
      exact List.mem_map_of_mem hn
    rw [blank, nodes_mapNodes] at hmem
    obtain ⟨m, hm, hmn⟩ := List.mem_map.mp hmem
    have hb : m.block.blank = n.block.blank := congrArg Node.block hmn
    rw [← Block.storable_blank_iff, ← hb, Block.storable_blank_iff]
    exact hs m hm
  contains_eq := by
    have hc : ∀ g : Graph, g.blank.contains = g.contains := by
      intro g
      funext id
      exact contains_mapNodes (f := Node.blank) (fun _ => rfl) id
    rw [← hc, hblank, hc]

theorem carries_reconcile (hg : WellFormed g) (c : ShapeConfig) :
    Carries g (g.reconcile c).1 := carries_of_blank_eq (agreesBut_reconcile hg c).blank

/-- A node is filed anew after a change in its slot. -/
theorem carries_refile {f : Node → Node} (g : Graph) (hid : ∀ n, (f n).id = n.id)
    (hblock : ∀ n ∈ g.nodes, n.id = id → n.block.Storable → (f n).block.Storable) (m : Node) :
    Carries g (((g.unfile id).mapNode id f).file m) := by
  have hmap : Carries (g.unfile id) ((g.unfile id).mapNode id f) := carries_mapNode _ hid hblock
  exact (carries_of_nodes_eq (nodes_unfile g id)).trans
    (hmap.trans (carries_of_nodes_eq (nodes_file _ m)))

theorem carries_setSequenceIndex {i : UInt32} (hs : g.setSequenceIndex id i = .ok h) :
    Carries g h := by
  obtain ⟨n, hn, rfl⟩ := setSequenceIndex_eq_ok_iff.mp hs
  split
  · exact Carries.refl g
  · exact carries_refile (f := ({ · with sequenceIndex := i })) g (fun _ => rfl)
      (fun _ _ _ hb => hb) _

theorem carries_setLabel {label : String} (hs : g.setLabel id label = .ok h) : Carries g h := by
  obtain ⟨-, rfl⟩ := setLabel_eq_ok_iff.mp hs
  exact carries_mapNode g (fun _ => rfl) fun _ _ _ hb => hb

theorem carries_modifyBlock {f : Block → Except GraphError Block}
    (hf : ∀ b b', f b = .ok b' → b'.Storable) (hm : g.modifyBlock id f = .ok h) : Carries g h := by
  obtain ⟨n, b, hn, hb, rfl⟩ := modifyBlock_eq_ok_iff.mp hm
  have hstorable := hf n.block b hb
  -- within its family the block is replaced, otherwise the node is filed anew
  split
  · exact carries_mapNode (f := ({ · with block := b })) g (fun _ => rfl) fun _ _ _ _ => hstorable
  · rw [show (g.mapNode id ({ · with block := b })).unfile id =
      (g.unfile id).mapNode id ({ · with block := b }) from rfl]
    exact carries_refile (f := ({ · with block := b })) g (fun _ => rfl)
      (fun _ _ _ _ => hstorable) _

theorem storable_set {b b' : Block} {name : String} {v : ParamValue} (h : b.set name v = .ok b') :
    b'.Storable := by
  obtain ⟨hkind, hsome⟩ := Block.kind?_set h
  obtain ⟨k, hk⟩ := Option.isSome_iff_exists.mp hsome
  exact Block.storable_of_kind? (hkind.trans hk)

/-- The graph with the one value that an edit was asked to set, and nothing that follows. -/
def written? (g : Graph) (id : NodeId) (param : String) (value : ParamValue) : Option Graph :=
  match param with
  | "sequenceIndex" => do (g.setSequenceIndex id (← value.uint32?)).toOption
  | "label" => do (g.setLabel id (← value.text?)).toOption
  | _ => (g.modifyBlock id (·.set param value)).toOption

theorem wellFormed_written {param : String} {value : ParamValue} (hg : WellFormed g)
    (hw : g.written? id param value = some h) : WellFormed h ∧ Carries g h := by
  unfold written? at hw
  split at hw
  · obtain ⟨i, -, hw⟩ := Option.bind_eq_some_iff.mp hw
    have hset := toOption_eq_some_iff.mp hw
    exact ⟨wellFormed_setSequenceIndex hg hset, carries_setSequenceIndex hset⟩
  · obtain ⟨label, -, hw⟩ := Option.bind_eq_some_iff.mp hw
    have hrun : (GraphOperation.setLabel id label).run g = .ok h := toOption_eq_some_iff.mp hw
    exact ⟨wellFormed_run hg hrun, carries_setLabel hrun⟩
  · have hmodify := toOption_eq_some_iff.mp hw
    exact ⟨wellFormed_modifyBlock hg hmodify,
      carries_modifyBlock (fun _ _ => storable_set) hmodify⟩

theorem editParam_eq_ok {param : String} {value : ParamValue} {followed : List Adjustment}
    (he : g.editParam n param value c = .ok (h, followed)) :
    ∃ g₁, g.modifyBlock n.id (·.set param value) = .ok g₁ ∧ ∃ m ∈ g₁.nodes,
      g₁.assignAll (g₁.cascade m param c) = (h, followed) := by
  unfold editParam at he
  split at he
  · obtain ⟨_, he, -⟩ := bind_eq_ok_iff.mp he
    exact absurd he throw_ne_ok
  · obtain ⟨g₁, hg₁, he⟩ := bind_eq_ok_iff.mp he
    obtain ⟨m, hm, he⟩ := bind_eq_ok_iff.mp he
    exact ⟨g₁, hg₁, m, mem_of_node? (get_eq_ok_iff.mp hm), pure_eq_ok_iff.mp he⟩

/-- Nothing follows at once from a sequence index or a label. -/
theorem change_eq_ok {param : String} {value : ParamValue} {previous : Option ParamValue}
    {followed : List Adjustment} (hc : g.change n param value c = .ok (previous, h, followed)) :
    ∃ g₁ assigned, g.written? n.id param value = some g₁ ∧
      g₁.assignAll assigned = (h, followed) ∧
      (assigned = [] ∨ ∃ m ∈ g₁.nodes, assigned = g₁.cascade m param c) := by
  unfold change at hc
  split at hc
  · split at hc
    · cases hc
    · rename_i i hi
      obtain ⟨g₁, hg₁, hc⟩ := bind_eq_ok_iff.mp hc
      obtain ⟨-, rfl, rfl⟩ := by simpa using pure_eq_ok_iff.mp hc
      refine ⟨g₁, [], ?_, rfl, .inl rfl⟩
      simp [written?, hi, hg₁, Except.toOption]
  · split at hc
    · cases hc
    · rename_i label hl
      obtain ⟨g₁, hg₁, hc⟩ := bind_eq_ok_iff.mp hc
      obtain ⟨-, rfl, rfl⟩ := by simpa using pure_eq_ok_iff.mp hc
      refine ⟨g₁, [], ?_, rfl, .inl rfl⟩
      simp [written?, hl, hg₁, Except.toOption]
  · obtain ⟨_, he, hc⟩ := bind_eq_ok_iff.mp hc
    obtain ⟨-, rfl, rfl⟩ := by simpa using pure_eq_ok_iff.mp hc
    obtain ⟨g₁, hg₁, m, hm, hassigned⟩ := editParam_eq_ok he
    refine ⟨g₁, g₁.cascade m param c, ?_, hassigned, .inr ⟨m, hm, rfl⟩⟩
    unfold written?
    split
    · contradiction
    · contradiction
    · rw [hg₁]
      rfl

theorem edit_eq_ok {param : String} {value : ParamValue} {o : EditOutcome}
    (he : g.edit id param value c = .ok (o, h)) :
    ∃ g₁ assigned, g.written? id param value = some g₁ ∧
      (assigned = [] ∨ ∃ m ∈ g₁.nodes, assigned = g₁.cascade m param c) ∧
      h = ((g₁.assignAll assigned).1.reconcile c).1 ∧
      o.adjustments = (g₁.assignAll assigned).2 ++
        ((g₁.assignAll assigned).1.reconcile c).2 := by
  unfold edit at he
  obtain ⟨n, hn, he⟩ := bind_eq_ok_iff.mp he
  split at he
  · obtain ⟨_, he, -⟩ := bind_eq_ok_iff.mp he
    exact absurd he throw_ne_ok
  · obtain ⟨⟨previous, k, followed⟩, hk, he⟩ := bind_eq_ok_iff.mp he
    have hpair : (EditOutcome.mk id param previous value (followed ++ (k.reconcile c).2),
        (k.reconcile c).1) = (o, h) := pure_eq_ok_iff.mp he
    obtain ⟨rfl, rfl⟩ := Prod.mk.inj hpair
    obtain ⟨g₁, assigned, hwritten, hassigned, hcascade⟩ := change_eq_ok hk
    rw [node?_id (get_eq_ok_iff.mp hn)] at hwritten
    exact ⟨g₁, assigned, hwritten, hcascade, by rw [hassigned], by rw [hassigned]⟩

/-- What a change of the graph by a request ends with. -/
structure Edited (c : ShapeConfig) (g h : Graph) : Prop where
  wellFormed : WellFormed h
  settled : h.Settled c
  storable : g.Storable → h.Storable

theorem Edited.refl (hg : WellFormed g) (hs : g.Settled c) : Edited c g g := ⟨hg, hs, fun h => h⟩

theorem edited_reconcile (hg : WellFormed g) (c : ShapeConfig) : Edited c g (g.reconcile c).1 :=
  ⟨wellFormed_reconcile hg c, settled_reconcile hg c, (carries_reconcile hg c).storable⟩

/-- Labels and places on the canvas can still be changed. -/
theorem Edited.mapNode {f : Node → Node} (hgh : Edited c g h) (hcore : ∀ n, (f n).core = n.core)
    (horder : ∀ n, (f n).sequenceIndex = n.sequenceIndex) (id : NodeId) :
    Edited c g (h.mapNode id f) ∧ (h.mapNode id f).contains = h.contains := by
  have hid : ∀ n, (f n).id = n.id := fun n => (Node.core_eq_iff.mp (hcore n)).1
  have hblock : ∀ n, (f n).block = n.block := fun n => (Node.core_eq_iff.mp (hcore n)).2
  have hfamily : ∀ n, (f n).family? = n.family? := by
    intro n
    unfold Node.family?
    rw [hblock]
  have hcarries : Carries h (h.mapNode id f) := by
    apply carries_mapNode h hid
    intro n _ _ hn
    rw [hblock]
    exact hn
  refine ⟨⟨wellFormed_mapNode hgh.wellFormed hid hfamily horder,
    hgh.settled.mapNode hgh.wellFormed hcore horder id, ?_⟩, hcarries.contains_eq⟩
  intro hs
  exact hcarries.storable (hgh.storable hs)

theorem edited_edit {param : String} {value : ParamValue} {o : EditOutcome} (hg : WellFormed g)
    (he : g.edit id param value c = .ok (o, h)) :
    Edited c g h ∧ h.contains = g.contains := by
  obtain ⟨g₁, assigned, hwritten, -, rfl, -⟩ := edit_eq_ok he
  obtain ⟨hg₁, hcarries⟩ := wellFormed_written hg hwritten
  have hw := wellFormed_assignAll hg₁ assigned
  have hfollowed := hcarries.trans (carries_of_blank_eq (blank_assignAll g₁ assigned))
  have hall := hfollowed.trans (carries_reconcile hw c)
  exact ⟨⟨wellFormed_reconcile hw c, settled_reconcile hw c, hall.storable⟩, hall.contains_eq⟩

theorem wellFormed_roomFor (hg : WellFormed g) (k : Kind) :
    WellFormed (g.roomFor k) ∧ Carries g (g.roomFor k) := by
  -- only input and hidden blocks push others back
  have hroom : ∀ f i, WellFormed (g.makeRoom f i) ∧ Carries g (g.makeRoom f i) := by
    intro f i
    refine ⟨wellFormed_makeRoom hg f i, ?_⟩
    rw [makeRoom_eq_mapNodes]
    apply carries_mapNodes g (raised_id f i)
    intro n _ hn
    unfold raised
    split <;> exact hn
  cases k with
  | input => exact hroom .neural 0
  | hidden => exact hroom .neural g.hiddenIndex
  | _ => exact ⟨hg, Carries.refl g⟩

/-- The node that a new block of the kind becomes. -/
def newNode (g : Graph) (k : Kind) (id : NodeId) (c : ShapeConfig) : Node :=
  { Node.new id (g.insertionIndex k) (g.seeded c k) with position := g.placement k }

/-- The graph with the new block, and no size adjusted yet. -/
def inserted (g : Graph) (k : Kind) (id : NodeId) (c : ShapeConfig) : Graph :=
  ((g.roomFor k).place (g.newNode k id c)).file (g.newNode k id c)

theorem contains_roomFor (g : Graph) (k : Kind) : (g.roomFor k).contains = g.contains := by
  have hroom : ∀ f i, (g.makeRoom f i).contains = g.contains := by
    intro f i
    funext id
    exact contains_mapNodes (raised_id f i) id
  cases k with
  | input | hidden => exact hroom _ _
  | _ => rfl

theorem add_newNode {k : Kind} (hid : g.contains id = false) (c : ShapeConfig) :
    (g.roomFor k).add (g.newNode k id c) = .ok (g.inserted k id c) := by
  apply add_eq_ok_iff.mpr
  exact ⟨(congrFun (contains_roomFor g k) id).trans hid, rfl⟩

theorem insert_of_contains {k : Kind} {id? : Option NodeId}
    (hid : g.contains (id?.getD (g.freshId k)) = true) :
    g.insert k id? c = .error (.duplicateNode (id?.getD (g.freshId k))) := by
  unfold insert
  simp only [hid]
  rfl

theorem insert_of_not_contains {k : Kind} {id? : Option NodeId}
    (hid : g.contains (id?.getD (g.freshId k)) = false) :
    g.insert k id? c = .ok (id?.getD (g.freshId k),
      ((g.inserted k (id?.getD (g.freshId k)) c).reconcile c).1) := by
  unfold insert
  simp only [hid]
  change ((g.roomFor k).add (g.newNode k (id?.getD (g.freshId k)) c) >>= _) = _
  rw [add_newNode hid]
  rfl

theorem insert_eq_ok_iff {k : Kind} {id? : Option NodeId} : g.insert k id? c = .ok (id, h) ↔
    id?.getD (g.freshId k) = id ∧ g.contains id = false ∧
      h = ((g.inserted k id c).reconcile c).1 := by
  cases hnew : g.contains (id?.getD (g.freshId k)) with
  | true =>
    rw [insert_of_contains hnew]
    apply iff_of_false nofun
    rintro ⟨rfl, hfree, -⟩
    rw [hnew] at hfree
    cases hfree
  | false =>
    rw [insert_of_not_contains hnew, Except.ok.injEq, Prod.mk.injEq]
    constructor
    · rintro ⟨rfl, rfl⟩
      exact ⟨rfl, hnew, rfl⟩
    · rintro ⟨rfl, -, rfl⟩
      exact ⟨rfl, rfl⟩

theorem storable_add (hg : WellFormed g) (hn : n.block.Storable) (ha : g.add n = .ok h)
    (hs : g.Storable) : h.Storable := by
  intro m hm
  rw [(nodes_add_perm hg ha).mem_iff] at hm
  rcases List.mem_cons.mp hm with rfl | hm
  · exact hn
  · exact hs m hm

theorem edited_insert {k : Kind} {id? : Option NodeId} (hg : WellFormed g)
    (hi : g.insert k id? c = .ok (id, h)) : Edited c g h ∧ h.contains id = true := by
  obtain ⟨-, hnew, rfl⟩ := insert_eq_ok_iff.mp hi
  obtain ⟨hw, hcarries⟩ := wellFormed_roomFor hg k
  have hadd := add_newNode (k := k) hnew c
  have hinserted := wellFormed_add hw hadd
  have hlast := carries_reconcile hinserted c
  have hblock : (g.seeded c k).Storable := Block.storable_of_kind? (Block.kind?_seeded g c k)
  refine ⟨⟨wellFormed_reconcile hinserted c, settled_reconcile hinserted c, ?_⟩, ?_⟩
  · intro hs
    exact hlast.storable (storable_add hw hblock hadd (hcarries.storable hs))
  · rw [hlast.contains_eq, contains_iff]
    exact ⟨_, (nodes_add_perm hw hadd).mem_iff.mpr List.mem_cons_self, rfl⟩

theorem edited_remove (hg : WellFormed g) (hr : g.remove id = .ok (n, h)) :
    Edited c g (h.reconcile c).1 := by
  have hh := wellFormed_remove hg hr
  obtain ⟨-, rfl⟩ := remove_eq_ok_iff.mp hr
  refine ⟨wellFormed_reconcile hh c, settled_reconcile hh c, ?_⟩
  intro hs
  apply (carries_reconcile hh c).storable
  intro m hm
  rw [nodes_without] at hm
  exact hs m (List.mem_of_mem_filter hm)

theorem edited_addEdge {e : Edge} (hg : WellFormed g) (hs : g.Settled c)
    (ha : g.addEdge e = .ok h) : Edited c g h := by
  have hh := wellFormed_addEdge hg ha
  obtain ⟨-, -, -, -, rfl⟩ := addEdge_eq_ok_iff.mp ha
  exact ⟨hh, hs.of_same hg hh ⟨fun _ => rfl, fun _ => rfl⟩ fun _ _ => rfl, fun h => h⟩

theorem edited_removeEdge {edge : EdgeId} {e : Edge} (hg : WellFormed g) (hs : g.Settled c)
    (hr : g.removeEdge edge = .ok (e, h)) : Edited c g h := by
  have hh := wellFormed_removeEdge hg hr
  obtain ⟨-, rfl⟩ := removeEdge_eq_ok_iff.mp hr
  exact ⟨hh, hs.of_same hg hh ⟨fun _ => rfl, fun _ => rfl⟩ fun _ _ => rfl, fun h => h⟩

end Graph

end LayerGraph
