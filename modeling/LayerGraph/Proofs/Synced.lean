import LayerGraph.Proofs.Rebuilt
import LayerGraph.Proofs.ServiceSteps
import LayerGraph.Proofs.StoreOperations

namespace LayerGraph

namespace RowFormat

/-- The row is one from which the block was read, or to which it was written. -/
def Holds (fmt : RowFormat) (row : StoredBlock) (n : Node) : Prop :=
  row.toNode = .ok n ∨ row = fmt.block (.ofNode n)

variable {fmt : RowFormat} {row : StoredBlock} {n : Node}

theorem Holds.id_eq (h : fmt.Holds row n) : row.id = n.id := by
  rcases h with h | rfl
  · obtain ⟨_, -, -, hid, -⟩ := StoredBlock.toNode_eq_ok_iff.mp h
    exact hid
  · rfl

end RowFormat

/-- The content is one from which the project was read, or to which it was written. -/
structure Content.Holds (fmt : RowFormat) (p : Content) (q : Project) : Prop where
  name : p.name = q.name
  owner : p.owner = q.owner
  training : p.training = .ok q.training ∨ p.training = fmt.training q.training
  blocks : List.Forall₂ fmt.Holds p.blocks q.graph.nodes
  edges : p.edges = q.graph.edges

namespace Content

variable {fmt : RowFormat} {p p' : Content} {q : Project} {g : Graph} {id : ProjectId}

/-- What loads is a graph that was built of the rows. -/
theorem load_eq_ok (h : p.load id = .ok q) :
    q.id = id ∧ q.name = p.name ∧ q.owner = p.owner ∧ p.training = .ok q.training ∧
      q.graph.Compact ∧ List.Forall₂ (fun row n => row.toNode = .ok n) p.blocks q.graph.nodes ∧
      q.graph.edges = p.edges := by
  obtain ⟨training, htraining, h⟩ := bind_eq_ok_iff.mp h
  obtain ⟨graph, hgraph, h⟩ := bind_eq_ok_iff.mp h
  obtain rfl := pure_eq_ok_iff.mp h
  exact ⟨rfl, rfl, rfl, htraining, Graph.of_ofRows_eq_ok hgraph⟩

theorem holds_save (hname : p.name = q.name) (howner : p.owner = q.owner) :
    (p.save fmt q.graph q.training).Holds fmt q where
  name := hname
  owner := howner
  training := .inr rfl
  blocks := by
    unfold save
    rw [List.forall₂_map_left_iff, List.forall₂_same]
    exact fun n _ => .inr rfl
  edges := rfl

theorem Holds.hasBlock_eq (h : p.Holds fmt q) (node : NodeId) :
    p.hasBlock node = q.graph.contains node := by
  -- rows and nodes have the same ids, one by one
  have hids : p.blocks.map (·.id) = q.graph.nodes.map (·.id) := by
    rw [← List.forall₂_eq_eq_eq, List.forall₂_map_left_iff, List.forall₂_map_right_iff]
    exact h.blocks.imp fun _ _ hrow => hrow.id_eq
  have hany : ∀ {α : Type} (l : List α) (k : α → NodeId),
      l.any (fun a => decide (k a = node)) = (l.map k).any fun i => decide (i = node) := by
    intro α l k
    rw [List.any_map]
    rfl
  rw [hasBlock, hany, hids, ← hany, Graph.contains, Graph.node?, List.isSome_find?]

theorem Holds.insertEdge {e : Edge} (h : p.Holds fmt q) (ha : q.graph.addEdge e = .ok g) :
    ∃ p', p.insertEdge e = .ok p' ∧ p'.Holds fmt { q with graph := g } := by
  obtain ⟨he, -, hs, ht, rfl⟩ := Graph.addEdge_eq_ok_iff.mp ha
  have hedge : p.hasEdge e.id = false := by
    rw [hasEdge, h.edges, List.any_eq_false]
    intro x hx
    have hne : x.id ≠ e.id := by
      intro hid
      apply Graph.edge?_eq_none_iff.mp he
      rw [← hid]
      exact List.mem_map_of_mem hx
    simpa using hne
  refine ⟨{ p with edges := p.edges ++ [e] }, ?_, ?_⟩
  · simp [Content.insertEdge, hedge, h.hasBlock_eq, hs, ht]
  · exact { h with edges := congrArg (· ++ [e]) h.edges }

theorem Holds.deleteEdge {edge : EdgeId} {e : Edge} (h : p.Holds fmt q)
    (hr : q.graph.removeEdge edge = .ok (e, g)) :
    ∃ p', p.deleteEdge id edge = .ok p' ∧ p'.Holds fmt { q with graph := g } := by
  obtain ⟨he, rfl⟩ := Graph.removeEdge_eq_ok_iff.mp hr
  have hedge : p.hasEdge edge = true := by
    rw [hasEdge, h.edges, List.any_eq_true]
    exact ⟨e, List.mem_of_find?_eq_some he, by simpa using List.find?_some he⟩
  refine ⟨{ p with edges := p.edges.filter (·.id ≠ edge) }, ?_, ?_⟩
  · simp only [Content.deleteEdge, hedge, if_true]
  · exact { h with edges := congrArg (List.filter fun x => decide (x.id ≠ edge)) h.edges }

/-- Rows after a move: that of the block is written, and the others stay. -/
theorem forall₂_moved {rows : List StoredBlock} {ns : List Node} {n : Node}
    (h : List.Forall₂ fmt.Holds rows ns) (hn : ∀ m ∈ ns, m.id = n.id → m = n)
    (position : Option Position) :
    List.Forall₂ (fun row m => fmt.Holds row m ∧ (m.id = n.id → row = fmt.block (.ofNode m)))
      (rows.map fun row => if row.id = n.id then fmt.block (.ofNode { n with position }) else row)
      (ns.map fun m => if m.id = n.id then { m with position } else m) := by
  induction h with
  | nil => exact .nil
  | @cons row m rows ns hrow _ ih =>
    rw [List.map_cons, List.map_cons]
    refine .cons ?_ (ih fun m hm => hn m (List.mem_cons_of_mem _ hm))
    by_cases hid : m.id = n.id
    · -- ids are unique, so this is the node itself
      obtain rfl := hn m List.mem_cons_self hid
      rw [if_pos hrow.id_eq, if_pos rfl]
      exact ⟨.inr rfl, fun _ => rfl⟩
    · rw [if_neg (by rw [hrow.id_eq]; exact hid), if_neg hid]
      exact ⟨hrow, fun h => absurd h hid⟩

theorem Holds.move {node : NodeId} {n : Node} (h : p.Holds fmt q) (hg : q.graph.WellFormed)
    (hn : q.graph.node? node = some n) (id : ProjectId) (position : Option Position) :
    ∃ p', p.updateNode fmt id { n with position } = .ok p' ∧
      p'.Holds fmt { q with graph := q.graph.mapNode node ({ · with position }) } ∧
      List.Forall₂ (fun row m => m.id = node → row = fmt.block (.ofNode m)) p'.blocks
        (q.graph.mapNode node ({ · with position })).nodes := by
  obtain rfl := Graph.node?_id hn
  have hblock : p.hasBlock n.id = true := by
    rw [h.hasBlock_eq, Graph.contains, hn]
    rfl
  have hone : ∀ m ∈ q.graph.nodes, m.id = n.id → m = n := by
    intro m hm hmid
    have hm' := (Graph.node?_eq_some_iff hg.ids_nodup).mpr ⟨hm, hmid⟩
    exact Option.some.inj (hm'.symm.trans hn)
  have hrows := forall₂_moved h.blocks hone position
  rw [← Graph.nodes_mapNodes, ← Graph.mapNode_eq_mapNodes] at hrows
  refine ⟨{ p with blocks := p.blocks.map fun row =>
    if row.id = n.id then fmt.block (.ofNode { n with position }) else row }, ?_, ?_, ?_⟩
  · simp only [Content.updateNode, hblock, if_true]
  · exact { h with blocks := hrows.imp fun _ _ h => h.1 }
  · exact hrows.imp fun _ _ h => h.2

end Content

namespace ProjectService

open LawfulStore

variable {σ : Type} [ProjectStore σ] [LawfulStore σ] {s t : ProjectService σ} {g : Graph}
  {r : Request}

/-- The store has the active project, in rows from which it was read or to which it was written. -/
structure Stored (s : ProjectService σ) : Prop where
  valid : Valid s.store
  wellFormed : s.project.graph.WellFormed
  storable : s.project.graph.Storable
  held : ∃ p, (contents s.store).get s.project.id = .ok p ∧ p.Holds (format σ) s.project

structure Synced (s : ProjectService σ) : Prop extends Stored s where
  settled : s.project.graph.Settled s.shape

/-- The content of the active project is what saving it makes of it. -/
def Written (s : ProjectService σ) : Prop :=
  ∃ p, (contents s.store).get s.project.id = .ok p ∧
    p.save (format σ) s.project.graph s.project.training = p

/-- A write to the active project, after which its content is still one of the project. -/
theorem Stored.wrote {p : Content} (hw : Wrote s.store t.project.id p t.store)
    (hp : p.Holds (format σ) t.project) (hg : t.project.graph.WellFormed)
    (hstorable : t.project.graph.Storable) : Stored t where
  valid := hw.beside.valid
  wellFormed := hg
  storable := hstorable
  held := ⟨p, hw.get_eq, hp⟩

theorem Stored.saved (hs : Stored s) (hg : g.WellFormed) (hstorable : g.Storable) :
    ∃ store, (s.withGraph g).saved = (.ok (), { s.withGraph g with store }) ∧
      Stored { s.withGraph g with store } ∧ Written { s.withGraph g with store } ∧
      Beside Valid rows s.store s.project.id store := by
  obtain ⟨p, hget, hp⟩ := hs.held
  obtain ⟨store, hsave, hw⟩ := wrote_save hs.valid hget g s.project.training
  have hholds : (p.save (format σ) g s.project.training).Holds (format σ)
      (s.withGraph g).project :=
    Content.holds_save (q := (s.withGraph g).project) hp.name hp.owner
  refine ⟨store, ?_, Stored.wrote hw hholds hg hstorable, ⟨_, hw.get_eq, rfl⟩, hw.beside⟩
  unfold ProjectService.saved
  change (s.withGraph g).written (ProjectStore.save s.store s.project.id g s.project.training) = _
  rw [hsave]
  rfl

/-- Reconciling the active graph does not fail, and leaves it settled. -/
theorem Stored.reconciles {p : Except ApiError Unit × ProjectService σ} (hs : Stored s)
    (hp : Reconciles s p) : p.1 = .ok () ∧ Synced p.2 ∧ p.2.project.id = s.project.id ∧
      Beside Valid rows s.store s.project.id p.2.store := by
  cases hp with
  | settled h =>
    have hsettled := Graph.settled_of_adjustments_nil hs.wellFormed h
    have hself : s.withGraph (s.project.graph.reconcile s.shape).1 = s := by
      rw [show s.project.graph.reconcile s.shape = (s.project.graph, []) from hsettled]
      rfl
    rw [hself]
    exact ⟨rfl, ⟨hs, hsettled⟩, rfl, ⟨hs.valid, fun _ _ => rfl⟩⟩
  | adjusted =>
    have hedited := Graph.edited_reconcile hs.wellFormed s.shape
    obtain ⟨store, hsaved, hstored, -, hbeside⟩ :=
      hs.saved hedited.wellFormed (hedited.storable hs.storable)
    rw [hsaved]
    exact ⟨rfl, ⟨hstored, hedited.settled⟩, rfl, hbeside⟩

/-- A project that was loaded is in the rows that it was loaded from. -/
theorem stored_of_load {id : ProjectId} {project : Project} (hv : Valid s.store)
    (hl : ProjectStore.load s.store id = .ok project) :
    project.id = id ∧ project.graph.Compact ∧ Stored { s with project } := by
  rw [← load_contents hv] at hl
  obtain ⟨p, hget, hp⟩ := bind_eq_ok_iff.mp hl
  obtain ⟨hid, hname, howner, htraining, hc, hrows, hedges⟩ := Content.load_eq_ok hp
  have hholds : p.Holds (format σ) project := {
    name := hname.symm
    owner := howner.symm
    training := .inl htraining
    blocks := hrows.imp fun _ _ h => .inl h
    edges := hedges.symm }
  refine ⟨hid, hc, hv, hc.wellFormed, ?_, p, ?_, hholds⟩
  · exact of_forall₂ hrows fun _ _ => StoredBlock.storable_of_toNode
  · rw [hid]
    exact hget

/-- The row of the block is what writing the block makes of it. -/
def WrittenAt (s : ProjectService σ) (node : NodeId) : Prop :=
  ∃ p, (contents s.store).get s.project.id = .ok p ∧
    List.Forall₂ (fun row n => n.id = node → row = (format σ).block (.ofNode n)) p.blocks
      s.project.graph.nodes

theorem Written.at (hs : Written s) (node : NodeId) : WrittenAt s node := by
  obtain ⟨p, hget, hp⟩ := hs
  refine ⟨p, hget, ?_⟩
  rw [← hp, Content.save, List.forall₂_map_left_iff, List.forall₂_same]
  exact fun _ _ _ => rfl

/-- What a request does to a project that is stored beside the active one. -/
inductive Leaves (s t : ProjectService σ) (r : Request) (j : ProjectId) : Prop where
  | same (h : rows t.store j = rows s.store j)
  | created (name owner : String) (hr : r = .create name owner)
    (hc : ProjectStore.create s.store name owner = .ok (j, t.store))
    (h : ProjectStore.load s.store j = .error (.projectNotFound j))
  | deleted (hr : r = .delete j) (h : ProjectStore.load t.store j = .error (.projectNotFound j))

/-- What there is after a request. -/
structure Follows (s : ProjectService σ) (r : Request)
    (p : Except ApiError Unit × ProjectService σ) : Prop where
  synced : Synced p.2
  leaves : ∀ j, j ≠ s.project.id → j ≠ p.2.project.id → Leaves s p.2 r j
  saved : p.1 = .ok () → r.Saves → Written p.2
  edited : p.1 = .ok () → ∀ id node change, r = .editNode id node change → WrittenAt p.2 node

theorem leaves_of_beside (hb : Beside Valid rows s.store s.project.id t.store) (j : ProjectId)
    (hj : j ≠ s.project.id) : Leaves s t r j := .same (hb.rows_eq j hj)

theorem load_of_get_eq_error {id : ProjectId} {e : StorageError} (hv : Valid s.store)
    (h : (contents s.store).get id = .error e) : ProjectStore.load s.store id = .error e := by
  rw [← load_contents hv]
  unfold Contents.readFrom
  rw [h]
  rfl

theorem Synced.created {name owner : String} {id : ProjectId} {store : σ} (hs : Synced s)
    (h : ProjectStore.create s.store name owner = .ok (id, store)) :
    Follows s (.create name owner) (.ok (), { s with store }) := by
  have hrun : (StoreCall.create name owner).run s.store = (.ok (.created id), store) := by
    simp only [StoreCall.run, h]
  have hvalid : Valid store := by
    have hv := valid_run s.store (.create name owner) hs.valid
    rwa [hrun] at hv
  have hcontents := create_contents hs.valid h
  obtain ⟨p, hget, hp⟩ := hs.held
  have hget' : (contents store).get s.project.id = .ok p := by
    have hc := Contents.get_create hget name owner
    rwa [hcontents] at hc
  refine ⟨⟨⟨hvalid, hs.wellFormed, hs.storable, p, hget', hp⟩, hs.settled⟩, ?_,
    fun _ hr => hr.elim, by simp⟩
  intro j _ _
  by_cases hj : j = ⟨(contents s.store).nextId⟩
  · -- the new project has a number that no project had
    have hid : id = j := by
      rw [hj]
      exact (congrArg Prod.fst hcontents).symm
    rw [← hid] at hj ⊢
    refine .created name owner rfl h (load_of_get_eq_error hs.valid ?_)
    rw [hj]
    exact get_next _ hs.valid
  · have hrows := rows_run s.store (.create name owner) j hs.valid fun h =>
      hj (Option.some.inj h).symm
    rw [hrun] at hrows
    exact .same hrows

theorem Synced.deleted {id : ProjectId} {store : σ} (hs : Synced s) (hid : id ≠ s.project.id)
    (h : ProjectStore.delete s.store id = .ok store) :
    Follows s (.delete id) (.ok (), { s with store }) := by
  have hd : (contents s.store).delete id = .ok (contents store) := by
    rw [delete_contents hs.valid, h]
    rfl
  have hbeside : Beside Valid rows s.store id store :=
    beside_of_write (k := .delete id) hs.valid rfl rfl h
  obtain ⟨p, hget, hp⟩ := hs.held
  have hget' := Contents.get_delete_of_ne hid.symm hd hget
  refine ⟨⟨⟨hbeside.valid, hs.wellFormed, hs.storable, p, hget', hp⟩, hs.settled⟩, ?_,
    fun _ hr => hr.elim, by simp⟩
  intro j _ _
  by_cases hj : j = id
  · subst hj
    exact .deleted rfl (load_of_get_eq_error (s := { s with store }) hbeside.valid
      (Contents.get_delete_self hd))
  · exact .same (hbeside.rows_eq j hj)

theorem Synced.connected {id : ProjectId} {new : NewEdge} {e : Edge} {store : σ} (hs : Synced s)
    (ha : s.project.graph.addEdge e = .ok g)
    (h : ProjectStore.insertEdge s.store s.project.id e = .ok store) :
    Follows s (.addEdge id new) (.ok (), { s.withGraph g with store }) := by
  obtain ⟨p, hget, hp⟩ := hs.held
  obtain ⟨p', hins, hp'⟩ := hp.insertEdge ha
  obtain ⟨store', hstore, hw⟩ := wrote_insertEdge hs.valid hget hins
  obtain rfl : store' = store := Except.ok.inj (hstore.symm.trans h)
  have hg := Graph.edited_addEdge hs.wellFormed hs.settled ha
  exact ⟨⟨Stored.wrote hw hp' hg.wellFormed (hg.storable hs.storable), hg.settled⟩,
    fun j hj _ => leaves_of_beside hw.beside j hj, fun _ hr => hr.elim, by simp⟩

theorem Synced.disconnected {id : ProjectId} {edge : EdgeId} {e : Edge} {store : σ}
    (hs : Synced s) (hr : s.project.graph.removeEdge edge = .ok (e, g))
    (h : ProjectStore.deleteEdge s.store s.project.id edge = .ok store) :
    Follows s (.deleteEdge id edge) (.ok (), { s.withGraph g with store }) := by
  obtain ⟨p, hget, hp⟩ := hs.held
  obtain ⟨p', hdel, hp'⟩ := hp.deleteEdge hr
  obtain ⟨store', hstore, hw⟩ := wrote_deleteEdge hs.valid hget hdel
  obtain rfl : store' = store := Except.ok.inj (hstore.symm.trans h)
  have hg := Graph.edited_removeEdge hs.wellFormed hs.settled hr
  exact ⟨⟨Stored.wrote hw hp' hg.wellFormed (hg.storable hs.storable), hg.settled⟩,
    fun j hj _ => leaves_of_beside hw.beside j hj, fun _ hr => hr.elim, by simp⟩

theorem Synced.trained {id : ProjectId} {training : Training} {store : σ} (hs : Synced s)
    (h : ProjectStore.setTraining s.store s.project.id training = .ok store) :
    Follows s (.setTraining id training)
      (.ok (), { s with store, project := { s.project with training } }) := by
  obtain ⟨p, hget, hp⟩ := hs.held
  obtain ⟨store', hstore, hw⟩ := wrote_setTraining hs.valid hget training
  obtain rfl : store' = store := Except.ok.inj (hstore.symm.trans h)
  have hp' : Content.Holds (format σ) { p with training := (format σ).training training }
      { s.project with training } := { hp with training := .inr rfl }
  exact ⟨⟨Stored.wrote hw hp' hs.wellFormed hs.storable, hs.settled⟩,
    fun j hj _ => leaves_of_beside hw.beside j hj, fun _ hr => hr.elim, by simp⟩

theorem Synced.moved {id : ProjectId} {node : NodeId} {change : NodeChange} {n : Node}
    (hs : Synced s) (hchange : change.param = none) (hn : s.project.graph.node? node = some n) :
    Follows s (.editNode id node change)
      ((s.withGraph (s.project.graph.mapNode node ({ · with position := change.position }))).written
        (ProjectStore.updateNode s.store s.project.id { n with position := change.position })) := by
  obtain ⟨p, hget, hp⟩ := hs.held
  obtain ⟨p', hup, hp', hrow⟩ := hp.move hs.wellFormed hn s.project.id change.position
  obtain ⟨store, hstore, hw⟩ := wrote_updateNode hs.valid hget hup
  have hmoved : Graph.Edited s.shape s.project.graph
      (s.project.graph.mapNode node ({ · with position := change.position })) :=
    ((Graph.Edited.refl hs.wellFormed hs.settled).mapNode
      (f := ({ · with position := change.position })) (fun _ => rfl) (fun _ => rfl) node).1
  rw [hstore]
  refine ⟨⟨Stored.wrote hw hp' hmoved.wellFormed (hmoved.storable hs.storable), hmoved.settled⟩,
    fun j hj _ => leaves_of_beside hw.beside j hj, ?_, ?_⟩
  · intro _ hr
    rw [Request.Saves, hchange] at hr
    exact absurd hr (by simp)
  · rintro - _ _ _ hr
    obtain ⟨-, rfl, -⟩ := Request.editNode.inj hr
    exact ⟨p', hw.get_eq, hrow⟩

theorem Synced.follows_saved {r : Request} (hs : Synced s)
    (hg : Graph.Edited s.shape s.project.graph g) : Follows s r (s.withGraph g).saved := by
  obtain ⟨store, hsaved, hstored, hwritten, hbeside⟩ :=
    hs.saved hg.wellFormed (hg.storable hs.storable)
  rw [hsaved]
  exact ⟨⟨hstored, hg.settled⟩, fun j hj _ => leaves_of_beside hbeside j hj, fun _ _ => hwritten,
    fun _ _ node _ _ => hwritten.at node⟩

theorem Synced.follows {p : Except ApiError Unit × ProjectService σ} (hs : Synced s)
    (h : Step s r p) : Follows s r p := by
  -- nothing is written: a saving request or an edit has failed then
  have hstays : ∀ reply : Except ApiError Unit, (reply = .ok () → r.Reads) →
      Follows s r (reply, s) := by
    intro reply hr
    refine ⟨hs, fun j _ _ => .same rfl, ?_, ?_⟩
    · intro hok hsaves
      cases r <;> first | exact (hr hok).elim | exact hsaves.elim
    · rintro hok _ _ _ rfl
      exact (hr hok).elim
  cases h with
  | failed => exact hstays _ (by simp)
  | read hr => exact hstays _ fun _ => hr
  | created h => exact hs.created h
  | deleted hid h => exact hs.deleted hid h
  | @loaded id project p h hp =>
    obtain ⟨-, -, hstored⟩ := stored_of_load hs.valid h
    obtain ⟨-, hsynced, hsame, hbeside⟩ := hstored.reconciles hp
    refine ⟨hsynced, ?_, fun _ hr => hr.elim, by simp⟩
    intro j _ hj
    rw [hsame] at hj
    exact .same (hbeside.rows_eq j hj)
  | reconciled hp =>
    obtain ⟨-, hsynced, -, hbeside⟩ := hs.reconciles hp
    exact ⟨hsynced, fun j hj _ => leaves_of_beside hbeside j hj, fun _ hr => hr.elim, by simp⟩
  | saved _ hg => exact hs.follows_saved hg
  | moved hchange hn => exact hs.moved hchange hn
  | connected ha h => exact hs.connected ha h
  | disconnected hr h => exact hs.disconnected hr h
  | trained h => exact hs.trained h

end ProjectService

end LayerGraph
