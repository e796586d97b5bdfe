import LayerGraph.Proofs.Backends
import LayerGraph.Proofs.Synced

namespace LayerGraph

/-- What is in the rows of a project from which it was not read, but to which it was written. -/
structure Content.KeepsWritten (fmt : RowFormat) (p : Content) (q : Project) : Prop where
  training : p.training = fmt.training q.training → fmt.training q.training = .ok q.training
  blocks : List.Forall₂ (fun row n => row = fmt.block (.ofNode n) → n.Kept fmt) p.blocks
    q.graph.nodes

/-- Rows keep the project, whichever of them it is written to. -/
structure Project.Kept (fmt : RowFormat) (q : Project) : Prop where
  training : fmt.training q.training = .ok q.training
  nodes : ∀ n ∈ q.graph.nodes, n.Kept fmt

/-- The same to an editor: all but where the graph has its slots, and how its families stand. -/
structure Project.Alike (p q : Project) : Prop where
  name : p.name = q.name
  owner : p.owner = q.owner
  training : p.training = q.training
  document : p.graph.toDocument = q.graph.toDocument

namespace Content

variable {fmt : RowFormat} {p : Content} {q : Project}

theorem Holds.forall₂_toNode_iff (h : p.Holds fmt q) (hs : q.graph.Storable) :
    List.Forall₂ (fun row n => row.toNode = .ok n) p.blocks q.graph.nodes ↔
      List.Forall₂ (fun row n => row = fmt.block (.ofNode n) → n.Kept fmt) p.blocks
        q.graph.nodes := by
  have hrows := forall₂_and_right h.blocks hs
  constructor
  · intro hread
    refine List.Forall₂.mp ?_ hrows hread
    rintro row n ⟨hn, -⟩ hrow rfl
    exact (toNode_block_ofNode_iff hn).mp hrow
  · intro hkept
    refine List.Forall₂.mp ?_ hrows hkept
    rintro row n ⟨hn, hrow⟩ hk
    -- a row that the block was read from needs nothing
    rcases hrow with hrow | rfl
    · exact hrow
    · exact (toNode_block_ofNode_iff hn).mpr (hk rfl)

/-- A content of a project loads as one alike just when it keeps what was written to it. -/
theorem Holds.load_iff {id : ProjectId} (h : p.Holds fmt q) (hg : q.graph.WellFormed)
    (hs : q.graph.Storable) :
    (∃ q', p.load id = .ok q' ∧ q'.Alike q) ↔ p.KeepsWritten fmt q := by
  constructor
  · rintro ⟨q', hq', hname, howner, htraining, hdocument⟩
    obtain ⟨-, -, -, ht, -, hrows, -⟩ := load_eq_ok hq'
    have hnodes : q'.graph.nodes = q.graph.nodes := congrArg GraphDocument.nodes hdocument
    constructor
    · intro hfmt
      rw [← hfmt, ht, htraining]
    · rw [← h.forall₂_toNode_iff hs, ← hnodes]
      exact hrows
  · rintro ⟨htraining, hblocks⟩
    -- settings were read as they are, or written and kept
    have ht : p.training = .ok q.training := by
      rcases h.training with ht | ht
      · exact ht
      · rw [ht, htraining ht]
    obtain ⟨g, hg', -, hdocument⟩ :=
      Graph.exists_ofRows hg ((h.forall₂_toNode_iff hs).mpr hblocks)
    refine ⟨⟨id, p.name, p.owner, g, q.training⟩, ?_, h.name, h.owner, rfl, hdocument⟩
    unfold load
    rw [ht, h.edges, hg']
    rfl

theorem Holds.keepsWritten_of_kept (h : p.Holds fmt q) (hq : q.Kept fmt) : p.KeepsWritten fmt q where
  training _ := hq.training
  blocks := (forall₂_and_right h.blocks hq.nodes).imp fun _ _ hn _ => hn.1

/-- When all is written as the project is, no row is exempt. -/
theorem keepsWritten_save_iff :
    (p.save fmt q.graph q.training).KeepsWritten fmt q ↔ q.Kept fmt := by
  have hblocks : List.Forall₂ (fun row n => row = fmt.block (.ofNode n) → n.Kept fmt)
      (p.save fmt q.graph q.training).blocks q.graph.nodes ↔ ∀ n ∈ q.graph.nodes, n.Kept fmt := by
    unfold save
    simp only [List.forall₂_map_left_iff, List.forall₂_same, true_imp_iff]
  constructor
  · rintro ⟨htraining, hrows⟩
    exact ⟨htraining rfl, hblocks.mp hrows⟩
  · rintro ⟨htraining, hnodes⟩
    exact ⟨fun _ => htraining, hblocks.mpr hnodes⟩

end Content

namespace ProjectService

open LawfulStore

variable {σ : Type} [ProjectStore σ] [LawfulStore σ] {s : ProjectService σ} {store : σ}
  {shape : ShapeConfig}

/-- The service after requests, some of which may have failed. -/
def after (s : ProjectService σ) (rs : List Request) : ProjectService σ :=
  rs.foldl (fun s r => (r.run s).2) s

theorem valid_firstProject {id : ProjectId} {store' : σ} (hv : Valid store)
    (h : firstProject store = .ok (id, store')) : Valid store' := by
  unfold firstProject at h
  obtain ⟨ps, -, h⟩ := bind_eq_ok_iff.mp h
  cases ps with
  | cons first ps =>
    obtain ⟨-, rfl⟩ := Prod.mk.inj (pure_eq_ok_iff.mp h)
    exact hv
  | nil =>
    have hrun := valid_run store (.create "default" "") hv
    simp only [StoreCall.run] at hrun
    rwa [show ProjectStore.create store "default" "" = .ok (id, store') from h] at hrun

/-- The service opens on a project that it has just loaded. -/
theorem synced_openStore (hv : Valid store) (ho : openStore store shape = .ok s) : Synced s := by
  unfold openStore at ho
  obtain ⟨⟨id, store'⟩, hfirst, ho⟩ := bind_eq_ok_iff.mp ho
  obtain ⟨project, hload, ho⟩ := bind_eq_ok_iff.mp ho
  have hv' := valid_firstProject hv (mapError_eq_ok_iff.mp hfirst)
  obtain ⟨-, -, hstored⟩ := stored_of_load (s := { store := store', shape, project }) hv'
    (mapError_eq_ok_iff.mp hload)
  obtain ⟨-, hsynced, -⟩ := hstored.reconciles (reconciles_reconcileActive _)
  obtain ⟨_, -, ho⟩ := bind_eq_ok_iff.mp ho
  rw [← pure_eq_ok_iff.mp ho]
  exact hsynced

theorem Synced.after (hs : Synced s) (rs : List Request) : Synced (s.after rs) := by
  induction rs generalizing s with
  | nil => exact hs
  | cons r rs ih => exact ih (hs.follows (step_run hs.wellFormed r)).synced

/-- Loading the active project gives one alike. -/
def LoadsBack (s : ProjectService σ) : Prop :=
  ∃ p, ProjectStore.load s.store s.project.id = .ok p ∧ p.Alike s.project

/-- The content of the active project keeps what was written to it. -/
def KeepsWritten (s : ProjectService σ) : Prop :=
  ∃ p, (contents s.store).get s.project.id = .ok p ∧ p.KeepsWritten (format σ) s.project

theorem Stored.loadsBack_iff (hs : Stored s) : LoadsBack s ↔ KeepsWritten s := by
  obtain ⟨p, hget, hp⟩ := hs.held
  have hload : ProjectStore.load s.store s.project.id = p.load s.project.id := by
    rw [← load_contents hs.valid]
    unfold Contents.readFrom
    rw [hget]
    rfl
  unfold LoadsBack KeepsWritten
  rw [hload, hp.load_iff hs.wellFormed hs.storable]
  constructor
  · exact fun h => ⟨p, hget, h⟩
  · rintro ⟨p', hget', h⟩
    obtain rfl := Except.ok.inj (hget.symm.trans hget')
    exact h

theorem Stored.loadsBack_of_kept (hs : Stored s) (hk : s.project.Kept (format σ)) :
    LoadsBack s := by
  rw [hs.loadsBack_iff]
  obtain ⟨p, hget, hp⟩ := hs.held
  exact ⟨p, hget, hp.keepsWritten_of_kept hk⟩

theorem Stored.loadsBack_iff_kept (hs : Stored s) (hw : Written s) :
    LoadsBack s ↔ s.project.Kept (format σ) := by
  obtain ⟨p, hget, hp⟩ := hw
  rw [hs.loadsBack_iff, ← Content.keepsWritten_save_iff (p := p), hp]
  constructor
  · rintro ⟨p', hget', h⟩
    obtain rfl := Except.ok.inj (hget.symm.trans hget')
    exact h
  · exact fun h => ⟨p, hget, h⟩

theorem Stored.kept_of_loadsBack {node : NodeId} (hs : Stored s) (hw : WrittenAt s node)
    (hl : LoadsBack s) : ∀ n ∈ s.project.graph.nodes, n.id = node → n.Kept (format σ) := by
  obtain ⟨p, hget, hrows⟩ := hw
  obtain ⟨p', hget', hkept⟩ := hs.loadsBack_iff.mp hl
  obtain rfl := Except.ok.inj (hget.symm.trans hget')
  have hboth := List.Forall₂.mp (fun row n hk hrow hid => hk (hrow hid)) hkept.blocks hrows
  exact of_forall₂ hboth fun _ _ h => h

theorem Stored.listed (hs : Stored s) :
    ∃ ps, ProjectStore.list s.store none = .ok ps ∧ s.project.summary ∈ ps := by
  obtain ⟨p, hget, hp⟩ := hs.held
  refine ⟨_, list_contents hs.valid none, ?_⟩
  have hmem := Contents.mem_list hget
  rwa [hp.name, hp.owner] at hmem

/--
The service opens on a store, and requests are made, some of which may fail. Then the active project
is stored; loading it gives back what is in memory just when its rows keep what was written to them,
and always when rows keep all of the project. After a request that saves the project, and succeeds,
there is no other way; nor for the block of an edit. A request leaves the rows of all other projects
as they are, except one that it creates or deletes.
-/
theorem loadsBack_after (hv : Valid store) (ho : openStore store shape = .ok s)
    (rs : List Request) :
    let t := s.after rs
    (∃ ps, ProjectStore.list t.store none = .ok ps ∧ t.project.summary ∈ ps) ∧
    (LoadsBack t ↔ KeepsWritten t) ∧
    (t.project.Kept (format σ) → LoadsBack t) ∧
    ∀ r : Request, let (reply, u) := r.run t
      (reply = .ok () → r.Saves → (LoadsBack u ↔ u.project.Kept (format σ))) ∧
      (reply = .ok () → ∀ id node change, r = .editNode id node change → LoadsBack u →
        ∀ n ∈ u.project.graph.nodes, n.id = node → n.Kept (format σ)) ∧
      ∀ j, j ≠ t.project.id → j ≠ u.project.id → Leaves t u r j := by
  intro t
  have ht : Synced t := (synced_openStore hv ho).after rs
  refine ⟨ht.listed, ht.loadsBack_iff, ht.loadsBack_of_kept, ?_⟩
  intro r
  have hr := ht.follows (step_run ht.wellFormed r)
  refine ⟨?_, ?_, hr.leaves⟩
  · exact fun hok hsaves => hr.synced.loadsBack_iff_kept (hr.saved hok hsaves)
  · intro hok id node change he hl
    exact hr.synced.kept_of_loadsBack (hr.edited hok id node change he) hl

deriving instance DecidableEq for ProjectService

/-- The service on an empty store in tables. -/
def openedTables : ProjectService TableStore where
  store := (TableStore.create {} "default" "").2
  shape := {}
  project := ⟨⟨1⟩, "default", "", .empty, {}⟩

/-- A block whose place has a negative zero. -/
def insertSignedZero : Request :=
  .insertBlock ⟨1⟩ ⟨"startBlock", some ⟨"a"⟩, some ⟨-0.0, 1⟩, none⟩

theorem loadsBack_after_signedZero :
    Valid ({} : TableStore) ∧ openStore ({} : TableStore) {} = .ok openedTables ∧
      ¬ LoadsBack (openedTables.after [insertSignedZero]) := by
  have ho : openStore ({} : TableStore) {} = .ok openedTables := by decide +kernel
  have hok : (insertSignedZero.run openedTables).1 = .ok () := by decide +kernel
  have hlost : ¬ ∀ n ∈ (insertSignedZero.run openedTables).2.project.graph.nodes,
      n.position.bind TableStore.columnPosition = n.position := by decide +kernel
  have hrun := (loadsBack_after TableStore.valid_empty ho []).2.2.2 insertSignedZero
  refine ⟨TableStore.valid_empty, ho, ?_⟩
  intro h
  exact hlost fun n hn => ((hrun.1 hok trivial).mp h).nodes n hn |>.1

end ProjectService

end LayerGraph
