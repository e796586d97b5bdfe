import LayerGraph.Proofs.LoadedBack

namespace LayerGraph

namespace Graph

variable {g h : Graph} {c : ShapeConfig}

theorem sameFamilies_of_nodes_eq (hnodes : h.nodes = g.nodes)
    (hfamily : ∀ f, h.family f = g.family f) : SameFamilies g h where
  family := hfamily
  members f := by rw [members_eq_of_family_eq hnodes (hfamily f)]

/-- A graph with the nodes and the families of a settled one is settled. -/
theorem Settled.of_nodes_eq (hg : WellFormed g) (hh : WellFormed h) (hnodes : h.nodes = g.nodes)
    (hfamily : ∀ f, h.family f = g.family f) (hs : g.Settled c) : h.Settled c := by
  apply hs.of_same hg hh (sameFamilies_of_nodes_eq hnodes hfamily)
  intro id slot
  unfold slotValue? node?
  rw [hnodes]

end Graph

namespace ProjectService

/-- What an editor is shown of the active project. -/
def view {σ : Type} (s : ProjectService σ) : GraphView where
  project := s.project.id
  document := s.project.graph.toDocument
  neural := s.project.graph.neural
  spatial := s.project.graph.spatial
  revision := s.revision

theorem serve_graph {σ : Type} {s : ProjectService σ} {id : ProjectId} (hid : s.project.id = id) :
    s.serve (graph id) = (.ok s.view, s) := by
  subst hid
  unfold graph
  rw [serve_active rfl]
  rfl

/-- What is shown of a stored project is what is shown of the active one. -/
theorem view_eq_iff {σ : Type} {s : ProjectService σ} {p : Project} (hid : p.id = s.project.id) :
    view { s with project := p } = s.view ↔
      p.graph.toDocument = s.project.graph.toDocument ∧
        p.graph.revision p.training = s.revision ∧
        ∀ f, p.graph.family f = s.project.graph.family f := by
  have hfamilies : (∀ f, p.graph.family f = s.project.graph.family f) ↔
      p.graph.neural = s.project.graph.neural ∧ p.graph.spatial = s.project.graph.spatial := by
    constructor
    · exact fun h => ⟨h .neural, h .spatial⟩
    · rintro ⟨hneural, hspatial⟩ f
      cases f
      · exact hneural
      · exact hspatial
  unfold view
  rw [GraphView.mk.injEq, hfamilies]
  constructor
  · rintro ⟨-, hdocument, hneural, hspatial, hrevision⟩
    exact ⟨hdocument, hrevision, hneural, hspatial⟩
  · rintro ⟨hdocument, hrevision, hneural, hspatial⟩
    exact ⟨hid, hdocument, hneural, hspatial, hrevision⟩

section Serve

variable {σ : Type} [ProjectStore σ] {s : ProjectService σ} {id : ProjectId}

theorem serve_load_of_ok {project : Project} (hl : ProjectStore.load s.store id = .ok project) :
    s.serve (load id) = (({ s with project }.serve reconcileActive).1.map (project.summary, ·),
      ({ s with project }.serve reconcileActive).2) := by
  unfold load
  simp only [serve_bind, serve_get, serve_inStore, hl, Except.mapError, serve_modify]
  generalize { s with project }.serve (reconcileActive : ServiceM σ (List Adjustment)) = p
  obtain ⟨r, t⟩ := p
  cases r <;> rfl

theorem serve_load_of_error {e : StorageError} (hl : ProjectStore.load s.store id = .error e) :
    s.serve (load id) = (.error (.storage e), s) := by
  unfold load
  simp only [serve_bind, serve_get, serve_inStore, hl, Except.mapError]

theorem serve_reconcileActive_of_settled (hs : s.project.graph.Settled s.shape) :
    s.serve reconcileActive = (.ok [], s) := by
  have hself : s.project.graph.reconcile s.shape = (s.project.graph, []) := hs
  rw [serve_reconcileActive, hself, if_pos rfl]
  rfl

/-- Nothing is found to adjust in a settled graph only. -/
theorem settled_of_serve_reconcileActive (hg : s.project.graph.WellFormed)
    (h : (s.serve reconcileActive).1 = .ok []) : s.project.graph.Settled s.shape := by
  apply Graph.settled_of_adjustments_nil hg
  by_contra hne
  rw [serve_reconcileActive, if_neg hne] at h
  generalize (s.withGraph (s.project.graph.reconcile s.shape).1).saved = p at h
  obtain ⟨r, t⟩ := p
  cases r with
  | error e => cases h
  | ok u => exact hne (Except.ok.inj h)

end Serve

open LawfulStore

variable {σ : Type} [ProjectStore σ] [LawfulStore σ] {s : ProjectService σ} {store : σ}
  {shape : ShapeConfig}

/-- Loading the active project adjusts nothing, and an editor is shown the same behind it. -/
def Reloads (s : ProjectService σ) : Prop :=
  ∃ t, s.serve (load s.project.id) = (.ok (s.project.summary, []), t) ∧
    (t.serve (graph s.project.id)).1 = (s.serve (graph s.project.id)).1

/-- The stored project has the document of the active one, and its revision. -/
def Rereads (s : ProjectService σ) : Prop :=
  ∃ p, ProjectStore.load s.store s.project.id = .ok p ∧ p.summary = s.project.summary ∧
    p.graph.toDocument = s.project.graph.toDocument ∧ p.graph.revision p.training = s.revision

theorem Stored.rereads_of_loadsBack (hs : Stored s) (hl : LoadsBack s) : Rereads s := by
  obtain ⟨p, hp, hname, howner, htraining, hdocument⟩ := hl
  obtain ⟨hid, -, -⟩ := stored_of_load hs.valid hp
  refine ⟨p, hp, ?_, hdocument, ?_⟩
  · unfold Project.summary
    rw [hid, hname, howner]
  · unfold revision Graph.revision Graph.revisionBy
    rw [Graph.content_congr hdocument, htraining]

theorem Synced.reloads_iff (hs : Synced s) :
    Reloads s ↔ Rereads s ∧ ∀ f, s.project.graph.InSlotOrder f := by
  constructor
  · rintro ⟨t, ht, hview⟩
    cases hl : ProjectStore.load s.store s.project.id with
    | error e =>
      rw [serve_load_of_error hl] at ht
      cases congrArg Prod.fst ht
    | ok p =>
      obtain ⟨hid, hc, -⟩ := stored_of_load hs.valid hl
      rw [serve_load_of_ok hl] at ht
      obtain ⟨hreply, ht⟩ := Prod.mk.inj ht
      -- the reply has no adjustments, so the loaded graph was settled before
      have hfound : ({ s with project := p }.serve reconcileActive).1 = .ok [] ∧
          p.summary = s.project.summary := by
        cases hr : ({ s with project := p }.serve reconcileActive).1 with
        | error e => simp [hr, Except.map] at hreply
        | ok as => simpa [hr, Except.map, and_comm] using hreply
      have hsettled := settled_of_serve_reconcileActive (s := { s with project := p })
        hc.wellFormed hfound.1
      rw [serve_reconcileActive_of_settled hsettled] at ht
      subst ht
      rw [serve_graph hid, serve_graph rfl] at hview
      obtain ⟨hdocument, hrevision, hfamily⟩ := (view_eq_iff hid).mp (Except.ok.inj hview)
      refine ⟨⟨p, hl, hfound.2, hdocument, hrevision⟩, ?_⟩
      intro f
      have hnodes : p.graph.nodes = s.project.graph.nodes := congrArg GraphDocument.nodes hdocument
      exact (hc.family_eq_iff hs.wellFormed hnodes f).mp (hfamily f)
  · rintro ⟨⟨p, hl, hsummary, hdocument, hrevision⟩, horder⟩
    obtain ⟨hid, hc, -⟩ := stored_of_load hs.valid hl
    have hnodes : p.graph.nodes = s.project.graph.nodes := congrArg GraphDocument.nodes hdocument
    have hfamily : ∀ f, p.graph.family f = s.project.graph.family f := fun f =>
      (hc.family_eq_iff hs.wellFormed hnodes f).mpr (horder f)
    -- same nodes, same families: the loaded graph has nothing to adjust either
    have hsettled : p.graph.Settled s.shape :=
      hs.settled.of_nodes_eq hs.wellFormed hc.wellFormed hnodes hfamily
    have hserve : { s with project := p }.serve reconcileActive = (.ok [], { s with project := p }) :=
      serve_reconcileActive_of_settled hsettled
    refine ⟨{ s with project := p }, ?_, ?_⟩
    · rw [serve_load_of_ok hl, hserve, hsummary]
      rfl
    · rw [serve_graph hid, serve_graph rfl]
      exact congrArg Except.ok ((view_eq_iff hid).mpr ⟨hdocument, hrevision, hfamily⟩)

/--
The service opens on a store, and requests are made, some of which may fail. Loading the active
project again then changes nothing just when it is read back with its document and revision, and its
families stand in the order of the slots where sequence indices are equal.
-/
theorem reloads_after_iff (hv : Valid store) (ho : openStore store shape = .ok s)
    (rs : List Request) :
    let t := s.after rs
    (Reloads t ↔ Rereads t ∧ ∀ f, t.project.graph.InSlotOrder f) ∧
    (LoadsBack t → (Reloads t ↔ ∀ f, t.project.graph.InSlotOrder f)) := by
  intro t
  have ht : Synced t := (synced_openStore hv ho).after rs
  refine ⟨ht.reloads_iff, ?_⟩
  intro hl
  rw [ht.reloads_iff, and_iff_right (ht.rereads_of_loadsBack hl)]

/-- The service on an empty store in memory. -/
def openedMemory : ProjectService MemoryStore where
  store := (MemoryStore.create {} "default" "").2
  shape := {}
  project := ⟨⟨1⟩, "default", "", .empty, {}⟩

/-- The first of two convolutions is put behind the second one, with the same sequence index. -/
def swappedConvolutions : List Request :=
  [.insertBlock ⟨1⟩ ⟨"convolutionalBlock", some ⟨"a"⟩, none, none⟩,
   .insertBlock ⟨1⟩ ⟨"convolutionalBlock", some ⟨"b"⟩, none, none⟩,
   .editNode ⟨1⟩ ⟨"a"⟩ ⟨some "sequenceIndex", some (.int 1), none⟩]

theorem reloads_after_iff_swappedConvolutions :
    Valid ({} : MemoryStore) ∧ openStore ({} : MemoryStore) {} = .ok openedMemory ∧
      ¬ Reloads (openedMemory.after swappedConvolutions) := by
  have ho : openStore ({} : MemoryStore) {} = .ok openedMemory := by decide +kernel
  have hswapped : ¬ (openedMemory.after swappedConvolutions).project.graph.InSlotOrder .spatial := by
    decide +kernel
  refine ⟨MemoryStore.valid_empty, ho, ?_⟩
  intro h
  have hiff := (reloads_after_iff MemoryStore.valid_empty ho swappedConvolutions).1
  exact hswapped ((hiff.mp h).2 .spatial)

end ProjectService

end LayerGraph
