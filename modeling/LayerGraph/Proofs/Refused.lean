import LayerGraph.Proofs.LoadedBack

namespace LayerGraph

/-- Requests that change the active project before they write it. -/
def Request.WritesLast : Request → Prop
  | .insertBlock _ _ | .editNode _ _ _ | .deleteNode _ _ | .reconcile _ | .load _ => True
  | _ => False

theorem Request.Saves.writesLast {r : Request} (hr : r.Saves) : r.WritesLast := by
  cases r <;> trivial

namespace ProjectService

/-- The store does not take the active project as it is, or one of its blocks. -/
inductive Unsaved {σ : Type} [ProjectStore σ] (s : ProjectService σ) (f : StorageError) : Prop where
  | project
    (h : ProjectStore.save s.store s.project.id s.project.graph s.project.training = .error f)
  | block {n : Node} (hn : n ∈ s.project.graph.nodes)
    (h : ProjectStore.updateNode s.store s.project.id n = .error f)

/-- What a request leaves that fails after it has changed the active project, or switched to it. -/
structure Dangling {σ : Type} [ProjectStore σ] (s : ProjectService σ) (r : Request) (e : ApiError)
    (t : ProjectService σ) : Prop where
  writesLast : r.WritesLast
  store_eq : t.store = s.store
  shape_eq : t.shape = s.shape
  project_eq : t.project = { s.project with graph := t.project.graph } ∨
    ∃ id p, r = .load id ∧ ProjectStore.load s.store id = .ok p ∧
      t.project = { p with graph := (p.graph.reconcile s.shape).1 }
  unsaved : ∃ f, e = .storage f ∧ t.Unsaved f

theorem written_fst_eq_error {σ : Type} {s : ProjectService σ} {q : Except StorageError σ}
    {e : ApiError} (h : (s.written q).1 = .error e) :
    ∃ f, q = .error f ∧ e = .storage f ∧ (s.written q).2 = s := by
  cases q with
  | ok store => cases h
  | error f => exact ⟨f, rfl, (Except.error.inj h).symm, rfl⟩

variable {σ : Type} [ProjectStore σ] {s t : ProjectService σ} {r : Request} {e : ApiError}
  {p : Except ApiError Unit × ProjectService σ}

theorem saved_fst_eq_error (he : s.saved.1 = .error e) :
    s.saved.2 = s ∧ ∃ f, e = .storage f ∧ s.Unsaved f := by
  obtain ⟨f, hf, he, hs⟩ := written_fst_eq_error he
  exact ⟨hs, f, he, .project hf⟩

theorem reconciles_fst_eq_error (hp : Reconciles s p) (he : p.1 = .error e) :
    p.2 = s.withGraph (s.project.graph.reconcile s.shape).1 ∧
      ∃ f, e = .storage f ∧ p.2.Unsaved f := by
  cases hp with
  | settled => cases he
  | adjusted =>
    obtain ⟨hs, hf⟩ := saved_fst_eq_error he
    rw [hs]
    exact ⟨rfl, hf⟩

theorem eq_or_dangling_of_step (hp : Step s r p) (he : p.1 = .error e) :
    p.2 = s ∨ Dangling s r e p.2 := by
  cases hp with
  | failed => exact .inl rfl
  | loaded hl hrec =>
    -- what is reconciled is the service with the loaded project
    obtain ⟨hs, hf⟩ := reconciles_fst_eq_error hrec he
    rw [hs] at hf ⊢
    exact .inr ⟨trivial, rfl, rfl, .inr ⟨_, _, rfl, hl, rfl⟩, hf⟩
  | reconciled hrec =>
    obtain ⟨hs, hf⟩ := reconciles_fst_eq_error hrec he
    rw [hs] at hf ⊢
    exact .inr ⟨trivial, rfl, rfl, .inl rfl, hf⟩
  | saved hr =>
    obtain ⟨hs, hf⟩ := saved_fst_eq_error he
    rw [hs]
    exact .inr ⟨hr.writesLast, rfl, rfl, .inl rfl, hf⟩
  | moved _ hn =>
    obtain ⟨f, hf, rfl, hs⟩ := written_fst_eq_error he
    rw [hs]
    exact .inr ⟨trivial, rfl, rfl, .inl rfl, f, rfl, .block (Graph.mem_nodes_mapNode hn) hf⟩
  | _ => cases he

/--
A request that fails leaves all as it was, or the store has refused what is in memory now. Only
requests that change the active project before they write it can come to that.
-/
theorem eq_or_dangling_of_run_eq_error (hg : s.project.graph.WellFormed)
    (h : r.run s = (.error e, t)) : t = s ∨ Dangling s r e t := by
  have hstep := step_run hg r
  rw [h] at hstep
  exact eq_or_dangling_of_step hstep rfl

/-- The service in memory when its project has been deleted underneath it. -/
def orphaned : ProjectService MemoryStore where
  store := { nextId := 2 }
  shape := {}
  project := ⟨⟨1⟩, "default", "", .empty, {}⟩

theorem eq_or_dangling_of_run_eq_error_orphaned :
    let store := (MemoryStore.create {} "default" "").2
    openStore ({} : MemoryStore) {} = .ok { orphaned with store } ∧
    ProjectStore.delete store ⟨1⟩ = .ok orphaned.store ∧
    ∃ t, (Request.insertBlock ⟨1⟩ ⟨"startBlock", some ⟨"a"⟩, none, none⟩).run orphaned =
        (.error (.storage (.projectNotFound ⟨1⟩)), t) ∧
      orphaned.project.graph.nodes.map (·.id) = [] ∧ t.project.graph.nodes.map (·.id) = [⟨"a"⟩] ∧
      t.store = orphaned.store ∧ t.Unsaved (.projectNotFound ⟨1⟩) := by
  intro store
  obtain ⟨r, hr⟩ : ∃ r : Request, r = .insertBlock ⟨1⟩ ⟨"startBlock", some ⟨"a"⟩, none, none⟩ :=
    ⟨_, rfl⟩
  have hrefused : (r.run orphaned).1 = .error (.storage (.projectNotFound ⟨1⟩)) := by
    rw [hr]
    decide +kernel
  have hids : (r.run orphaned).2.project.graph.nodes.map (·.id) = [⟨"a"⟩] := by
    rw [hr]
    decide +kernel
  have hrun : r.run orphaned =
      (.error (.storage (.projectNotFound ⟨1⟩)), (r.run orphaned).2) := by rw [← hrefused]
  rw [← hr]
  rcases eq_or_dangling_of_run_eq_error Graph.wellFormed_empty hrun with heq | hd
  · -- there would be no block
    rw [heq] at hids
    cases hids
  · obtain ⟨f, hf, hunsaved⟩ := hd.unsaved
    obtain rfl := ApiError.storage.inj hf
    exact ⟨by decide +kernel, by decide +kernel, _, hrun, rfl, hids, hd.store_eq, hunsaved⟩

end ProjectService

end LayerGraph
