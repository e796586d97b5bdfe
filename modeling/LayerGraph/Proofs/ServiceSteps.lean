import LayerGraph.ProjectService
import LayerGraph.Proofs.Edits

namespace LayerGraph

inductive Request where
  | create (name owner : String)
  | list (owner : Option String)
  | delete (id : ProjectId)
  | load (id : ProjectId)
  | graph (id : ProjectId)
  | node (id : ProjectId) (node : NodeId)
  | check (id : ProjectId)
  | insertBlock (id : ProjectId) (new : NewBlock)
  | editNode (id : ProjectId) (node : NodeId) (change : NodeChange)
  | deleteNode (id : ProjectId) (node : NodeId)
  | addEdge (id : ProjectId) (new : NewEdge)
  | deleteEdge (id : ProjectId) (edge : EdgeId)
  | reconcile (id : ProjectId)
  | training (id : ProjectId)
  | setTraining (id : ProjectId) (training : Training)
  | compile (id : ProjectId)
  | compileForTraining (id : ProjectId)

namespace ProjectService

variable {σ α β : Type} {s t : ProjectService σ}

/-- What a request gives, and the service behind it. -/
def serve (s : ProjectService σ) (x : ServiceM σ α) : Except ApiError α × ProjectService σ :=
  x.run.run s

def withGraph (s : ProjectService σ) (graph : Graph) : ProjectService σ :=
  { s with project := { s.project with graph } }

/-- The service behind a write, which may have been refused. -/
def written (s : ProjectService σ) :
    Except StorageError σ → Except ApiError Unit × ProjectService σ
  | .ok store => (.ok (), { s with store })
  | .error e => (.error (.storage e), s)

theorem serve_bind (s : ProjectService σ) (x : ServiceM σ α) (f : α → ServiceM σ β) :
    s.serve (x >>= f) = match s.serve x with
      | (.ok a, t) => t.serve (f a)
      | (.error e, t) => (.error e, t) := by
  unfold serve
  rw [ExceptT.run_bind, StateT.run_bind]
  obtain ⟨r, t⟩ := x.run.run s
  cases r <;> rfl

theorem serve_bind_of_ok {x : ServiceM σ α} {a : α} (f : α → ServiceM σ β)
    (h : s.serve x = (.ok a, t)) : s.serve (x >>= f) = t.serve (f a) := by
  rw [serve_bind, h]

theorem serve_bind_of_error {x : ServiceM σ α} {e : ApiError} (f : α → ServiceM σ β)
    (h : s.serve x = (.error e, t)) : s.serve (x >>= f) = (.error e, t) := by
  rw [serve_bind, h]

theorem serve_map (s : ProjectService σ) (k : α → β) (x : ServiceM σ α) :
    s.serve (k <$> x) = ((s.serve x).1.map k, (s.serve x).2) := by
  rw [map_eq_pure_bind, serve_bind]
  obtain ⟨r, t⟩ := s.serve x
  cases r <;> rfl

/-- A request whose value is of no account. -/
def ended (p : Except ApiError α × ProjectService σ) : Except ApiError Unit × ProjectService σ :=
  (p.1.map fun _ => (), p.2)

theorem serve_discard (s : ProjectService σ) (x : ServiceM σ α) :
    s.serve (Functor.discard x) = ended (s.serve x) := by
  unfold Functor.discard
  rw [map_const, Function.comp_apply, serve_map]
  rfl

theorem serve_get (s : ProjectService σ) :
    s.serve (get : ServiceM σ (ProjectService σ)) = (.ok s, s) := rfl

theorem serve_modify (s : ProjectService σ) (k : ProjectService σ → ProjectService σ) :
    s.serve (modify k : ServiceM σ Unit) = (.ok (), k s) := rfl

theorem serve_orFail {ε : Type} (s : ProjectService σ) (k : ε → ApiError) (r : Except ε α) :
    s.serve (orFail k r) = (r.mapError k, s) := by
  cases r <;> rfl

theorem serve_inGraph (s : ProjectService σ) (r : Except GraphError α) :
    s.serve (inGraph r) = (r.mapError .graph, s) := serve_orFail s _ r

theorem serve_inStore (s : ProjectService σ) (r : Except StorageError α) :
    s.serve (inStore r) = (r.mapError .storage, s) := serve_orFail s _ r

theorem serve_activeGraph (s : ProjectService σ) :
    s.serve activeGraph = (.ok s.project.graph, s) := rfl

theorem serve_setGraph (s : ProjectService σ) (graph : Graph) :
    s.serve (setGraph graph) = (.ok (), s.withGraph graph) := rfl

theorem serve_requireActive (s : ProjectService σ) (id : ProjectId) :
    s.serve (requireActive id) =
      if id = s.project.id then (.ok (), s) else (.error (.notLoaded id s.project.id), s) := by
  unfold requireActive
  rw [serve_bind, serve_get]
  by_cases hid : id = s.project.id
  · simp only [hid, ne_eq, not_true_eq_false, if_false, if_true]
    rfl
  · simp only [ne_eq, hid, not_false_eq_true, if_true, if_false]
    rfl

theorem serve_active {id : ProjectId} (hid : id = s.project.id) (f : Unit → ServiceM σ α) :
    s.serve (requireActive id >>= f) = s.serve (f ()) := by
  apply serve_bind_of_ok
  rw [serve_requireActive, if_pos hid]

theorem serve_editOf (s : ProjectService σ) (change : NodeChange) :
    s.serve (editOf change) = match change.param, change.value with
      | some param, some value => (.ok (some (param, value)), s)
      | some param, none => (.error (.missingValue param), s)
      | none, some _ => (.error .missingParam, s)
      | none, none =>
        if change.position.isNone then (.error .nothingToChange, s) else (.ok none, s) := by
  unfold editOf
  cases change.param with
  | some param => cases change.value <;> rfl
  | none =>
    cases change.value with
    | some value => rfl
    | none => cases change.position <;> rfl

theorem serve_write (s : ProjectService σ) (f : σ → Except StorageError σ) :
    s.serve (write f) = s.written (f s.store) := by
  unfold write
  rw [serve_bind, serve_get]
  simp only [serve_bind, serve_inStore]
  cases f s.store <;> rfl

/-- The service is the same behind it. -/
def Rests (x : ServiceM σ α) : Prop := ∀ s : ProjectService σ, (s.serve x).2 = s

theorem Rests.bind {x : ServiceM σ α} {f : α → ServiceM σ β} (hx : Rests x)
    (hf : ∀ a, Rests (f a)) : Rests (x >>= f) := by
  intro s
  have h := hx s
  rw [serve_bind]
  generalize s.serve x = p at h ⊢
  obtain ⟨r, t⟩ := p
  obtain rfl : t = s := h
  cases r with
  | ok a => exact hf a t
  | error e => rfl

theorem Rests.pure (a : α) : Rests (Pure.pure a : ServiceM σ α) := fun _ => rfl

theorem Rests.orFail {ε : Type} (k : ε → ApiError) (r : Except ε α) :
    Rests (ProjectService.orFail k r : ServiceM σ α) := by
  intro s
  rw [serve_orFail]

theorem Rests.get : Rests (MonadState.get : ServiceM σ (ProjectService σ)) := fun _ => rfl

theorem Rests.requireActive (id : ProjectId) :
    Rests (ProjectService.requireActive id : ServiceM σ Unit) := by
  intro s
  rw [serve_requireActive]
  split <;> rfl

theorem Rests.activeGraph : Rests (ProjectService.activeGraph : ServiceM σ Graph) := fun _ => rfl

theorem rests_compile (id : ProjectId) :
    Rests (ProjectService.compile id : ServiceM σ Compilation) :=
  (Rests.requireActive id).bind fun _ => Rests.get.bind fun _ => Rests.orFail _ _

variable [ProjectStore σ]

/-- Saves the active project. -/
def saved (s : ProjectService σ) : Except ApiError Unit × ProjectService σ :=
  s.written (ProjectStore.save s.store s.project.id s.project.graph s.project.training)

theorem serve_persist (s : ProjectService σ) : s.serve persist = s.saved := by
  unfold persist
  rw [serve_bind, serve_get]
  simp only [serve_write]
  rfl

theorem serve_reconcileActive (s : ProjectService σ) :
    s.serve reconcileActive =
      if (s.project.graph.reconcile s.shape).2 = [] then
        (.ok [], s.withGraph (s.project.graph.reconcile s.shape).1)
      else
        ((s.withGraph (s.project.graph.reconcile s.shape).1).saved.1.map fun _ =>
            (s.project.graph.reconcile s.shape).2,
          (s.withGraph (s.project.graph.reconcile s.shape).1).saved.2) := by
  unfold reconcileActive
  simp only [serve_bind, serve_activeGraph, serve_get, serve_setGraph]
  cases (s.project.graph.reconcile s.shape).2 with
  | nil => rfl
  | cons a as =>
    simp only [List.isEmpty_cons, Bool.not_false, if_true, reduceCtorEq, if_false]
    rw [serve_bind, serve_persist]
    generalize (s.withGraph (s.project.graph.reconcile s.shape).1).saved = r
    obtain ⟨r, t⟩ := r
    cases r <;> rfl

end ProjectService

namespace Request

variable {σ : Type} [ProjectStore σ]

def perform : Request → ServiceM σ Unit
  | .create name owner => Functor.discard (ProjectService.create name owner)
  | .list owner => Functor.discard (ProjectService.list owner)
  | .delete id => ProjectService.delete id
  | .load id => Functor.discard (ProjectService.load id)
  | .graph id => Functor.discard (ProjectService.graph id)
  | .node id n => Functor.discard (ProjectService.node id n)
  | .check id => Functor.discard (ProjectService.check id)
  | .insertBlock id new => Functor.discard (ProjectService.insertBlock id new)
  | .editNode id n change => Functor.discard (ProjectService.editNode id n change)
  | .deleteNode id n => Functor.discard (ProjectService.deleteNode id n)
  | .addEdge id new => Functor.discard (ProjectService.addEdge id new)
  | .deleteEdge id edge => Functor.discard (ProjectService.deleteEdge id edge)
  | .reconcile id => Functor.discard (ProjectService.reconcile id)
  | .training id => Functor.discard (ProjectService.training id)
  | .setTraining id t => ProjectService.setTraining id t
  | .compile id => Functor.discard (ProjectService.compile id)
  | .compileForTraining id => Functor.discard (ProjectService.compileForTraining id)

/-- Whether the request succeeds, and the service behind it. -/
def run (r : Request) (s : ProjectService σ) : Except ApiError Unit × ProjectService σ :=
  s.serve r.perform

/-- Requests that save the whole project when they succeed. -/
def Saves : Request → Prop
  | .insertBlock _ _ | .deleteNode _ _ => True
  | .editNode _ _ change => change.param.isSome
  | _ => False

/-- Requests that only read. -/
def Reads : Request → Prop
  | .list _ | .graph _ | .node _ _ | .check _ | .training _ | .compile _
  | .compileForTraining _ => True
  | _ => False

end Request

open ProjectService

variable {σ : Type} [ProjectStore σ]

/-- What reconciling the active graph can do. -/
inductive Reconciles (s : ProjectService σ) : Except ApiError Unit × ProjectService σ → Prop where
  | settled (h : (s.project.graph.reconcile s.shape).2 = []) :
    Reconciles s (.ok (), s.withGraph (s.project.graph.reconcile s.shape).1)
  | adjusted : Reconciles s (s.withGraph (s.project.graph.reconcile s.shape).1).saved

/-- What a request can do, and whether it succeeds with that. -/
inductive Step (s : ProjectService σ) : Request → Except ApiError Unit × ProjectService σ → Prop
    where
  | failed {r : Request} {e : ApiError} : Step s r (.error e, s)
  | read {r : Request} (hr : r.Reads) : Step s r (.ok (), s)
  | created {name owner : String} {id : ProjectId} {store : σ}
    (h : ProjectStore.create s.store name owner = .ok (id, store)) :
    Step s (.create name owner) (.ok (), { s with store })
  | deleted {id : ProjectId} {store : σ} (hid : id ≠ s.project.id)
    (h : ProjectStore.delete s.store id = .ok store) :
    Step s (.delete id) (.ok (), { s with store })
  | loaded {id : ProjectId} {project : Project} {p : Except ApiError Unit × ProjectService σ}
    (h : ProjectStore.load s.store id = .ok project) (hp : Reconciles { s with project } p) :
    Step s (.load id) p
  | reconciled {id : ProjectId} {p : Except ApiError Unit × ProjectService σ}
    (hp : Reconciles s p) : Step s (.reconcile id) p
  | saved {r : Request} {g : Graph} (hr : r.Saves)
    (hg : Graph.Edited s.shape s.project.graph g) : Step s r (s.withGraph g).saved
  | moved {id : ProjectId} {node : NodeId} {change : NodeChange} {n : Node}
    (hchange : change.param = none) (hn : s.project.graph.node? node = some n) :
    Step s (.editNode id node change)
      ((s.withGraph (s.project.graph.mapNode node ({ · with position := change.position }))).written
        (ProjectStore.updateNode s.store s.project.id { n with position := change.position }))
  | connected {id : ProjectId} {new : NewEdge} {e : Edge} {g : Graph} {store : σ}
    (ha : s.project.graph.addEdge e = .ok g)
    (h : ProjectStore.insertEdge s.store s.project.id e = .ok store) :
    Step s (.addEdge id new) (.ok (), { s.withGraph g with store })
  | disconnected {id : ProjectId} {edge : EdgeId} {e : Edge} {g : Graph} {store : σ}
    (hr : s.project.graph.removeEdge edge = .ok (e, g))
    (h : ProjectStore.deleteEdge s.store s.project.id edge = .ok store) :
    Step s (.deleteEdge id edge) (.ok (), { s.withGraph g with store })
  | trained {id : ProjectId} {training : Training} {store : σ}
    (h : ProjectStore.setTraining s.store s.project.id training = .ok store) :
    Step s (.setTraining id training)
      (.ok (), { s with store, project := { s.project with training } })

namespace ProjectService

variable {α β : Type} {s : ProjectService σ} {id : ProjectId} {g : Graph} {node : NodeId}

theorem step_of_not_active {r : Request} (hid : id ≠ s.project.id)
    (f : Unit → ServiceM σ α) : Step s r (ended (s.serve (requireActive id >>= f))) := by
  have h : s.serve (requireActive id) = (.error (.notLoaded id s.project.id), s) := by
    rw [serve_requireActive, if_neg hid]
  rw [serve_bind_of_error f h]
  exact .failed

/-- A block that is in the graph is looked up, and the project saved. -/
theorem step_saved {r : Request} (hr : r.Saves) (hg : Graph.Edited s.shape s.project.graph g)
    (hc : g.contains node = true) (k : Node → β) :
    Step s r (ended ((s.withGraph g).serve (do
      let n ← inGraph ((← activeGraph).get node)
      persist
      return k n))) := by
  obtain ⟨n, hn⟩ := Option.isSome_iff_exists.mp hc
  have hget : (s.withGraph g).project.graph.get node = .ok n := Graph.get_eq_ok_iff.mpr hn
  have hstep : Step s r (s.withGraph g).saved := .saved hr hg
  simp only [serve_bind, serve_activeGraph, serve_inGraph, serve_persist, hget, Except.mapError]
  generalize (s.withGraph g).saved = p at hstep ⊢
  obtain ⟨r, t⟩ := p
  cases r <;> exact hstep

/-- A block is put where it is wanted, if it is, before the project is saved. -/
theorem step_placed {r : Request} (hr : r.Saves) (hg : Graph.Edited s.shape s.project.graph g)
    (hc : g.contains node = true) (position : Option Position) (k : Node → β) :
    Step s r (ended ((s.withGraph g).serve
      (if position.isSome = true then do
        setGraph (← inGraph ((← activeGraph).setPosition node position))
        let n ← inGraph ((← activeGraph).get node)
        persist
        return k n
      else do
        let n ← inGraph ((← activeGraph).get node)
        persist
        return k n))) := by
  split
  · have hp : (s.withGraph g).project.graph.setPosition node position =
        .ok (g.mapNode node ({ · with position })) :=
      Graph.setPosition_eq_ok_iff.mpr ⟨hc, rfl⟩
    obtain ⟨hg', hc'⟩ := hg.mapNode (f := ({ · with position })) (fun _ => rfl) (fun _ => rfl) node
    have hstep := step_saved hr hg' (by rw [hc', hc]) k
    rw [serve_bind, serve_activeGraph]
    simp only
    rw [serve_bind, serve_inGraph, hp]
    exact hstep
  · exact step_saved hr hg hc k

theorem step_insertBlock (hg : Graph.WellFormed s.project.graph) (id : ProjectId)
    (new : NewBlock) : Step s (.insertBlock id new) (ended (s.serve (insertBlock id new))) := by
  unfold insertBlock
  by_cases hid : id = s.project.id
  · rw [serve_active hid]
    cases hk : Kind.ofName? new.kind with
    | none => exact .failed
    | some kind =>
      simp only
      cases hi : s.project.graph.insert kind new.id s.shape with
      | error e =>
        simp only [serve_bind, serve_activeGraph, serve_get, serve_inGraph, hi]
        exact .failed
      | ok x =>
        obtain ⟨node, g⟩ := x
        obtain ⟨hg₁, hc⟩ := Graph.edited_insert hg hi
        simp only [serve_bind, serve_activeGraph, serve_get, serve_inGraph, hi, Except.mapError,
          serve_setGraph]
        cases hl : new.label with
        | none =>
          exact step_placed (r := .insertBlock id new) trivial hg₁ hc new.position fun n => n
        | some label =>
          have hp : (s.withGraph g).project.graph.setLabel node label =
              .ok (g.mapNode node ({ · with label })) :=
            Graph.setLabel_eq_ok_iff.mpr ⟨hc, rfl⟩
          obtain ⟨hg₂, hc'⟩ :=
            hg₁.mapNode (f := ({ · with label })) (fun _ => rfl) (fun _ => rfl) node
          have hstep := step_placed (r := .insertBlock id new) trivial hg₂ (by rw [hc', hc])
            new.position fun n => n
          simp only
          rw [serve_bind, serve_activeGraph]
          simp only
          rw [serve_bind, serve_inGraph, hp]
          exact hstep
  · exact step_of_not_active hid _

/-- A move alone is written to the row of the block. -/
theorem step_moved {n : Node} {change : NodeChange}
    (hn : s.project.graph.node? node = some n) (hparam : change.param = none) :
    Step s (.editNode s.project.id node change) (ended (s.serve (do
      setGraph (← inGraph ((← activeGraph).setPosition node change.position))
      let changed ← inGraph ((← activeGraph).get node)
      write (ProjectStore.updateNode · s.project.id changed)
      return (changed, (none : Option EditOutcome))))) := by
  have hc : s.project.graph.contains node = true := by
    unfold Graph.contains
    rw [hn]
    rfl
  -- named, so that the graph is not opened before the reply is known
  obtain ⟨g, hg'⟩ :
      ∃ g, g = s.project.graph.mapNode node ({ · with position := change.position }) := ⟨_, rfl⟩
  have hp : s.project.graph.setPosition node change.position = .ok g :=
    Graph.setPosition_eq_ok_iff.mpr ⟨hc, hg'⟩
  have hget : (s.withGraph g).project.graph.get node =
      .ok { n with position := change.position } := by
    change g.get node = _
    rw [Graph.get_eq_ok_iff, hg', Graph.mapNode_eq_mapNodes, Graph.node?_mapNodes, hn]
    · simp [Graph.node?_id hn]
    · intro m
      split <;> rfl
  have hstep : Step s (.editNode s.project.id node change) ((s.withGraph g).written
      (ProjectStore.updateNode (s.withGraph g).store s.project.id
        { n with position := change.position })) := hg' ▸ .moved hparam hn
  simp only [serve_bind, serve_activeGraph, serve_inGraph, hp, Except.mapError, serve_setGraph,
    hget, serve_write]
  generalize ProjectService.written _ _ = p at hstep ⊢
  obtain ⟨r, t⟩ := p
  cases r <;> exact hstep

theorem step_editNode (hg : Graph.WellFormed s.project.graph) (id : ProjectId) (node : NodeId)
    (change : NodeChange) :
    Step s (.editNode id node change) (ended (s.serve (editNode id node change))) := by
  unfold editNode
  by_cases hid : id = s.project.id
  · subst hid
    rw [serve_active rfl]
    cases hn : s.project.graph.node? node with
    | none =>
      have hget : s.project.graph.get node = .error (.nodeNotFound node) := by
        unfold Graph.get
        rw [hn]
      simp only [serve_bind, serve_activeGraph, serve_inGraph, hget, Except.mapError]
      exact .failed
    | some n =>
      have hget : s.project.graph.get node = .ok n := Graph.get_eq_ok_iff.mpr hn
      simp only [serve_bind, serve_activeGraph, serve_inGraph, hget, Except.mapError, serve_editOf]
      cases hparam : change.param with
      | some param =>
        cases change.value with
        | none => exact .failed
        | some value =>
          simp only [serve_bind, serve_activeGraph, serve_get, serve_inGraph]
          cases he : s.project.graph.edit node param value s.shape with
          | error e => exact .failed
          | ok x =>
            obtain ⟨o, g⟩ := x
            obtain ⟨hg', hc'⟩ := Graph.edited_edit hg he
            have hc : g.contains node = true := by
              rw [hc', Graph.contains, hn]
              rfl
            have hr : (Request.editNode s.project.id node change).Saves := by
              simp [Request.Saves, hparam]
            exact step_placed hr hg' hc change.position fun n => (n, some o)
      | none =>
        cases change.value with
        | some value => exact .failed
        | none =>
          cases hp : change.position with
          | none => exact .failed
          | some position =>
            have hstep := step_moved hn hparam
            rw [hp] at hstep
            exact hstep
  · exact step_of_not_active hid _

theorem step_deleteNode (hg : Graph.WellFormed s.project.graph) (id : ProjectId) (node : NodeId) :
    Step s (.deleteNode id node) (ended (s.serve (deleteNode id node))) := by
  unfold deleteNode
  by_cases hid : id = s.project.id
  · rw [serve_active hid]
    simp only [serve_bind, serve_activeGraph, serve_inGraph]
    cases hr : s.project.graph.remove node with
    | error e => exact .failed
    | ok x =>
      obtain ⟨n, g⟩ := x
      have hstep : Step s (.deleteNode id node) (s.withGraph (g.reconcile s.shape).1).saved :=
        .saved trivial (Graph.edited_remove hg hr)
      simp only [Except.mapError, serve_get, serve_setGraph, serve_persist]
      generalize (s.withGraph (g.reconcile s.shape).1).saved = p at hstep ⊢
      obtain ⟨r, t⟩ := p
      cases r <;> exact hstep
  · exact step_of_not_active hid _

theorem step_addEdge (id : ProjectId) (new : NewEdge) :
    Step s (.addEdge id new) (ended (s.serve (addEdge id new))) := by
  unfold addEdge
  by_cases hid : id = s.project.id
  · subst hid
    rw [serve_active rfl]
    -- whichever id the connection is given
    have hstep : ∀ e : Edge, Step s (.addEdge s.project.id new) (ended (s.serve (do
        let g ← inGraph ((← activeGraph).addEdge e)
        write (ProjectStore.insertEdge · s.project.id e)
        setGraph g
        return e))) := by
      intro e
      simp only [serve_bind, serve_activeGraph, serve_inGraph]
      cases ha : s.project.graph.addEdge e with
      | error e => exact .failed
      | ok g =>
        simp only [Except.mapError, serve_write]
        cases hi : ProjectStore.insertEdge s.store s.project.id e with
        | error e => exact .failed
        | ok store => exact .connected ha hi
    exact hstep _
  · exact step_of_not_active hid _

theorem step_deleteEdge (id : ProjectId) (edge : EdgeId) :
    Step s (.deleteEdge id edge) (ended (s.serve (deleteEdge id edge))) := by
  unfold deleteEdge
  by_cases hid : id = s.project.id
  · subst hid
    rw [serve_active rfl]
    simp only [serve_bind, serve_activeGraph, serve_inGraph]
    cases hr : s.project.graph.removeEdge edge with
    | error e => exact .failed
    | ok x =>
      obtain ⟨e, g⟩ := x
      simp only [Except.mapError, serve_write]
      cases hd : ProjectStore.deleteEdge s.store s.project.id edge with
      | error e => exact .failed
      | ok store => exact .disconnected hr hd
  · exact step_of_not_active hid _

theorem reconciles_reconcileActive (s : ProjectService σ) :
    Reconciles s (ended (s.serve reconcileActive)) := by
  rw [serve_reconcileActive]
  split
  · rename_i h
    exact .settled h
  · have hstep : Reconciles s (s.withGraph (s.project.graph.reconcile s.shape).1).saved := .adjusted
    generalize (s.withGraph (s.project.graph.reconcile s.shape).1).saved = p at hstep ⊢
    obtain ⟨r, t⟩ := p
    cases r <;> exact hstep

theorem step_load (id : ProjectId) : Step s (.load id) (ended (s.serve (load id))) := by
  unfold load
  simp only [serve_bind, serve_get, serve_inStore]
  cases hl : ProjectStore.load s.store id with
  | error e => exact .failed
  | ok project =>
    have hp := reconciles_reconcileActive { s with project }
    simp only [Except.mapError, serve_modify]
    have hstep : Step s (.load id) _ := .loaded hl hp
    generalize serve _ (reconcileActive : ServiceM σ (List Adjustment)) = p at hstep ⊢
    obtain ⟨r, t⟩ := p
    cases r <;> exact hstep

theorem step_create (name owner : String) :
    Step s (.create name owner) (ended (s.serve (create name owner))) := by
  unfold create
  split
  · exact .failed
  · simp only [serve_bind, serve_get, serve_inStore]
    cases hc : ProjectStore.create s.store name owner with
    | error e => exact .failed
    | ok x => exact .created hc

theorem step_delete (id : ProjectId) : Step s (.delete id) (s.serve (delete id)) := by
  unfold delete
  rw [serve_bind, serve_get]
  simp only
  split
  · exact .failed
  · rename_i hid
    rw [serve_write]
    cases hd : ProjectStore.delete s.store id with
    | error e => exact .failed
    | ok store => exact .deleted hid hd

theorem step_setTraining (id : ProjectId) (training : Training) :
    Step s (.setTraining id training) (s.serve (setTraining id training)) := by
  unfold setTraining
  by_cases hid : id = s.project.id
  · subst hid
    rw [serve_active rfl]
    simp only [serve_bind, serve_inGraph]
    cases hv : training.validate with
    | error e => exact .failed
    | ok u =>
      simp only [Except.mapError, serve_write]
      cases hw : ProjectStore.setTraining s.store s.project.id training with
      | error e => exact .failed
      | ok store => exact .trained hw
  · rw [serve_bind, serve_requireActive, if_neg hid]
    exact .failed

theorem step_of_rests {r : Request} (hr : r.Reads) {x : ServiceM σ α} (hx : Rests x) :
    Step s r (ended (s.serve x)) := by
  have h := hx s
  generalize s.serve x = p at h ⊢
  obtain ⟨p, t⟩ := p
  obtain rfl : t = s := h
  cases p with
  | ok a => exact .read hr
  | error e => exact .failed

theorem step_run (hg : Graph.WellFormed s.project.graph) (r : Request) : Step s r (r.run s) := by
  unfold Request.run
  cases r with
  | create name owner => rw [Request.perform, serve_discard]; exact step_create name owner
  | delete id => exact step_delete id
  | load id => rw [Request.perform, serve_discard]; exact step_load id
  | insertBlock id new => rw [Request.perform, serve_discard]; exact step_insertBlock hg id new
  | editNode id node change =>
    rw [Request.perform, serve_discard]
    exact step_editNode hg id node change
  | deleteNode id node => rw [Request.perform, serve_discard]; exact step_deleteNode hg id node
  | addEdge id new => rw [Request.perform, serve_discard]; exact step_addEdge id new
  | deleteEdge id edge => rw [Request.perform, serve_discard]; exact step_deleteEdge id edge
  | setTraining id training => exact step_setTraining id training
  | reconcile id =>
    rw [Request.perform, serve_discard]
    unfold ProjectService.reconcile
    by_cases hid : id = s.project.id
    · rw [serve_active hid]
      exact .reconciled (reconciles_reconcileActive s)
    · exact step_of_not_active hid _
  | list owner =>
    rw [Request.perform, serve_discard]
    exact step_of_rests (r := .list owner) trivial (Rests.get.bind fun s => Rests.orFail _ _)
  | graph id =>
    rw [Request.perform, serve_discard]
    exact step_of_rests (r := .graph id) trivial
      ((Rests.requireActive id).bind fun _ => Rests.get.bind fun s => Rests.pure _)
  | node id node =>
    rw [Request.perform, serve_discard]
    exact step_of_rests (r := .node id node) trivial
      ((Rests.requireActive id).bind fun _ => Rests.activeGraph.bind fun _ => Rests.orFail _ _)
  | check id =>
    rw [Request.perform, serve_discard]
    exact step_of_rests (r := .check id) trivial
      ((Rests.requireActive id).bind fun _ => Rests.activeGraph.bind fun _ =>
        Rests.get.bind fun _ => Rests.pure _)
  | training id =>
    rw [Request.perform, serve_discard]
    exact step_of_rests (r := .training id) trivial
      ((Rests.requireActive id).bind fun _ => Rests.get.bind fun s => Rests.pure _)
  | compile id =>
    rw [Request.perform, serve_discard]
    exact step_of_rests (r := .compile id) trivial (rests_compile id)
  | compileForTraining id =>
    rw [Request.perform, serve_discard]
    apply step_of_rests (r := .compileForTraining id) trivial
    apply (rests_compile id).bind
    intro c
    split
    · exact fun _ => rfl
    · exact Rests.pure _

end ProjectService

end LayerGraph
