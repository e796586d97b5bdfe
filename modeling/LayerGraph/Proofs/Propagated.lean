import LayerGraph.Proofs.LoadedBack
import LayerGraph.Proofs.Reported

namespace LayerGraph

/-- A store that loads graphs as operations build them, in whatever state it is. -/
class LoadsReachable (σ : Type) [ProjectStore σ] : Prop where
  reachable_of_load {store : σ} {id : ProjectId} {p : Project}
    (h : ProjectStore.load store id = .ok p) : p.graph.Reachable

namespace Graph

variable {g h : Graph}

theorem Reachable.run (hg : g.Reachable) (op : GraphOperation) (hr : op.run g = .ok h) :
    h.Reachable := by
  obtain ⟨ops, rfl⟩ := hg
  refine ⟨ops ++ [op], ?_⟩
  rw [List.foldl_append, List.foldl_cons, List.foldl_nil, GraphOperation.apply, hr]

theorem reachable_foldlM {α ε : Type} {f : Graph → α → Except ε Graph}
    (hf : ∀ g a h, g.Reachable → f g a = .ok h → h.Reachable) {l : List α} (hg : g.Reachable)
    (hl : l.foldlM f g = .ok h) : h.Reachable := by
  induction l generalizing g with
  | nil => exact Except.ok.inj hl ▸ hg
  | cons a l ih =>
    obtain ⟨k, hk, hrest⟩ := foldlM_cons_eq_ok_iff.mp hl
    exact ih (hf g a k hg hk) hrest

/-- Whatever is in the rows of a project. -/
theorem reachable_toGraph {rows : GraphRows} (hr : rows.toGraph = .ok g) : g.Reachable := by
  obtain ⟨h, hblocks, hedges⟩ := bind_eq_ok_iff.mp hr
  have hempty : Graph.empty.Reachable := ⟨[], rfl⟩
  have hh : h.Reachable := by
    refine reachable_foldlM ?_ hempty hblocks
    intro g row k hg hk
    obtain ⟨n, -, hadd⟩ := addBlock_eq_ok_iff.mp hk
    exact hg.run (.add n) hadd
  refine reachable_foldlM ?_ hh hedges
  intro g row k hg hk
  have hadd : g.addEdge row.edge = .ok k := mapError_eq_ok_iff.mp hk
  exact hg.run (.addEdge row.edge) hadd

end Graph

instance : LoadsReachable MemoryStore where
  reachable_of_load h := by
    obtain ⟨row, -, h⟩ := bind_eq_ok_iff.mp h
    obtain ⟨g, hg, h⟩ := bind_eq_ok_iff.mp h
    obtain rfl := pure_eq_ok_iff.mp h
    exact Graph.reachable_toGraph hg

instance : LoadsReachable TableStore where
  reachable_of_load h := by
    obtain ⟨row, -, h⟩ := bind_eq_ok_iff.mp h
    obtain ⟨training, -, h⟩ := bind_eq_ok_iff.mp h
    obtain ⟨g, hg, h⟩ := bind_eq_ok_iff.mp h
    obtain rfl := pure_eq_ok_iff.mp h
    exact Graph.reachable_toGraph hg

namespace ProjectService

/-- The service works with a shape, under which all sizes of the active graph follow. -/
structure Propagated {σ : Type} (c : ShapeConfig) (s : ProjectService σ) : Prop where
  shape_eq : s.shape = c
  wellFormed : s.project.graph.WellFormed
  settled : s.project.graph.Settled c

/-- The store has no part in it. -/
theorem Propagated.written {σ : Type} {c : ShapeConfig} {s : ProjectService σ}
    (hs : Propagated c s) (q : Except StorageError σ) : Propagated c (s.written q).2 := by
  cases q with
  | ok store => exact ⟨hs.shape_eq, hs.wellFormed, hs.settled⟩
  | error f => exact hs

theorem propagated_withGraph {σ : Type} {s : ProjectService σ} {g : Graph}
    (hg : Graph.Edited s.shape s.project.graph g) : Propagated s.shape (s.withGraph g) where
  shape_eq := rfl
  wellFormed := hg.wellFormed
  settled := hg.settled

variable {σ : Type} [ProjectStore σ] {s : ProjectService σ} {r : Request} {c : ShapeConfig}
  {p : Except ApiError Unit × ProjectService σ}

theorem propagated_of_reconciles (hg : s.project.graph.WellFormed) (hp : Reconciles s p) :
    Propagated s.shape p.2 := by
  have hs := propagated_withGraph (Graph.edited_reconcile hg s.shape)
  cases hp with
  | settled => exact hs
  | adjusted => exact hs.written _

variable [LoadsReachable σ]

theorem Propagated.step (hs : Propagated c s) (hp : Step s r p) : Propagated c p.2 := by
  obtain rfl := hs.shape_eq
  have hg := hs.wellFormed
  cases hp with
  | failed => exact hs
  | read => exact hs
  | created => exact ⟨rfl, hg, hs.settled⟩
  | deleted => exact ⟨rfl, hg, hs.settled⟩
  | trained => exact ⟨rfl, hg, hs.settled⟩
  | @loaded _ project _ hl hrec =>
    exact propagated_of_reconciles (s := { s with project })
      (LoadsReachable.reachable_of_load hl).wellFormed hrec
  | reconciled hrec => exact propagated_of_reconciles hg hrec
  | saved _ hedited => exact (propagated_withGraph hedited).written _
  | @moved _ node change _ _ _ =>
    obtain ⟨hmoved, -⟩ := (Graph.Edited.refl hg hs.settled).mapNode
      (f := ({ · with position := change.position })) (fun _ => rfl) (fun _ => rfl) node
    exact (propagated_withGraph hmoved).written _
  | @connected _ _ _ _ store ha _ =>
    exact (propagated_withGraph (Graph.edited_addEdge hg hs.settled ha)).written (.ok store)
  | @disconnected _ _ _ _ store hr _ =>
    exact (propagated_withGraph (Graph.edited_removeEdge hg hs.settled hr)).written (.ok store)

theorem Propagated.after (hs : Propagated c s) (rs : List Request) : Propagated c (s.after rs) := by
  induction rs generalizing s with
  | nil => exact hs
  | cons r rs ih => exact ih (hs.step (step_run hs.wellFormed r))

/-- The graph is loaded as operations build it, and reconciled before any request is made. -/
theorem propagated_openStore {store : σ} (ho : openStore store c = .ok s) : Propagated c s := by
  unfold openStore at ho
  obtain ⟨⟨id, store'⟩, -, ho⟩ := bind_eq_ok_iff.mp ho
  obtain ⟨project, hload, ho⟩ := bind_eq_ok_iff.mp ho
  have hreachable := LoadsReachable.reachable_of_load (mapError_eq_ok_iff.mp hload)
  have hs := propagated_of_reconciles (s := { store := store', shape := c, project })
    hreachable.wellFormed (reconciles_reconcileActive _)
  obtain ⟨_, -, ho⟩ := bind_eq_ok_iff.mp ho
  rw [← pure_eq_ok_iff.mp ho]
  exact hs

/--
The service opens on a store, and requests are made, some of which may fail. Then there is nothing
to adjust in the active graph, and nothing is reported of it that adjusting would mend.
-/
theorem settled_after_openStore {store : σ} {shape : ShapeConfig}
    (ho : openStore store shape = .ok s) (rs : List Request) :
    let t := s.after rs
    t.shape = shape ∧
    t.project.graph.reconcile shape = (t.project.graph, []) ∧
    ∀ x ∈ t.project.graph.validate shape, x.mend? = none := by
  intro t
  have ht : Propagated shape t := (propagated_openStore ho).after rs
  exact ⟨ht.shape_eq, ht.settled, (Graph.settled_iff_validate ht.wellFormed shape).mp ht.settled⟩

/-- Rows of two convolutions that do not fit. -/
def misfitted : MemoryStore :=
  [StoreCall.create "misfitted" "",
   .insertNode ⟨1⟩ (.new ⟨"a"⟩ 0 (.convolutional ⟨3, 32, 3, 1⟩)),
   .insertNode ⟨1⟩ (.new ⟨"b"⟩ 1 (.convolutional ⟨8, 64, 3, 1⟩))].foldl
    (fun store call => (call.run store).2) {}

/-- The first edit fails, as the size follows from the other block, and so does the insertion. -/
def edits : List Request :=
  [.editNode ⟨1⟩ ⟨"b"⟩ ⟨some "sizeIn", some (.int 5), none⟩,
   .editNode ⟨1⟩ ⟨"a"⟩ ⟨some "sizeOut", some (.int 16), none⟩,
   .insertBlock ⟨1⟩ ⟨"inputBlock", some ⟨"a"⟩, none, none⟩]

theorem settled_after_openStore_misfitted :
    ∃ s : ProjectService MemoryStore, openStore misfitted {} = .ok s ∧
      s.project.graph.slotValue? ⟨"b"⟩ .sizeIn = some 32 ∧
      (s.after edits).project.graph.slotValue? ⟨"b"⟩ .sizeIn = some 16 ∧
      ∀ x ∈ (s.after edits).project.graph.validate {}, x.mend? = none := by
  have hsizes : (openStore misfitted {}).toOption.map (fun s =>
      (s.project.graph.slotValue? ⟨"b"⟩ .sizeIn,
        (s.after edits).project.graph.slotValue? ⟨"b"⟩ .sizeIn)) = some (some 32, some 16) := by
    decide +kernel
  cases ho : openStore misfitted {} with
  | error e =>
    rw [ho] at hsizes
    cases hsizes
  | ok s =>
    rw [ho] at hsizes
    obtain ⟨hopened, hedited⟩ := Prod.mk.inj (Option.some.inj hsizes)
    exact ⟨s, rfl, hopened, hedited, (settled_after_openStore ho edits).2.2⟩

end ProjectService

end LayerGraph
