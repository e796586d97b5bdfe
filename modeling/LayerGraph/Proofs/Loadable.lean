import LayerGraph.Proofs.Backends
import LayerGraph.Proofs.Rebuilt
import LayerGraph.Proofs.StoreOperations

namespace LayerGraph

namespace Content

variable {fmt : RowFormat} {p q : Content} {id : ProjectId}

/-- Ids are used once, and connections lead from block to block. -/
structure Consistent (p : Content) : Prop where
  blocks_nodup : (p.blocks.map (·.id)).Nodup
  edges_nodup : (p.edges.map (·.id)).Nodup
  edge_ends : ∀ e ∈ p.edges, p.hasBlock e.source = true ∧ p.hasBlock e.target = true

/-- The settings and the blocks are read, and no connection leads from a block to itself. -/
structure Legible (p : Content) : Prop where
  training : ∃ t, p.training = .ok t
  blocks : ∀ row ∈ p.blocks, ∃ n, row.toNode = .ok n
  edges : ∀ e ∈ p.edges, e.source ≠ e.target

theorem hasBlock_iff {node : NodeId} : p.hasBlock node = true ↔ ∃ row ∈ p.blocks, row.id = node := by
  simp [hasBlock]

theorem hasEdge_iff {edge : EdgeId} : p.hasEdge edge = true ↔ ∃ e ∈ p.edges, e.id = edge := by
  simp [hasEdge]

theorem consistent_new {name owner : String} {training : Except StorageError Training} :
    Consistent { name, owner, training } where
  blocks_nodup := List.nodup_nil
  edges_nodup := List.nodup_nil
  edge_ends := by simp

theorem consistent_save {g : Graph} (hg : g.WellFormed) (t : Training) (p : Content) :
    (p.save fmt g t).Consistent where
  blocks_nodup := by
    have hids : (p.save fmt g t).blocks.map (·.id) = g.nodes.map (·.id) := by
      simp only [save, List.map_map]
      rfl
    rw [hids]
    exact hg.ids_nodup
  edges_nodup := hg.edges_nodup
  edge_ends e he := by
    have hblock : ∀ node, g.contains node = true → (p.save fmt g t).hasBlock node = true := by
      intro node hnode
      obtain ⟨n, hn, rfl⟩ := Graph.contains_iff.mp hnode
      exact hasBlock_iff.mpr ⟨_, List.mem_map_of_mem hn, rfl⟩
    obtain ⟨-, hs, ht⟩ := hg.edge_ends e he
    exact ⟨hblock _ hs, hblock _ ht⟩

namespace Consistent

/-- More blocks do not hurt the connections. -/
theorem ends_mono (hp : p.Consistent) (hedges : q.edges ⊆ p.edges)
    (hblocks : ∀ node, p.hasBlock node = true → q.hasBlock node = true) :
    ∀ e ∈ q.edges, q.hasBlock e.source = true ∧ q.hasBlock e.target = true := by
  intro e he
  obtain ⟨hs, ht⟩ := hp.edge_ends e (hedges he)
  exact ⟨hblocks _ hs, hblocks _ ht⟩

theorem insertNode {n : Node} (hp : p.Consistent) (hq : p.insertNode fmt n = .ok q) :
    q.Consistent := by
  unfold Content.insertNode at hq
  split at hq
  · cases hq
  · rename_i hnew
    obtain rfl := Except.ok.inj hq
    constructor
    case blocks_nodup =>
      exact nodup_map_concat hp.blocks_nodup fun row hrow hid =>
        hnew (hasBlock_iff.mpr ⟨row, hrow, hid⟩)
    case edges_nodup => exact hp.edges_nodup
    case edge_ends =>
      refine hp.ends_mono (fun _ he => he) ?_
      intro node hnode
      obtain ⟨row, hrow, hid⟩ := hasBlock_iff.mp hnode
      exact hasBlock_iff.mpr ⟨row, List.mem_append_left _ hrow, hid⟩

theorem updateNode {n : Node} (hp : p.Consistent) (hq : p.updateNode fmt id n = .ok q) :
    q.Consistent := by
  unfold Content.updateNode at hq
  split at hq
  · obtain rfl := Except.ok.inj hq
    -- the row that is written has the id of the one that it replaces
    have hid : ∀ row : StoredBlock,
        (if row.id = n.id then fmt.block (.ofNode n) else row).id = row.id := by
      intro row
      split
      · rename_i h
        exact h.symm
      · rfl
    constructor
    case blocks_nodup =>
      simp only [List.map_map, Function.comp_def, hid]
      exact hp.blocks_nodup
    case edges_nodup => exact hp.edges_nodup
    case edge_ends =>
      refine hp.ends_mono (fun _ he => he) ?_
      intro node hnode
      obtain ⟨row, hrow, hr⟩ := hasBlock_iff.mp hnode
      exact hasBlock_iff.mpr ⟨_, List.mem_map_of_mem hrow, (hid row).trans hr⟩
  · cases hq

theorem deleteNode {node : NodeId} (hp : p.Consistent) (hq : p.deleteNode id node = .ok q) :
    q.Consistent := by
  unfold Content.deleteNode at hq
  split at hq
  · obtain rfl := Except.ok.inj hq
    constructor
    case blocks_nodup => exact hp.blocks_nodup.sublist (List.filter_sublist.map _)
    case edges_nodup => exact hp.edges_nodup.sublist (List.filter_sublist.map _)
    case edge_ends =>
      intro e he
      obtain ⟨he, hends⟩ := List.mem_filter.mp he
      have hne : e.source ≠ node ∧ e.target ≠ node := by simpa using hends
      obtain ⟨hs, ht⟩ := hp.edge_ends e he
      have hkept : ∀ i, i ≠ node → p.hasBlock i = true →
          ∃ row ∈ p.blocks.filter (·.id ≠ node), row.id = i := by
        rintro i hi hb
        obtain ⟨row, hrow, rfl⟩ := hasBlock_iff.mp hb
        exact ⟨row, List.mem_filter.mpr ⟨hrow, by simpa using hi⟩, rfl⟩
      exact ⟨hasBlock_iff.mpr (hkept _ hne.1 hs), hasBlock_iff.mpr (hkept _ hne.2 ht)⟩
  · cases hq

theorem insertEdge {e : Edge} (hp : p.Consistent) (hq : p.insertEdge e = .ok q) :
    q.Consistent := by
  unfold Content.insertEdge at hq
  split at hq
  · cases hq
  split at hq
  · cases hq
  split at hq
  · cases hq
  · rename_i hnew hs ht
    obtain rfl := Except.ok.inj hq
    constructor
    case blocks_nodup => exact hp.blocks_nodup
    case edges_nodup =>
      exact nodup_map_concat hp.edges_nodup fun x hx hid => hnew (hasEdge_iff.mpr ⟨x, hx, hid⟩)
    case edge_ends =>
      intro x hx
      rcases List.mem_append.mp hx with hx | hx
      · exact hp.edge_ends x hx
      · obtain rfl := List.mem_singleton.mp hx
        simp only [Bool.not_eq_true, Bool.not_eq_false'] at hs ht
        exact ⟨hs, ht⟩

theorem deleteEdge {edge : EdgeId} (hp : p.Consistent) (hq : p.deleteEdge id edge = .ok q) :
    q.Consistent := by
  unfold Content.deleteEdge at hq
  split at hq
  · obtain rfl := Except.ok.inj hq
    exact ⟨hp.blocks_nodup, hp.edges_nodup.sublist (List.filter_sublist.map _),
      hp.ends_mono List.filter_sublist.subset fun _ h => h⟩
  · cases hq

/-- Rows that fit together make a graph when each block is read and no connection is a loop. -/
theorem load_iff (hp : p.Consistent) : (∃ q, p.load id = .ok q) ↔ p.Legible := by
  simp only [Content.load, bind_eq_ok_iff, pure_eq_ok_iff]
  constructor
  · rintro ⟨q, t, ht, g, hg, -⟩
    obtain ⟨hc, hrows, hedges⟩ := Graph.of_ofRows_eq_ok hg
    refine ⟨⟨t, ht⟩, ?_, ?_⟩
    · intro row hrow
      obtain ⟨n, -, hn⟩ := exists_of_forall₂ hrows hrow
      exact ⟨n, hn⟩
    · intro e he
      exact (hc.wellFormed.edge_ends e (hedges ▸ he)).1
  · rintro ⟨⟨t, ht⟩, hrows, hedges⟩
    obtain ⟨ns, hns⟩ := exists_forall₂ hrows
    have hids : ns.map (·.id) = p.blocks.map (·.id) := by
      rw [← List.forall₂_eq_eq_eq, List.forall₂_map_left_iff, List.forall₂_map_right_iff]
      refine hns.flip.imp ?_
      intro n row hn
      obtain ⟨-, -, -, hid, -⟩ := StoredBlock.toNode_eq_ok_iff.mp hn
      exact hid.symm
    have hends : ∀ node, p.hasBlock node = true → ∃ n ∈ ns, n.id = node := by
      intro node hnode
      rw [← List.mem_map, hids, List.mem_map]
      exact hasBlock_iff.mp hnode
    have hdoc : ∀ e ∈ p.edges, e.source ≠ e.target ∧
        (∃ n ∈ ns, n.id = e.source) ∧ ∃ n ∈ ns, n.id = e.target := by
      intro e he
      obtain ⟨hs, ht⟩ := hp.edge_ends e he
      exact ⟨hedges e he, hends _ hs, hends _ ht⟩
    obtain ⟨g, hg, -⟩ : ∃ g, Graph.ofDocument ⟨ns, p.edges⟩ = .ok g ∧ _ :=
      Graph.exists_ofDocument (hids ▸ hp.blocks_nodup) hp.edges_nodup hdoc
    exact ⟨_, t, ht, g, Graph.ofRows_eq_ok_iff.mpr ⟨ns, hns, hg⟩, rfl⟩

end Consistent

end Content

/-- The block is read from its row. -/
def Node.Legible (n : Node) : Prop := ∃ m, (StoredBlock.ofNode n).toNode = .ok m

/-- Where a block is does not matter. -/
theorem Node.Legible.block {n : Node} (hn : n.Legible) (fmt : RowFormat) :
    ∃ m, (fmt.block (.ofNode n)).toNode = .ok m := by
  obtain ⟨m, hm⟩ := hn
  obtain ⟨data, hdata, hraw, hid, hindex, hlabel, -⟩ := StoredBlock.toNode_eq_ok_iff.mp hm
  exact ⟨{ m with position := n.position.bind fmt.position },
    StoredBlock.toNode_eq_ok_iff.mpr ⟨data, hdata, hraw, hid, hindex, hlabel, rfl⟩⟩

namespace StoreCall

/-- The graph that a call writes. -/
def graph? : StoreCall → Option Graph
  | .save _ g _ => some g
  | _ => none

/-- All that the call writes is read, and it draws no connection from a block to itself. -/
def Legible (fmt : RowFormat) : StoreCall → Prop
  | .create _ _ => ∃ t, fmt.training {} = .ok t
  | .save _ g t => (∃ u, fmt.training t = .ok u) ∧ ∀ n ∈ g.nodes, n.Legible
  | .setTraining _ t => ∃ u, fmt.training t = .ok u
  | .insertNode _ n | .updateNode _ n => n.Legible
  | .insertEdge _ e => e.source ≠ e.target
  | _ => True

/-- What every call keeps, a run keeps. -/
theorem runAll_induction {σ : Type} [ProjectStore σ] {I : σ → Prop} {calls : List StoreCall}
    (hrun : ∀ call ∈ calls, ∀ s, I s → I (call.run s).2) {s : σ} (hs : I s) :
    I (runAll s calls).2 := by
  induction calls generalizing s with
  | nil => exact hs
  | cons call calls ih =>
    exact ih (fun c hc => hrun c (List.mem_cons_of_mem call hc)) (hrun call List.mem_cons_self s hs)

end StoreCall

namespace Contents

variable {fmt : RowFormat} {c d : Contents fmt} {P : Content → Prop}

theorem All.write {r : Except StorageError (Contents fmt)} (hc : c.All P)
    (hr : ∀ d, r = .ok d → d.All P) : (StoreCall.write c r).2.All P := by
  cases r with
  | error e => exact hc
  | ok d => exact hr d rfl

theorem All.write_update {f : Content → Except StorageError Content} {id : ProjectId}
    (hc : c.All P) (hf : ∀ p q, P p → f p = .ok q → P q) :
    (StoreCall.write c (c.update id f)).2.All P :=
  hc.write fun _ hd => hc.update hf hd

end Contents

namespace Content

variable {fmt : RowFormat} {c : Contents fmt} {p q : Content}

theorem consistent_run (hc : c.All Consistent) {call : StoreCall}
    (hg : ∀ g ∈ call.graph?, g.WellFormed) : (call.run c).2.All Consistent := by
  cases call with
  | create name owner => exact hc.create consistent_new
  | save id g t =>
    exact hc.write_update fun p q _ hq => Except.ok.inj hq ▸ consistent_save (hg g rfl) t p
  | delete id => exact hc.write fun _ hd => hc.delete hd
  | insertNode id n => exact hc.write_update fun _ _ hp hq => hp.insertNode hq
  | updateNode id n => exact hc.write_update fun _ _ hp hq => hp.updateNode hq
  | deleteNode id node => exact hc.write_update fun _ _ hp hq => hp.deleteNode hq
  | insertEdge id e => exact hc.write_update fun _ _ hp hq => hp.insertEdge hq
  | deleteEdge id edge => exact hc.write_update fun _ _ hp hq => hp.deleteEdge hq
  | setTraining id t =>
    refine hc.write_update fun p q hp hq => ?_
    obtain rfl := Except.ok.inj hq
    exact ⟨hp.blocks_nodup, hp.edges_nodup, hp.edge_ends⟩
  | _ => exact hc

namespace Legible

variable {id : ProjectId}

theorem insertNode {n : Node} (hp : p.Legible) (hn : n.Legible)
    (hq : p.insertNode fmt n = .ok q) : q.Legible := by
  unfold Content.insertNode at hq
  split at hq
  · cases hq
  · obtain rfl := Except.ok.inj hq
    refine { hp with blocks := ?_ }
    intro row hrow
    rcases List.mem_append.mp hrow with hrow | hrow
    · exact hp.blocks row hrow
    · obtain rfl := List.mem_singleton.mp hrow
      exact hn.block fmt

theorem updateNode {n : Node} (hp : p.Legible) (hn : n.Legible)
    (hq : p.updateNode fmt id n = .ok q) : q.Legible := by
  unfold Content.updateNode at hq
  split at hq
  · obtain rfl := Except.ok.inj hq
    refine { hp with blocks := ?_ }
    intro row hrow
    obtain ⟨old, hold, rfl⟩ := List.mem_map.mp hrow
    split
    · exact hn.block fmt
    · exact hp.blocks old hold
  · cases hq

theorem deleteNode {node : NodeId} (hp : p.Legible) (hq : p.deleteNode id node = .ok q) :
    q.Legible := by
  unfold Content.deleteNode at hq
  split at hq
  · obtain rfl := Except.ok.inj hq
    exact ⟨hp.training, fun row hrow => hp.blocks row (List.mem_of_mem_filter hrow),
      fun e he => hp.edges e (List.mem_of_mem_filter he)⟩
  · cases hq

theorem insertEdge {e : Edge} (hp : p.Legible) (he : e.source ≠ e.target)
    (hq : p.insertEdge e = .ok q) : q.Legible := by
  unfold Content.insertEdge at hq
  split at hq
  · cases hq
  split at hq
  · cases hq
  split at hq
  · cases hq
  · obtain rfl := Except.ok.inj hq
    refine { hp with edges := ?_ }
    intro x hx
    rcases List.mem_append.mp hx with hx | hx
    · exact hp.edges x hx
    · obtain rfl := List.mem_singleton.mp hx
      exact he

theorem deleteEdge {edge : EdgeId} (hp : p.Legible) (hq : p.deleteEdge id edge = .ok q) :
    q.Legible := by
  unfold Content.deleteEdge at hq
  split at hq
  · obtain rfl := Except.ok.inj hq
    exact { hp with edges := fun e he => hp.edges e (List.mem_of_mem_filter he) }
  · cases hq

end Legible

theorem legible_save {g : Graph} {t : Training} (hg : g.WellFormed)
    (ht : ∃ u, fmt.training t = .ok u) (hn : ∀ n ∈ g.nodes, n.Legible) (p : Content) :
    (p.save fmt g t).Legible where
  training := ht
  blocks row hrow := by
    obtain ⟨n, hmem, rfl⟩ := List.mem_map.mp hrow
    exact (hn n hmem).block fmt
  edges e he := (hg.edge_ends e he).1

theorem legible_run (hc : c.All Legible) {call : StoreCall} (hcall : call.Legible fmt)
    (hg : ∀ g ∈ call.graph?, g.WellFormed) : (call.run c).2.All Legible := by
  cases call with
  | create name owner => exact hc.create ⟨hcall, by simp, by simp⟩
  | save id g t =>
    exact hc.write_update fun p q _ hq =>
      Except.ok.inj hq ▸ legible_save (hg g rfl) hcall.1 hcall.2 p
  | delete id => exact hc.write fun _ hd => hc.delete hd
  | insertNode id n => exact hc.write_update fun _ _ hp hq => hp.insertNode hcall hq
  | updateNode id n => exact hc.write_update fun _ _ hp hq => hp.updateNode hcall hq
  | deleteNode id node => exact hc.write_update fun _ _ hp hq => hp.deleteNode hq
  | insertEdge id e => exact hc.write_update fun _ _ hp hq => hp.insertEdge hcall hq
  | deleteEdge id edge => exact hc.write_update fun _ _ hp hq => hp.deleteEdge hq
  | setTraining id t =>
    refine hc.write_update fun p q hp hq => ?_
    obtain rfl := Except.ok.inj hq
    exact { hp with training := hcall }
  | _ => exact hc

end Content

theorem StoredBlock.toNode_ne_nodeNotFound {id : ProjectId} {node : NodeId} (row : StoredBlock) :
    row.toNode ≠ .error (.nodeNotFound id node) := by
  unfold toNode
  cases Decoder.ofText Document.json row.data with
  | error e => simp [bind, Except.bind, Except.mapError]
  | ok data =>
    cases h : Block.ofRaw ⟨row.kind, data⟩ <;>
      simp [h, bind, Except.bind, Except.mapError, pure, Except.pure]

namespace ProjectStore

variable {σ : Type} [ProjectStore σ]

def Listed (s : σ) (id : ProjectId) : Prop :=
  ∃ ps, ProjectStore.list s none = .ok ps ∧ ∃ p ∈ ps, p.id = id

/-- The parts of the project can be read one by one, and no connection is a loop. -/
structure Legible (s : σ) (id : ProjectId) : Prop where
  training : ∃ t, ProjectStore.training s id = .ok t
  nodes : ∀ node e, ProjectStore.getNode s id node = .error e → e = .nodeNotFound id node
  edges : ∀ edge e, ProjectStore.getEdge s id edge = .ok e → e.source ≠ e.target

end ProjectStore

namespace LawfulStore

open ProjectStore (Listed Legible)

variable {σ : Type} [ProjectStore σ] [LawfulStore σ] {s : σ} {id : ProjectId} {p : Content}

theorem contents_run (hs : Valid s) {call : StoreCall} :
    (call.run (contents s)).2 = contents (call.run s).2 :=
  congrArg Prod.snd (run_contents s call hs)

theorem readFrom_of_get {α : Type} {c : Contents (format σ)} {f : Content → Except StorageError α}
    (hp : c.get id = .ok p) : c.readFrom id f = f p := by
  unfold Contents.readFrom
  rw [hp]
  rfl

theorem listed_iff (hs : Valid s) : Listed s id ↔ ∃ p, (contents s).get id = .ok p := by
  unfold Listed
  simp only [list_contents hs, Except.ok.injEq, exists_eq_left']
  constructor
  · rintro ⟨summary, hsummary, rfl⟩
    obtain ⟨⟨i, p⟩, hp, rfl⟩ := List.mem_map.mp hsummary
    have hmem := List.mem_of_mem_filter hp
    cases hl : (contents s).projects.lookup i with
    | none => exact absurd (List.lookup_eq_none_iff.mp hl _ hmem) (by simp)
    | some q => exact ⟨q, Contents.get_eq_ok_iff.mpr hl⟩
  · rintro ⟨p, hp⟩
    exact ⟨_, Contents.mem_list hp, rfl⟩

theorem legible_iff (hs : Valid s) (hp : (contents s).get id = .ok p) (hc : p.Consistent) :
    Legible s id ↔ p.Legible := by
  have htraining : ProjectStore.training s id = p.training :=
    (StoreCall.read_eq (fun _ _ h => StoreReply.training.inj h)
      (run_contents s (.training id) hs)).symm.trans (readFrom_of_get hp)
  have hnode : ∀ node, ProjectStore.getNode s id node = p.getNode id node := fun node =>
    (StoreCall.read_eq (fun _ _ h => StoreReply.node.inj h)
      (run_contents s (.getNode id node) hs)).symm.trans (readFrom_of_get hp)
  have hedge : ∀ edge, ProjectStore.getEdge s id edge = p.getEdge id edge := fun edge =>
    (StoreCall.read_eq (fun _ _ h => StoreReply.edge.inj h)
      (run_contents s (.getEdge id edge) hs)).symm.trans (readFrom_of_get hp)
  constructor
  · rintro ⟨ht, hnodes, hedges⟩
    refine ⟨htraining ▸ ht, ?_, ?_⟩
    · intro row hrow
      have hfind : p.getNode id row.id = row.toNode := by
        unfold Content.getNode
        rw [find?_eq_some_of_nodup hc.blocks_nodup hrow]
      cases hread : row.toNode with
      | ok n => exact ⟨n, rfl⟩
      | error e =>
        -- the block is there, so reading it fails for another reason
        obtain rfl := hnodes row.id e (by rw [hnode, hfind, hread])
        exact absurd hread row.toNode_ne_nodeNotFound
    · intro e he
      apply hedges e.id e
      rw [hedge, Content.getEdge, find?_eq_some_of_nodup hc.edges_nodup he]
  · rintro ⟨ht, hblocks, hedges⟩
    refine ⟨htraining ▸ ht, ?_, ?_⟩
    · intro node e he
      rw [hnode, Content.getNode] at he
      split at he
      · rename_i row hrow
        obtain ⟨n, hn⟩ := hblocks row (List.mem_of_find?_eq_some hrow)
        rw [hn] at he
        cases he
      · exact (Except.error.inj he).symm
    · intro edge e he
      rw [hedge, Content.getEdge] at he
      split at he
      · rename_i x hx
        obtain rfl := Except.ok.inj he
        exact hedges x (List.mem_of_find?_eq_some hx)
      · cases he

theorem loads_iff (hs : Valid s) (hc : (contents s).All Content.Consistent) (hl : Listed s id) :
    (∃ q, ProjectStore.load s id = .ok q) ↔ Legible s id := by
  obtain ⟨p, hp⟩ := (listed_iff hs).mp hl
  have hload : ProjectStore.load s id = p.load id :=
    (load_contents hs id).symm.trans (readFrom_of_get hp)
  rw [hload, (hc.get hp).load_iff, legible_iff hs hp (hc.get hp)]

/--
Calls are made on a store without projects, and they save graphs that operations built. Then a
project that is listed can be loaded just when its settings and its blocks can be read one by one
and no connection leads from a block to itself. This is so when no call writes anything that cannot
be read or draws such a connection.
-/
theorem loads_after_iff (hs : Valid s) (hempty : (contents s).projects = [])
    {calls : List StoreCall} (hg : ∀ call ∈ calls, ∀ g ∈ call.graph?, g.Reachable) :
    let t := (StoreCall.runAll s calls).2
    (∀ id, Listed t id → ((∃ q, ProjectStore.load t id = .ok q) ↔ Legible t id)) ∧
    ((∀ call ∈ calls, call.Legible (format σ)) →
      ∀ id, Listed t id → ∃ q, ProjectStore.load t id = .ok q) := by
  intro t
  have hnone : ∀ P : Content → Prop, (contents s).All P := by
    intro P p hp
    rw [hempty] at hp
    cases hp
  obtain ⟨ht, hc⟩ : Valid t ∧ (contents t).All Content.Consistent := by
    refine StoreCall.runAll_induction (I := fun s => Valid s ∧ (contents s).All _) ?_ ⟨hs, hnone _⟩
    rintro call hcall s ⟨hs, hc⟩
    refine ⟨valid_run s call hs, ?_⟩
    rw [← contents_run hs]
    exact Content.consistent_run hc fun g hgc => (hg call hcall g hgc).wellFormed
  refine ⟨fun id hl => loads_iff ht hc hl, ?_⟩
  intro hcalls id hl
  obtain ⟨-, hlegible⟩ : Valid t ∧ (contents t).All Content.Legible := by
    refine StoreCall.runAll_induction (I := fun s => Valid s ∧ (contents s).All _) ?_ ⟨hs, hnone _⟩
    rintro call hcall s ⟨hs, hc⟩
    refine ⟨valid_run s call hs, ?_⟩
    rw [← contents_run hs]
    exact Content.legible_run hc (hcalls call hcall) fun g hgc => (hg call hcall g hgc).wellFormed
  obtain ⟨p, hp⟩ := (listed_iff ht).mp hl
  exact (loads_iff ht hc hl).mpr ((legible_iff ht hp (hc.get hp)).mpr (hlegible.get hp))

/-- Each call is accepted, and the connection is a loop. -/
def selfLoopCalls : List StoreCall :=
  [.create "p" "", .insertNode ⟨1⟩ (.new ⟨"a"⟩ 0 .start), .insertEdge ⟨1⟩ ⟨⟨"e"⟩, ⟨"a"⟩, ⟨"a"⟩⟩]

theorem loads_after_iff_selfLoop :
    let memory := StoreCall.runAll ({} : MemoryStore) selfLoopCalls
    let tables := StoreCall.runAll ({} : TableStore) selfLoopCalls
    (memory.1 = [.ok (.created ⟨1⟩), .ok .done, .ok .done] ∧ Listed memory.2 ⟨1⟩ ∧
      ¬ ∃ q, ProjectStore.load memory.2 ⟨1⟩ = .ok q) ∧
    (tables.1 = [.ok (.created ⟨1⟩), .ok .done, .ok .done] ∧ Listed tables.2 ⟨1⟩ ∧
      ¬ ∃ q, ProjectStore.load tables.2 ⟨1⟩ = .ok q) := by
  have hg : ∀ call ∈ selfLoopCalls, ∀ g ∈ call.graph?, g.Reachable := by
    simp [selfLoopCalls, StoreCall.graph?]
  have hloop : ¬ (⟨"a"⟩ : NodeId) ≠ ⟨"a"⟩ := fun h => h rfl
  intro memory tables
  refine ⟨⟨by decide +kernel, ?_⟩, by decide +kernel, ?_⟩
  · have hl : Listed memory.2 ⟨1⟩ := ⟨_, rfl, by decide +kernel⟩
    refine ⟨hl, fun hload => hloop ?_⟩
    exact (((loads_after_iff MemoryStore.valid_empty rfl hg).1 ⟨1⟩ hl).mp hload).edges ⟨"e"⟩ _ rfl
  · have hl : Listed tables.2 ⟨1⟩ := ⟨_, rfl, by decide +kernel⟩
    refine ⟨hl, fun hload => hloop ?_⟩
    exact (((loads_after_iff TableStore.valid_empty rfl hg).1 ⟨1⟩ hl).mp hload).edges ⟨"e"⟩ _ rfl

end LawfulStore

end LayerGraph
