import LayerGraph.MemoryStore
import LayerGraph.Proofs.Contents

namespace LayerGraph

namespace StoredProject

def content (p : StoredProject) : Content :=
  ⟨p.name, p.owner, .ok p.training, p.blocks, p.edges.map (·.edge)⟩

structure Valid (p : StoredProject) : Prop where
  ordered : StoredEdge.Ordered p.edges
  lt_next : ∀ row ∈ p.edges, row.ordinal < p.nextOrdinal

theorem hasEdge_content (p : StoredProject) (id : EdgeId) : p.content.hasEdge id = p.hasEdge id := by
  unfold Content.hasEdge hasEdge content
  rw [List.any_map]
  rfl

theorem Valid.filter {p : StoredProject} (hp : Valid p) (holds : StoredEdge → Bool)
    (blocks : List StoredBlock) : Valid { p with blocks, edges := p.edges.filter holds } where
  ordered := hp.ordered.sublist List.filter_sublist
  lt_next row hrow := hp.lt_next row (List.mem_of_mem_filter hrow)

theorem Valid.concat {p : StoredProject} (hp : Valid p) (e : Edge) :
    Valid { p with
      edges := p.edges ++ [⟨e, p.nextOrdinal⟩], nextOrdinal := p.nextOrdinal + 1 } where
  ordered := StoredEdge.ordered_concat hp.ordered hp.lt_next e
  lt_next row hrow := by
    rcases List.mem_append.mp hrow with hrow | hrow
    · exact Int.lt_add_one_of_le (Int.le_of_lt (hp.lt_next row hrow))
    · obtain rfl : row = ⟨e, p.nextOrdinal⟩ := by simpa using hrow
      exact Int.lt_succ p.nextOrdinal

end StoredProject

namespace MemoryStore

variable {s : MemoryStore} {id : ProjectId} {p : StoredProject}

/-- Memory keeps what it is given. -/
def format : RowFormat := ⟨some, .ok⟩

theorem block_format (row : StoredBlock) : format.block row = row := by
  unfold RowFormat.block format
  cases h : row.position <;> simp [← h]

def contents (s : MemoryStore) : Contents format :=
  ⟨s.projects.map fun (id, p) => (id, p.content), s.nextId⟩

structure Valid (s : MemoryStore) : Prop where
  projects : ∀ p ∈ s.projects, p.2.Valid
  lt_next : ∀ p ∈ s.projects, p.1.number < s.nextId

def rows (s : MemoryStore) (id : ProjectId) : Option StoredProject := s.projects.lookup id

/-- A write to one project. -/
abbrev Writes (s : MemoryStore) (id : ProjectId) (r : Except StorageError MemoryStore)
    (k : Except StorageError (Contents format)) : Prop :=
  Mirrors contents (Beside Valid rows s id) r k

theorem get_contents (s : MemoryStore) (id : ProjectId) :
    s.contents.get id = (s.get id).map StoredProject.content := by
  unfold Contents.get MemoryStore.get contents
  simp only [Contents.lookup_map]
  cases s.projects.lookup id <;> rfl

theorem contents_put (s : MemoryStore) (id : ProjectId) (p : StoredProject) :
    (s.put id p).contents = s.contents.put id p.content := by
  unfold contents put Contents.put
  simp only [List.map_map]
  congr 1
  apply List.map_congr_left
  intro q _
  by_cases hq : q.1 = id <;> simp [hq]

theorem Valid.get (hs : Valid s) (hp : s.get id = .ok p) : p.Valid := by
  unfold MemoryStore.get at hp
  cases hl : s.projects.lookup id with
  | none => simp [hl] at hp
  | some q =>
    obtain rfl : q = p := by simpa [hl] using hp
    obtain ⟨l₁, l₂, h, -⟩ := List.lookup_eq_some_iff.mp hl
    exact hs.projects (id, q) (by simp [h])

theorem Valid.put (hs : Valid s) (hp : p.Valid) (id : ProjectId) : Valid (s.put id p) := by
  constructor
  · intro q hq
    obtain ⟨r, hr, rfl⟩ := List.mem_map.mp hq
    by_cases hi : r.1 = id
    · simpa [hi] using hp
    · simpa [hi] using hs.projects r hr
  · intro q hq
    obtain ⟨r, hr, rfl⟩ := List.mem_map.mp hq
    have hlt := hs.lt_next r hr
    change _ < s.nextId
    by_cases hi : r.1 = id
    · simpa [hi] using hlt
    · simpa [hi] using hlt

theorem rows_put {j : ProjectId} (hj : j ≠ id) (s : MemoryStore) (p : StoredProject) :
    (s.put id p).rows j = s.rows j := by
  unfold rows put
  rw [Contents.lookup_put]
  simp [hj]

theorem mirrors_put (hs : Valid s) {q : StoredProject} (hq : q.Valid) {c : Content}
    (hc : c = q.content) :
    Writes s id (.ok (s.put id q)) ((Except.ok c).map (s.contents.put id)) := by
  subst hc
  constructor
  · exact congrArg Except.ok (contents_put s id q).symm
  · intro t ht
    obtain rfl : s.put id q = t := Except.ok.inj ht
    exact ⟨hs.put hq id, fun j hj => rows_put hj s q⟩

theorem mirrors_error (s : MemoryStore) (e : StorageError) :
    Writes s id (.error e) ((Except.error e).map (s.contents.put id)) := ⟨rfl, nofun⟩

theorem mirrors_save (hs : Valid s) (g : Graph) (t : Training) :
    Writes s id (s.save id g t)
      (s.contents.update id fun p => .ok (p.save format g t)) := by
  apply Contents.mirrors_update (get_contents s id)
  · intro e he
    simp [save, he, bind, Except.bind]
  · intro p hp
    simp only [save, hp, bind, Except.bind, pure, Except.pure]
    apply mirrors_put hs
    · constructor
      · exact StoredEdge.ordered_numbered 0 g.edges
      · -- the counter starts again behind the connections
        intro row hrow
        have := (StoredEdge.le_of_mem_numbered row hrow).2
        rw [← StoredEdge.length_numbered 0] at this
        simpa [Graph.toRows] using this
    · simp [Content.save, StoredProject.content, Graph.toRows, StoredEdge.map_edge_numbered, block_format]
      rfl

theorem mirrors_insertNode (hs : Valid s) (n : Node) :
    Writes s id (s.insertNode id n) (s.contents.update id (·.insertNode format n)) := by
  apply Contents.mirrors_update (get_contents s id)
  · intro e he
    simp [insertNode, he, bind, Except.bind]
  · intro p hp
    have hv := hs.get hp
    have hb : p.content.hasBlock n.id = p.hasBlock n.id := rfl
    simp only [insertNode, hp, bind, Except.bind, Content.insertNode, hb]
    by_cases h : p.hasBlock n.id
    · simp only [if_pos h]
      exact mirrors_error s _
    · simp only [if_neg h]
      apply mirrors_put hs
      · exact ⟨hv.ordered, hv.lt_next⟩
      · simp only [block_format]
        rfl

theorem mirrors_updateNode (hs : Valid s) (n : Node) :
    Writes s id (s.updateNode id n)
      (s.contents.update id (·.updateNode format id n)) := by
  apply Contents.mirrors_update (get_contents s id)
  · intro e he
    simp [updateNode, he, bind, Except.bind]
  · intro p hp
    have hv := hs.get hp
    have hb : p.content.hasBlock n.id = p.hasBlock n.id := rfl
    simp only [updateNode, hp, bind, Except.bind, Content.updateNode, hb]
    by_cases h : p.hasBlock n.id
    · simp only [h, Bool.not_true, Bool.false_eq_true, if_true, if_false]
      apply mirrors_put hs
      · exact ⟨hv.ordered, hv.lt_next⟩
      · simp only [block_format]
        rfl
    · simp only [h, Bool.not_false, if_true, Bool.false_eq_true, if_false]
      exact mirrors_error s _

theorem mirrors_deleteNode (hs : Valid s) (node : NodeId) :
    Writes s id (s.deleteNode id node)
      (s.contents.update id (·.deleteNode id node)) := by
  apply Contents.mirrors_update (get_contents s id)
  · intro e he
    simp [deleteNode, he, bind, Except.bind]
  · intro p hp
    have hv := hs.get hp
    have hb : p.content.hasBlock node = p.hasBlock node := rfl
    simp only [deleteNode, hp, bind, Except.bind, Content.deleteNode, hb]
    by_cases h : p.hasBlock node
    · simp only [h, Bool.not_true, Bool.false_eq_true, if_true, if_false]
      apply mirrors_put hs (hv.filter _ _)
      simp only [StoredProject.content, List.filter_map]
      rfl
    · simp only [h, Bool.not_false, if_true, Bool.false_eq_true, if_false]
      exact mirrors_error s _

theorem mirrors_insertEdge (hs : Valid s) (e : Edge) :
    Writes s id (s.insertEdge id e) (s.contents.update id (·.insertEdge e)) := by
  apply Contents.mirrors_update (get_contents s id)
  · intro e' he
    simp [insertEdge, he, bind, Except.bind]
  · intro p hp
    have hv := hs.get hp
    have hb : ∀ node, p.content.hasBlock node = p.hasBlock node := fun _ => rfl
    simp only [insertEdge, hp, bind, Except.bind, Content.insertEdge, StoredProject.checkEdge, hb,
      StoredProject.hasEdge_content]
    by_cases h : p.hasEdge e.id
    · simp only [if_pos h]
      exact mirrors_error s _
    simp only [if_neg h]
    by_cases hsource : (!p.hasBlock e.source) = true
    · simp only [if_pos hsource]
      exact mirrors_error s _
    simp only [if_neg hsource]
    by_cases htarget : (!p.hasBlock e.target) = true
    · simp only [if_pos htarget]
      exact mirrors_error s _
    simp only [if_neg htarget]
    apply mirrors_put hs (hv.concat e)
    simp [StoredProject.content]

theorem mirrors_deleteEdge (hs : Valid s) (edge : EdgeId) :
    Writes s id (s.deleteEdge id edge)
      (s.contents.update id (·.deleteEdge id edge)) := by
  apply Contents.mirrors_update (get_contents s id)
  · intro e he
    simp [deleteEdge, he, bind, Except.bind]
  · intro p hp
    have hv := hs.get hp
    simp only [deleteEdge, hp, bind, Except.bind, Content.deleteEdge,
      StoredProject.hasEdge_content]
    by_cases h : p.hasEdge edge
    · simp only [h, Bool.not_true, Bool.false_eq_true, if_true, if_false]
      apply mirrors_put hs (hv.filter _ _)
      simp only [StoredProject.content, List.filter_map]
      rfl
    · simp only [h, Bool.not_false, if_true, Bool.false_eq_true, if_false]
      exact mirrors_error s _

theorem mirrors_setTraining (hs : Valid s) (t : Training) :
    Writes s id (ProjectStore.setTraining s id t)
      (s.contents.update id fun p => .ok { p with training := format.training t }) := by
  apply Contents.mirrors_update (get_contents s id)
  · intro e he
    simp [ProjectStore.setTraining, he, bind, Except.bind]
  · intro p hp
    have hv := hs.get hp
    simp only [ProjectStore.setTraining, hp, bind, Except.bind, pure, Except.pure]
    apply mirrors_put hs
    · exact ⟨hv.ordered, hv.lt_next⟩
    · rfl

theorem mirrors_delete (hs : Valid s) (id : ProjectId) :
    Writes s id (s.delete id) (s.contents.delete id) := by
  unfold delete Contents.delete
  rw [get_contents]
  cases s.get id with
  | error e => exact ⟨rfl, nofun⟩
  | ok p =>
    constructor
    · simp only [bind, Except.bind, pure, Except.pure, Except.map, contents, List.filter_map]
      rfl
    · intro t ht
      obtain rfl : _ = t := Except.ok.inj ht
      constructor
      · constructor
        · intro q hq
          exact hs.projects q (List.mem_of_mem_filter hq)
        · intro q hq
          exact hs.lt_next q (List.mem_of_mem_filter hq)
      · intro j hj
        exact Contents.lookup_filter_ne hj s.projects

theorem list_contents (s : MemoryStore) (owner : Option String) :
    s.contents.list owner = s.list owner := by
  unfold Contents.list list contents
  simp only [List.filter_map, List.map_map]
  rfl

theorem create_contents (s : MemoryStore) (name owner : String) :
    s.contents.create name owner = ((s.create name owner).1, (s.create name owner).2.contents) := by
  unfold Contents.create create contents
  simp [StoredProject.content, format]

theorem valid_create (hs : Valid s) (name owner : String) : Valid (s.create name owner).2 := by
  constructor
  · intro q hq
    rcases List.mem_append.mp hq with hq | hq
    · exact hs.projects q hq
    · obtain rfl : q = _ := List.mem_singleton.mp hq
      exact ⟨List.Pairwise.nil, by simp⟩
  · intro q hq
    rcases List.mem_append.mp hq with hq | hq
    · exact (hs.lt_next q hq).trans (Int.lt_succ _)
    · obtain rfl : q = _ := List.mem_singleton.mp hq
      exact Int.lt_succ _

theorem rows_create (s : MemoryStore) (name owner : String) (hid : some ⟨s.nextId⟩ ≠ some id) :
    rows (s.create name owner).2 id = rows s id := by
  have hn : id ≠ ⟨s.nextId⟩ := fun h => hid (congrArg some h.symm)
  unfold rows create
  rw [List.lookup_append]
  cases s.projects.lookup id <;> simp [hn]

theorem run_contents (hs : Valid s) (call : StoreCall) :
    call.run s.contents = ((call.run s).1, (call.run s).2.contents) ∧ Valid (call.run s).2 ∧
      ∀ id, call.target? s.nextId ≠ some id → rows (call.run s).2 id = rows s id := by
  cases call with
  | create name owner =>
    refine ⟨?_, valid_create hs name owner, fun id => rows_create s name owner⟩
    simp [StoreCall.run, ProjectStore.create, create_contents]
  | load id =>
    apply StoreCall.read_contents _ hs
    apply Contents.readFrom_eq (get_contents s id)
    intro p hp
    have hg := toGraph_eq_ofRows p.blocks (hs.get hp).ordered
    rw [hg]
    rfl
  | save id g t => exact StoreCall.write_contents (mirrors_save hs g t) hs
  | delete id => exact StoreCall.write_contents (mirrors_delete hs id) hs
  | list owner => exact StoreCall.read_contents (congrArg Except.ok (list_contents s owner)) hs
  | insertNode id n => exact StoreCall.write_contents (mirrors_insertNode hs n) hs
  | getNode id node =>
    apply StoreCall.read_contents _ hs
    apply Contents.readFrom_eq (get_contents s id)
    intro p _
    rfl
  | updateNode id n => exact StoreCall.write_contents (mirrors_updateNode hs n) hs
  | deleteNode id node => exact StoreCall.write_contents (mirrors_deleteNode hs node) hs
  | insertEdge id e => exact StoreCall.write_contents (mirrors_insertEdge hs e) hs
  | getEdge id edge =>
    apply StoreCall.read_contents _ hs
    apply Contents.readFrom_eq (get_contents s id)
    intro p _
    simp only [Content.getEdge, StoredProject.content, StoredEdge.find?_map_edge]
    cases p.edges.find? (·.edge.id = edge) <;> rfl
  | deleteEdge id edge => exact StoreCall.write_contents (mirrors_deleteEdge hs edge) hs
  | edgesFrom id node =>
    apply StoreCall.read_contents _ hs
    apply Contents.readFrom_eq (get_contents s id)
    intro p hp
    exact congrArg Except.ok (StoredEdge.map_edge_sorted_filter (hs.get hp).ordered _).symm
  | edgesTo id node =>
    apply StoreCall.read_contents _ hs
    apply Contents.readFrom_eq (get_contents s id)
    intro p hp
    exact congrArg Except.ok (StoredEdge.map_edge_sorted_filter (hs.get hp).ordered _).symm
  | nodesOfKind id kind =>
    apply StoreCall.read_contents _ hs
    apply Contents.readFrom_eq (get_contents s id)
    intro p _
    rfl
  | training id =>
    apply StoreCall.read_contents _ hs
    apply Contents.readFrom_eq (get_contents s id)
    intro p _
    rfl
  | setTraining id t => exact StoreCall.write_contents (mirrors_setTraining hs t) hs

/-- The next number is no project's. -/
theorem get_next (hs : Valid s) :
    s.contents.get ⟨s.nextId⟩ = .error (.projectNotFound ⟨s.nextId⟩) := by
  have hnone : s.projects.lookup ⟨s.nextId⟩ = none := by
    rw [List.lookup_eq_none_iff]
    intro p hp
    have hlt := hs.lt_next p hp
    have hne : (⟨s.nextId⟩ : ProjectId) ≠ p.1 := by
      intro h
      rw [← h] at hlt
      exact Int.lt_irrefl _ hlt
    simpa using hne
  rw [get_contents, MemoryStore.get, hnone]
  rfl

instance : LawfulStore MemoryStore where
  format := format
  contents := contents
  Valid := Valid
  Rows := Option StoredProject
  rows := rows
  run_contents _ call hs := (run_contents hs call).1
  valid_run _ call hs := (run_contents hs call).2.1
  rows_run _ call id hs := (run_contents hs call).2.2 id
  get_next _ hs := get_next hs

theorem valid_empty : Valid {} where
  projects := by simp
  lt_next := by simp

end MemoryStore

end LayerGraph
