import LayerGraph.Proofs.Contents
import LayerGraph.TableStore

namespace LayerGraph

namespace TableStore

section Rows

variable {α : Type} {id j : ProjectId}

theorem rowsOf_append (t u : List (ProjectId × α)) : rowsOf id (t ++ u) = rowsOf id t ++ rowsOf id u :=
  List.filterMap_append

theorem rowsOf_cons (j p : ProjectId) (row : α) (t : List (ProjectId × α)) :
    rowsOf j ((p, row) :: t) = if p = j then row :: rowsOf j t else rowsOf j t := by
  unfold rowsOf
  by_cases hp : p = j <;> simp [hp]

theorem rowsOf_tagged (id j : ProjectId) (rows : List α) :
    rowsOf j (rows.map fun row => (id, row)) = if j = id then rows else [] := by
  induction rows with
  | nil => simp [rowsOf]
  | cons row rows ih =>
    rw [List.map_cons, rowsOf_cons, ih]
    by_cases hj : j = id
    · simp [hj]
    · simp [hj, Ne.symm hj]

theorem rowsOf_concat (t : List (ProjectId × α)) (id j : ProjectId) (row : α) :
    rowsOf j (t ++ [(id, row)]) = if j = id then rowsOf j t ++ [row] else rowsOf j t := by
  have hone := rowsOf_tagged id j [row]
  rw [List.map_singleton] at hone
  rw [rowsOf_append, hone]
  by_cases hj : j = id <;> simp [hj]

theorem rowsOf_filter (t : List (ProjectId × α)) (id j : ProjectId) (holds : α → Prop)
    [DecidablePred holds] :
    rowsOf j (t.filter fun (p, row) => ¬(p = id ∧ holds row)) =
      if j = id then (rowsOf j t).filter (¬ holds ·) else rowsOf j t := by
  induction t with
  | nil => simp [rowsOf]
  | cons a t ih =>
    obtain ⟨p, row⟩ := a
    -- the row goes, or stays in the rows of `p`
    by_cases hout : p = id ∧ holds row
    · rw [List.filter_cons_of_neg (by simpa using hout), ih, rowsOf_cons]
      by_cases hj : j = id
      · have hr : ¬ (¬ holds row) := fun h => h hout.2
        rw [if_pos hj, if_pos hj, if_pos (hout.1.trans hj.symm),
          List.filter_cons_of_neg (by simpa using hout.2)]
      · have hp : p ≠ j := fun h => hj (h ▸ hout.1)
        rw [if_neg hj, if_neg hj, if_neg hp]
    · rw [List.filter_cons_of_pos (by simp only [decide_eq_true_eq]; exact hout), rowsOf_cons,
        rowsOf_cons, ih]
      by_cases hp : p = j
      · by_cases hj : j = id
        · have hr : ¬ holds row := fun h => hout ⟨hp.trans hj, h⟩
          simp [hp, hj, hr]
        · simp [hp, hj]
      · simp [hp]

theorem rowsOf_map (t : List (ProjectId × α)) (id j : ProjectId) (holds : α → Prop)
    [DecidablePred holds] (f : α → α) :
    rowsOf j (t.map fun (p, row) => if p = id ∧ holds row then (p, f row) else (p, row)) =
      if j = id then (rowsOf j t).map fun row => if holds row then f row else row
      else rowsOf j t := by
  induction t with
  | nil => simp [rowsOf]
  | cons a t ih =>
    obtain ⟨p, row⟩ := a
    have hone : (if p = id ∧ holds row then (p, f row) else (p, row)) =
        (p, if p = id ∧ holds row then f row else row) := by split <;> rfl
    rw [List.map_cons]
    simp only [hone]
    rw [rowsOf_cons, rowsOf_cons]
    rw [ih]
    by_cases hp : p = j
    · by_cases hj : j = id
      · simp [hp, hj]
      · simp [hp, hj]
    · simp [hp]

theorem rowsOf_others (t : List (ProjectId × α)) (id j : ProjectId) :
    rowsOf j (t.filter (·.1 ≠ id)) = if j = id then [] else rowsOf j t := by
  have h := rowsOf_filter t id j fun _ => True
  simpa using h

end Rows

variable {s t : TableStore} {id j : ProjectId} {row : ProjectRow}

/-- Tables keep positions in columns and settings as text. -/
def format : RowFormat where
  position := columnPosition
  training t := (Decoder.ofText Training.decoder t.toJson.text).mapError fun _ => .unreadableText

def content (s : TableStore) (row : ProjectRow) : Content :=
  ⟨row.name, row.owner, trainingOf row, s.blockRows row.id, (s.edgeRows row.id).map (·.edge)⟩

def contents (s : TableStore) : Contents format :=
  ⟨s.projects.map fun row => (row.id, s.content row), s.nextId⟩

/-- Every row belongs to a project, and the number of the next project is above all others. -/
structure Valid (s : TableStore) : Prop where
  ids_nodup : (s.projects.map (·.id)).Nodup
  lt_next : ∀ row ∈ s.projects, row.id.number < s.nextId
  ordered : ∀ id, StoredEdge.Ordered (s.edgeRows id)
  blocks_owned : ∀ id, id ∉ s.projects.map (·.id) → s.blockRows id = []
  edges_owned : ∀ id, id ∉ s.projects.map (·.id) → s.edgeRows id = []

def rows (s : TableStore) (id : ProjectId) :
    Option ProjectRow × List StoredBlock × List StoredEdge :=
  (s.projects.find? (·.id = id), s.blockRows id, s.edgeRows id)

/-- A write to one project. -/
abbrev Writes (s : TableStore) (id : ProjectId) (r : Except StorageError TableStore)
    (k : Except StorageError (Contents format)) : Prop :=
  Mirrors contents (Beside Valid rows s id) r k

theorem get_contents (s : TableStore) (id : ProjectId) :
    s.contents.get id = (s.project id).map s.content := by
  have hl : ∀ rows : List ProjectRow, (rows.map fun row => (row.id, s.content row)).lookup id =
      (rows.find? (·.id = id)).map s.content := by
    intro rows
    induction rows with
    | nil => rfl
    | cons row rows ih =>
      rw [List.map_cons, List.lookup_cons, List.find?_cons, ih]
      by_cases hr : row.id = id
      · simp [hr]
      · have hn : (id == row.id) = false := by simpa using Ne.symm hr
        simp [hr, hn]
  unfold Contents.get project contents
  simp only [hl]
  cases s.projects.find? (·.id = id) <;> rfl

theorem project_eq_ok (h : s.project id = .ok row) : row ∈ s.projects ∧ row.id = id := by
  unfold project at h
  cases hf : s.projects.find? (·.id = id) with
  | none => simp [hf] at h
  | some r =>
    obtain rfl : r = row := by simpa [hf] using h
    exact ⟨List.mem_of_find?_eq_some hf, by simpa using List.find?_some hf⟩

/-- One store is the other with other rows of a project. -/
structure Rewrites (s t : TableStore) (id : ProjectId) (f : ProjectRow → ProjectRow) : Prop where
  projects : t.projects = s.projects.map f
  id_eq : ∀ row, (f row).id = row.id
  others : ∀ row, row.id ≠ id → f row = row
  nextId : t.nextId = s.nextId
  blocks : ∀ j, j ≠ id → t.blockRows j = s.blockRows j
  edges : ∀ j, j ≠ id → t.edgeRows j = s.edgeRows j
  ordered : StoredEdge.Ordered (t.edgeRows id)

theorem Rewrites.map_id {f : ProjectRow → ProjectRow} (h : Rewrites s t id f) :
    t.projects.map (·.id) = s.projects.map (·.id) := by
  rw [h.projects, List.map_map]
  apply List.map_congr_left
  intro row _
  exact h.id_eq row

theorem Rewrites.ne_of_not_mem {f : ProjectRow → ProjectRow} (h : Rewrites s t id f)
    (hrow : s.project id = .ok row) (hj : j ∉ t.projects.map (·.id)) : j ≠ id := by
  rintro rfl
  obtain ⟨hm, rfl⟩ := project_eq_ok hrow
  exact hj (h.map_id ▸ List.mem_map_of_mem hm)

theorem Rewrites.valid {f : ProjectRow → ProjectRow} (h : Rewrites s t id f) (hs : Valid s)
    (hrow : s.project id = .ok row) : Valid t where
  ids_nodup := h.map_id ▸ hs.ids_nodup
  lt_next r hr := by
    rw [h.projects] at hr
    obtain ⟨q, hq, rfl⟩ := List.mem_map.mp hr
    rw [h.id_eq, h.nextId]
    exact hs.lt_next q hq
  ordered j := by
    by_cases hj : j = id
    · exact hj ▸ h.ordered
    · rw [h.edges j hj]
      exact hs.ordered j
  blocks_owned j hj := by
    rw [h.blocks j (h.ne_of_not_mem hrow hj)]
    exact hs.blocks_owned j (h.map_id ▸ hj)
  edges_owned j hj := by
    rw [h.edges j (h.ne_of_not_mem hrow hj)]
    exact hs.edges_owned j (h.map_id ▸ hj)

theorem Rewrites.rows_eq {f : ProjectRow → ProjectRow} (h : Rewrites s t id f) (hj : j ≠ id) :
    t.rows j = s.rows j := by
  -- the first row of `j` is found where it was, and is no other row
  have hfind : ∀ l : List ProjectRow, (l.map f).find? (·.id = j) = l.find? (·.id = j) := by
    intro l
    induction l with
    | nil => rfl
    | cons r l ih =>
      rw [List.map_cons, List.find?_cons, List.find?_cons, h.id_eq, ih]
      by_cases hr : r.id = j
      · simp [hr, h.others r fun hi => hj (hr.symm.trans hi)]
      · simp [hr]
  unfold rows
  rw [h.projects, hfind, h.blocks j hj, h.edges j hj]

theorem mirrors_put {f : ProjectRow → ProjectRow} {c : Content} (hs : Valid s)
    (hrow : s.project id = .ok row) (h : Rewrites s t id f) (hc : c = t.content (f row)) :
    Writes s id (.ok t) ((Except.ok c).map (s.contents.put id)) := by
  subst hc
  constructor
  · apply congrArg Except.ok
    obtain ⟨hm, hid⟩ := project_eq_ok hrow
    unfold contents Contents.put
    rw [h.projects, h.nextId]
    simp only [List.map_map]
    congr 1
    apply List.map_congr_left
    intro r hr
    simp only [Function.comp_apply]
    by_cases hri : r.id = id
    · -- no other row has the number of the project
      obtain rfl : r = row := List.inj_on_of_nodup_map hs.ids_nodup hr hm (hri.trans hid.symm)
      rw [if_pos hri, h.id_eq]
    · rw [if_neg hri, h.others r hri]
      simp only [content, h.blocks r.id hri, h.edges r.id hri]
  · intro u hu
    obtain rfl : t = u := Except.ok.inj hu
    exact ⟨h.valid hs hrow, fun j hj => h.rows_eq hj⟩

theorem mirrors_error (s : TableStore) (e : StorageError) :
    Writes s id (.error e) ((Except.error e).map (s.contents.put id)) := ⟨rfl, nofun⟩

theorem lt_of_mem_edgeRows (s : TableStore) (id : ProjectId) :
    ∀ row ∈ s.edgeRows id, row.ordinal < s.nextOrdinal id := by
  intro row hrow
  have hm : row.ordinal ∈ (s.edgeRows id).map (·.ordinal) := List.mem_map_of_mem hrow
  unfold nextOrdinal
  cases h : (s.edgeRows id).map (·.ordinal) with
  | nil => simp [h] at hm
  | cons n ns =>
    rw [h, List.mem_cons] at hm
    exact Int.lt_add_one_of_le (le_foldl_max le_max_left le_max_right hm)

theorem hasEdge_content (s : TableStore) (row : ProjectRow) (edge : EdgeId) :
    (s.content row).hasEdge edge = s.hasEdge row.id edge := by
  unfold Content.hasEdge hasEdge content
  rw [List.any_map]
  rfl

/-- A write of other rows of blocks and connections for a project. -/
theorem mirrors_rows {blocks : List (ProjectId × StoredBlock)} {edges : List (ProjectId × StoredEdge)}
    {c : Content} (hs : Valid s) (hrow : s.project row.id = .ok row)
    (hblocks : ∀ j, j ≠ row.id → rowsOf j blocks = s.blockRows j)
    (hedges : ∀ j, j ≠ row.id → rowsOf j edges = s.edgeRows j)
    (hordered : StoredEdge.Ordered (rowsOf row.id edges))
    (hc : c = ⟨row.name, row.owner, trainingOf row, rowsOf row.id blocks,
      (rowsOf row.id edges).map (·.edge)⟩) :
    Writes s row.id (.ok { s with blocks, edges })
      ((Except.ok c).map (s.contents.put row.id)) := by
  have h : Rewrites s { s with blocks, edges } row.id fun r => r :=
    { projects := (List.map_id' s.projects).symm
      id_eq := fun _ => rfl
      others := fun _ _ => rfl
      nextId := rfl
      blocks := hblocks
      edges := hedges
      ordered := hordered }
  exact mirrors_put hs hrow h hc

theorem mirrors_save (hs : Valid s) (g : Graph) (tr : Training) :
    Writes s id (s.save id g tr)
      (s.contents.update id fun p => .ok (p.save format g tr)) := by
  apply Contents.mirrors_update (get_contents s id)
  · intro e he
    simp [save, he, bind, Except.bind]
  · intro row hrow
    have hid := (project_eq_ok hrow).2
    simp only [save, hrow, bind, Except.bind, pure, Except.pure]
    -- both tables are written alike: old rows go out, the new ones come in behind
    have hrows : ∀ {α : Type} (u : List (ProjectId × α)) (rows : List α) (j : ProjectId),
        rowsOf j (u.filter (·.1 ≠ id) ++ rows.map fun row => (id, row)) =
          if j = id then rows else rowsOf j u := by
      intro α u rows j
      rw [rowsOf_append, rowsOf_others, rowsOf_tagged]
      by_cases hj : j = id <;> simp [hj]
    have htag : g.toRows.blocks.map (fun row => (id, blockRow row)) =
        (g.toRows.blocks.map blockRow).map fun row => (id, row) := by
      rw [List.map_map]
      rfl
    apply mirrors_put hs hrow (f := fun r =>
      if r.id = id then { r with training := tr.toJson.text } else r)
    · constructor
      case projects => rfl
      case id_eq =>
        intro r
        split <;> rfl
      case others =>
        intro r hr
        exact if_neg hr
      case nextId => rfl
      case blocks =>
        intro j hj
        rw [blockRows, htag, hrows, if_neg hj]
        rfl
      case edges =>
        intro j hj
        rw [edgeRows, hrows, if_neg hj]
        rfl
      case ordered =>
        rw [edgeRows, hrows, if_pos rfl]
        exact StoredEdge.ordered_numbered 0 g.edges
    · simp only [content, hid, if_true, blockRows, edgeRows, htag, hrows]
      simp only [Content.save, Graph.toRows, List.map_map, StoredEdge.map_edge_numbered]
      rfl

theorem mirrors_insertNode (hs : Valid s) (n : Node) :
    Writes s id (s.insertNode id n) (s.contents.update id (·.insertNode format n)) := by
  apply Contents.mirrors_update (get_contents s id)
  · intro e he
    simp [insertNode, he, bind, Except.bind]
  · intro row hrow
    obtain ⟨-, rfl⟩ := project_eq_ok hrow
    have hb : (s.content row).hasBlock n.id = s.hasBlock row.id n.id := rfl
    simp only [insertNode, hrow, bind, Except.bind, Content.insertNode, hb]
    by_cases h : s.hasBlock row.id n.id
    · simp only [if_pos h]
      exact mirrors_error s _
    · simp only [if_neg h]
      apply mirrors_rows hs hrow
      · intro j hj
        rw [rowsOf_concat, if_neg hj]
        rfl
      · intro j hj
        rfl
      · exact hs.ordered row.id
      · rw [rowsOf_concat, if_pos rfl]
        rfl

theorem mirrors_updateNode (hs : Valid s) (n : Node) :
    Writes s id (s.updateNode id n)
      (s.contents.update id (·.updateNode format id n)) := by
  apply Contents.mirrors_update (get_contents s id)
  · intro e he
    simp [updateNode, he, bind, Except.bind]
  · intro row hrow
    obtain ⟨-, rfl⟩ := project_eq_ok hrow
    have hb : (s.content row).hasBlock n.id = s.hasBlock row.id n.id := rfl
    simp only [updateNode, hrow, bind, Except.bind, Content.updateNode, hb]
    by_cases h : s.hasBlock row.id n.id
    · simp only [h, Bool.not_true, Bool.false_eq_true, if_true, if_false]
      have hrows := fun j =>
        rowsOf_map s.blocks row.id j (·.id = n.id) fun _ => blockRow (.ofNode n)
      apply mirrors_rows hs hrow
      · intro j hj
        exact (hrows j).trans (if_neg hj)
      · intro j hj
        rfl
      · exact hs.ordered row.id
      · rw [(hrows row.id).trans (if_pos rfl)]
        rfl
    · simp only [h, Bool.not_false, if_true, Bool.false_eq_true, if_false]
      exact mirrors_error s _

theorem mirrors_deleteNode (hs : Valid s) (node : NodeId) :
    Writes s id (s.deleteNode id node)
      (s.contents.update id (·.deleteNode id node)) := by
  apply Contents.mirrors_update (get_contents s id)
  · intro e he
    simp [deleteNode, he, bind, Except.bind]
  · intro row hrow
    obtain ⟨-, rfl⟩ := project_eq_ok hrow
    have hb : (s.content row).hasBlock node = s.hasBlock row.id node := rfl
    simp only [deleteNode, hrow, bind, Except.bind, Content.deleteNode, hb]
    by_cases h : s.hasBlock row.id node
    · simp only [h, Bool.not_true, Bool.false_eq_true, if_true, if_false]
      have hblocks := fun j => rowsOf_filter s.blocks row.id j (·.id = node)
      have hedges := fun j => rowsOf_filter s.edges row.id j
        fun r => r.edge.source = node ∨ r.edge.target = node
      apply mirrors_rows hs hrow
      · intro j hj
        exact (hblocks j).trans (if_neg hj)
      · intro j hj
        exact (hedges j).trans (if_neg hj)
      · rw [(hedges row.id).trans (if_pos rfl)]
        exact (hs.ordered row.id).sublist List.filter_sublist
      · -- connections of the block go with it
        rw [(hblocks row.id).trans (if_pos rfl), (hedges row.id).trans (if_pos rfl)]
        simp only [content, List.filter_map, Function.comp_def, not_or]
        rfl
    · simp only [h, Bool.not_false, if_true, Bool.false_eq_true, if_false]
      exact mirrors_error s _

theorem mirrors_insertEdge (hs : Valid s) (e : Edge) :
    Writes s id (s.insertEdge id e) (s.contents.update id (·.insertEdge e)) := by
  apply Contents.mirrors_update (get_contents s id)
  · intro e' he
    simp [insertEdge, he, bind, Except.bind]
  · intro row hrow
    obtain ⟨-, rfl⟩ := project_eq_ok hrow
    have hb : ∀ node, (s.content row).hasBlock node = s.hasBlock row.id node := fun _ => rfl
    simp only [insertEdge, hrow, bind, Except.bind, Content.insertEdge, hb, hasEdge_content]
    by_cases h : s.hasEdge row.id e.id
    · simp only [if_pos h]
      exact mirrors_error s _
    simp only [if_neg h]
    by_cases hsource : (!s.hasBlock row.id e.source) = true
    · simp only [if_pos hsource]
      exact mirrors_error s _
    simp only [if_neg hsource]
    by_cases htarget : (!s.hasBlock row.id e.target) = true
    · simp only [if_pos htarget]
      exact mirrors_error s _
    simp only [if_neg htarget]
    apply mirrors_rows hs hrow
    · intro j hj
      rfl
    · intro j hj
      rw [rowsOf_concat, if_neg hj]
      rfl
    · -- the new row has the greatest ordinal
      rw [rowsOf_concat, if_pos rfl]
      exact StoredEdge.ordered_concat (hs.ordered row.id) (lt_of_mem_edgeRows s row.id) e
    · rw [rowsOf_concat, if_pos rfl, List.map_append]
      rfl

theorem mirrors_deleteEdge (hs : Valid s) (edge : EdgeId) :
    Writes s id (s.deleteEdge id edge)
      (s.contents.update id (·.deleteEdge id edge)) := by
  apply Contents.mirrors_update (get_contents s id)
  · intro e he
    simp [deleteEdge, he, bind, Except.bind]
  · intro row hrow
    obtain ⟨-, rfl⟩ := project_eq_ok hrow
    simp only [deleteEdge, hrow, bind, Except.bind, Content.deleteEdge, hasEdge_content]
    by_cases h : s.hasEdge row.id edge
    · simp only [h, Bool.not_true, Bool.false_eq_true, if_true, if_false]
      have hedges := fun j => rowsOf_filter s.edges row.id j (·.edge.id = edge)
      apply mirrors_rows hs hrow
      · intro j hj
        rfl
      · intro j hj
        exact (hedges j).trans (if_neg hj)
      · rw [(hedges row.id).trans (if_pos rfl)]
        exact (hs.ordered row.id).sublist List.filter_sublist
      · rw [(hedges row.id).trans (if_pos rfl)]
        simp only [content, List.filter_map]
        rfl
    · simp only [h, Bool.not_false, if_true, Bool.false_eq_true, if_false]
      exact mirrors_error s _

theorem mirrors_setTraining (hs : Valid s) (tr : Training) :
    Writes s id (ProjectStore.setTraining s id tr)
      (s.contents.update id fun p => .ok { p with training := format.training tr }) := by
  apply Contents.mirrors_update (get_contents s id)
  · intro e he
    simp [ProjectStore.setTraining, he, bind, Except.bind]
  · intro row hrow
    have hid := (project_eq_ok hrow).2
    simp only [ProjectStore.setTraining, hrow, bind, Except.bind, pure, Except.pure]
    apply mirrors_put hs hrow (f := fun r =>
      if r.id = id then { r with training := tr.toJson.text } else r)
    · constructor
      case projects => rfl
      case id_eq =>
        intro r
        split <;> rfl
      case others =>
        intro r hr
        exact if_neg hr
      case nextId => rfl
      case blocks =>
        intro j hj
        rfl
      case edges =>
        intro j hj
        rfl
      case ordered => exact hs.ordered id
    · simp only [content, hid, if_true]
      rfl

theorem rowsOf_others_eq_nil {α : Type} {t : List (ProjectId × α)}
    (ht : j ∉ s.projects.map (·.id) → rowsOf j t = [])
    (hj : j ∉ (s.projects.filter (·.id ≠ id)).map (·.id)) : rowsOf j (t.filter (·.1 ≠ id)) = [] := by
  rw [rowsOf_others]
  by_cases hji : j = id
  · rw [if_pos hji]
  · rw [if_neg hji]
    apply ht
    intro hm
    obtain ⟨r, hr, rfl⟩ := List.mem_map.mp hm
    exact hj (List.mem_map_of_mem (List.mem_filter.mpr ⟨hr, by simpa using hji⟩))

theorem valid_without (hs : Valid s) (id : ProjectId) :
    Valid { s with
      projects := s.projects.filter (·.id ≠ id)
      blocks := s.blocks.filter (·.1 ≠ id)
      edges := s.edges.filter (·.1 ≠ id) } where
  ids_nodup := hs.ids_nodup.sublist (List.filter_sublist.map _)
  lt_next r hr := hs.lt_next r (List.mem_of_mem_filter hr)
  ordered j := by
    rw [edgeRows, rowsOf_others]
    split
    · exact List.Pairwise.nil
    · exact hs.ordered j
  blocks_owned j hj := rowsOf_others_eq_nil (hs.blocks_owned j) hj
  edges_owned j hj := rowsOf_others_eq_nil (hs.edges_owned j) hj

theorem rows_without (hj : j ≠ id) (s : TableStore) :
    rows { s with
      projects := s.projects.filter (·.id ≠ id)
      blocks := s.blocks.filter (·.1 ≠ id)
      edges := s.edges.filter (·.1 ≠ id) } j = rows s j := by
  have hfind : (s.projects.filter (·.id ≠ id)).find? (·.id = j) = s.projects.find? (·.id = j) := by
    rw [List.find?_filter]
    congr 1
    funext r
    by_cases hr : r.id = j
    · simp [hr, hj]
    · simp [hr]
  simp only [rows, blockRows, edgeRows, rowsOf_others, if_neg hj, hfind]

theorem mirrors_delete (hs : Valid s) (id : ProjectId) :
    Writes s id (s.delete id) (s.contents.delete id) := by
  unfold delete Contents.delete
  rw [get_contents]
  cases hp : s.project id with
  | error e => exact ⟨rfl, nofun⟩
  | ok row =>
    constructor
    · simp only [bind, Except.bind, pure, Except.pure, Except.map, contents, List.filter_map]
      congr 2
      apply List.map_congr_left
      intro r hr
      have hne : r.id ≠ id := by simpa using (List.mem_filter.mp hr).2
      simp only [content, blockRows, edgeRows, rowsOf_others, if_neg hne]
    · intro t ht
      obtain rfl : _ = t := Except.ok.inj ht
      exact ⟨valid_without hs id, fun j hj => rows_without hj s⟩

theorem list_contents (s : TableStore) (owner : Option String) :
    s.contents.list owner = s.list owner := by
  unfold Contents.list list contents
  simp only [List.filter_map, List.map_map]
  rfl

theorem not_mem_nextId (hs : Valid s) : (⟨s.nextId⟩ : ProjectId) ∉ s.projects.map (·.id) := by
  intro hm
  obtain ⟨row, hr, hid⟩ := List.mem_map.mp hm
  have := hs.lt_next row hr
  rw [hid] at this
  exact absurd this (Int.lt_irrefl _)

theorem create_contents (hs : Valid s) (name owner : String) :
    s.contents.create name owner = ((s.create name owner).1, (s.create name owner).2.contents) := by
  have hb := hs.blocks_owned _ (not_mem_nextId hs)
  have he := hs.edges_owned _ (not_mem_nextId hs)
  unfold Contents.create create contents
  simp only [List.map_append, List.map_singleton]
  simp only [content, blockRows, edgeRows] at hb he ⊢
  simp only [hb, he, List.map_nil, trainingOf, format]

theorem valid_create (hs : Valid s) (name owner : String) : Valid (s.create name owner).2 where
  ids_nodup := by
    simp only [create, List.map_append, List.map_singleton]
    rw [List.nodup_append]
    refine ⟨hs.ids_nodup, List.nodup_singleton _, ?_⟩
    intro a ha b hb hab
    obtain rfl : b = ⟨s.nextId⟩ := by simpa using hb
    exact not_mem_nextId hs (hab ▸ ha)
  lt_next row hrow := by
    simp only [create]
    rcases List.mem_append.mp hrow with hrow | hrow
    · exact Int.lt_add_one_of_le (Int.le_of_lt (hs.lt_next row hrow))
    · obtain rfl : row = _ := List.mem_singleton.mp hrow
      exact Int.lt_succ s.nextId
  ordered := hs.ordered
  blocks_owned j hj := hs.blocks_owned j fun hm => hj (by simp [create, hm])
  edges_owned j hj := hs.edges_owned j fun hm => hj (by simp [create, hm])

theorem rows_create (s : TableStore) (name owner : String) (hid : some ⟨s.nextId⟩ ≠ some id) :
    rows (s.create name owner).2 id = rows s id := by
  have hn : ¬ ⟨s.nextId⟩ = id := fun h => hid (congrArg some h)
  unfold rows create
  rw [List.find?_append]
  cases h : s.projects.find? (·.id = id) <;> simp [hn, blockRows, edgeRows]

theorem run_contents (hs : Valid s) (call : StoreCall) :
    call.run s.contents = ((call.run s).1, (call.run s).2.contents) ∧ Valid (call.run s).2 ∧
      ∀ id, call.target? s.nextId ≠ some id → rows (call.run s).2 id = rows s id := by
  cases call with
  | create name owner =>
    refine ⟨?_, valid_create hs name owner, fun id => rows_create s name owner⟩
    simp [StoreCall.run, ProjectStore.create, create_contents hs]
  | load id =>
    apply StoreCall.read_contents _ hs
    apply Contents.readFrom_eq (get_contents s id)
    intro row hrow
    obtain ⟨-, rfl⟩ := project_eq_ok hrow
    have hg := toGraph_eq_ofRows (s.blockRows row.id) (hs.ordered row.id)
    simp only [Content.load, content, hg]
  | save id g t => exact StoreCall.write_contents (mirrors_save hs g t) hs
  | delete id => exact StoreCall.write_contents (mirrors_delete hs id) hs
  | list owner => exact StoreCall.read_contents (congrArg Except.ok (list_contents s owner)) hs
  | insertNode id n => exact StoreCall.write_contents (mirrors_insertNode hs n) hs
  | getNode id node =>
    apply StoreCall.read_contents _ hs
    apply Contents.readFrom_eq (get_contents s id)
    intro row hrow
    obtain ⟨-, rfl⟩ := project_eq_ok hrow
    rfl
  | updateNode id n => exact StoreCall.write_contents (mirrors_updateNode hs n) hs
  | deleteNode id node => exact StoreCall.write_contents (mirrors_deleteNode hs node) hs
  | insertEdge id e => exact StoreCall.write_contents (mirrors_insertEdge hs e) hs
  | getEdge id edge =>
    apply StoreCall.read_contents _ hs
    apply Contents.readFrom_eq (get_contents s id)
    intro row hrow
    obtain ⟨-, rfl⟩ := project_eq_ok hrow
    simp only [Content.getEdge, content, StoredEdge.find?_map_edge]
    cases (s.edgeRows row.id).find? (·.edge.id = edge) <;> rfl
  | deleteEdge id edge => exact StoreCall.write_contents (mirrors_deleteEdge hs edge) hs
  | edgesFrom id node =>
    apply StoreCall.read_contents _ hs
    apply Contents.readFrom_eq (get_contents s id)
    intro row hrow
    obtain ⟨-, rfl⟩ := project_eq_ok hrow
    exact congrArg Except.ok (StoredEdge.map_edge_sorted_filter (hs.ordered row.id) _).symm
  | edgesTo id node =>
    apply StoreCall.read_contents _ hs
    apply Contents.readFrom_eq (get_contents s id)
    intro row hrow
    obtain ⟨-, rfl⟩ := project_eq_ok hrow
    exact congrArg Except.ok (StoredEdge.map_edge_sorted_filter (hs.ordered row.id) _).symm
  | nodesOfKind id kind =>
    apply StoreCall.read_contents _ hs
    apply Contents.readFrom_eq (get_contents s id)
    intro row hrow
    obtain ⟨-, rfl⟩ := project_eq_ok hrow
    rfl
  | training id =>
    apply StoreCall.read_contents _ hs
    apply Contents.readFrom_eq (get_contents s id)
    intro row _
    rfl
  | setTraining id t => exact StoreCall.write_contents (mirrors_setTraining hs t) hs

/-- The next number is no project's. -/
theorem get_next (hs : Valid s) :
    s.contents.get ⟨s.nextId⟩ = .error (.projectNotFound ⟨s.nextId⟩) := by
  have hnone : s.projects.find? (·.id = ⟨s.nextId⟩) = none := by
    rw [List.find?_eq_none]
    intro row hrow
    have hlt := hs.lt_next row hrow
    have hne : row.id ≠ ⟨s.nextId⟩ := by
      intro h
      rw [h] at hlt
      exact Int.lt_irrefl _ hlt
    simpa using hne
  rw [get_contents, project, hnone]
  rfl

instance : LawfulStore TableStore where
  format := format
  contents := contents
  Valid := Valid
  Rows := Option ProjectRow × List StoredBlock × List StoredEdge
  rows := rows
  run_contents _ call hs := (run_contents hs call).1
  valid_run _ call hs := (run_contents hs call).2.1
  rows_run _ call id hs := (run_contents hs call).2.2 id
  get_next _ hs := get_next hs

theorem valid_empty : Valid {} where
  ids_nodup := List.nodup_nil
  lt_next := by simp
  ordered _ := List.Pairwise.nil
  blocks_owned _ _ := rfl
  edges_owned _ _ := rfl

end TableStore

end LayerGraph
