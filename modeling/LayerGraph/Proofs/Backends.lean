import LayerGraph.Proofs.MemoryContents
import LayerGraph.Proofs.TableContents
import LayerGraph.Proofs.WellFormed

namespace LayerGraph

open TableStore (columnPosition blockRow)

/-- The node with the position that columns keep of it. -/
def Node.columns (n : Node) : Node := { n with position := n.position.bind columnPosition }

def Graph.columns (g : Graph) : Graph := g.mapNodes Node.columns

def Project.columns (p : Project) : Project := { p with graph := p.graph.columns }

def StoreReply.columns : StoreReply → StoreReply
  | .project p => .project p.columns
  | .node n => .node n.columns
  | .nodes ns => .nodes (ns.map Node.columns)
  | reply => reply

def Content.columns (p : Content) : Content := { p with blocks := p.blocks.map blockRow }

def Contents.columns (c : Contents MemoryStore.format) : Contents TableStore.format :=
  ⟨c.projects.map fun (id, p) => (id, p.columns), c.nextId⟩

/-- The settings read back from their text as they were. -/
def Training.Survives (t : Training) : Prop :=
  Decoder.ofText Training.decoder t.toJson.text = .ok t

instance (t : Training) : Decidable t.Survives :=
  inferInstanceAs (Decidable (Decoder.ofText Training.decoder t.toJson.text = .ok t))

theorem survives_default : Training.Survives {} := by decide +kernel

theorem Training.Survives.format {t : Training} (ht : t.Survives) :
    TableStore.format.training t = .ok t := by
  have h : Decoder.ofText Training.decoder t.toJson.text = .ok t := ht
  simp only [TableStore.format, h]
  rfl

theorem block_tables (row : StoredBlock) :
    TableStore.format.block row = blockRow (MemoryStore.format.block row) := by
  rw [MemoryStore.block_format]
  rfl

theorem toNode_blockRow (row : StoredBlock) :
    (blockRow row).toNode = row.toNode.map Node.columns := by
  unfold StoredBlock.toNode blockRow
  cases h : Decoder.ofText Document.json row.data with
  | error e => rfl
  | ok data =>
    cases hb : Block.ofRaw ⟨row.kind, data⟩ with
    | error e => simp [hb, bind, Except.bind, Except.map, Except.mapError]
    | ok block =>
      simp [hb, bind, Except.bind, Except.map, Except.mapError, pure, Except.pure, Node.columns]

theorem mapM_toNode_blockRow (rows : List StoredBlock) :
    (rows.map blockRow).mapM StoredBlock.toNode =
      (rows.mapM StoredBlock.toNode).map fun ns => ns.map Node.columns := by
  induction rows with
  | nil => rfl
  | cons row rows ih =>
    rw [List.map_cons, List.mapM_cons, List.mapM_cons, ih, toNode_blockRow]
    cases row.toNode with
    | error e => rfl
    | ok n => cases rows.mapM StoredBlock.toNode <;> rfl

theorem addBlock_blockRow (g : Graph) (row : StoredBlock) :
    GraphRows.addBlock g.columns (blockRow row) = (GraphRows.addBlock g row).map Graph.columns := by
  unfold GraphRows.addBlock
  rw [toNode_blockRow]
  cases row.toNode with
  | error e => rfl
  | ok n =>
    have h : g.columns.add n.columns = (g.add n).map Graph.columns :=
      Graph.add_mapNodes (f := Node.columns) (fun _ => rfl) (fun _ => rfl) (fun _ => rfl) g n
    simp only [Except.map, bind, Except.bind, h]
    cases g.add n <;> rfl

theorem addStored_columns (g : Graph) (e : Edge) :
    g.columns.addStored e = (g.addStored e).map Graph.columns := by
  have h : g.columns.addEdge e = (g.addEdge e).map Graph.columns :=
    Graph.addEdge_mapNodes (f := Node.columns) (fun _ => rfl) g e
  unfold Graph.addStored
  rw [h]
  cases g.addEdge e <;> rfl

theorem ofRows_blockRow (blocks : List StoredBlock) (edges : List Edge) :
    Graph.ofRows (blocks.map blockRow) edges = (Graph.ofRows blocks edges).map Graph.columns := by
  have hblocks := foldlM_map_comm addBlock_blockRow blocks .empty
  have hedges := foldlM_map_comm (x := fun e => e) addStored_columns edges
  have hempty : Graph.empty.columns = Graph.empty := rfl
  rw [hempty] at hblocks
  simp only [List.map_id'] at hedges
  unfold Graph.ofRows
  rw [hblocks]
  cases blocks.foldlM GraphRows.addBlock .empty with
  | error e => rfl
  | ok g => exact hedges g

section Operations

variable {c : Contents MemoryStore.format} {id : ProjectId}

theorem load_columns (id : ProjectId) (p : Content) :
    p.columns.load id = (p.load id).map Project.columns := by
  unfold Content.load Content.columns
  rw [ofRows_blockRow]
  cases p.training with
  | error e => rfl
  | ok t => cases Graph.ofRows p.blocks p.edges <;> rfl

theorem getNode_columns (id : ProjectId) (node : NodeId) (p : Content) :
    p.columns.getNode id node = (p.getNode id node).map Node.columns := by
  have hfind : (p.blocks.map blockRow).find? (·.id = node) =
      (p.blocks.find? (·.id = node)).map blockRow := by
    rw [List.find?_map]
    rfl
  simp only [Content.getNode, Content.columns, hfind]
  cases p.blocks.find? (·.id = node) with
  | none => rfl
  | some row => exact toNode_blockRow row

theorem nodesOfKind_columns (kind : String) (p : Content) :
    p.columns.nodesOfKind kind = (p.nodesOfKind kind).map (·.map Node.columns) := by
  have hfilter : (p.blocks.map blockRow).filter (·.kind = kind) =
      (p.blocks.filter (·.kind = kind)).map blockRow := by
    rw [List.filter_map]
    rfl
  unfold Content.nodesOfKind Content.columns
  rw [hfilter, mapM_toNode_blockRow]

theorem get_columns (c : Contents MemoryStore.format) (id : ProjectId) :
    c.columns.get id = (c.get id).map Content.columns := by
  unfold Contents.get Contents.columns
  simp only [Contents.lookup_map]
  cases c.projects.lookup id <;> rfl

theorem put_columns (c : Contents MemoryStore.format) (id : ProjectId) (p : Content) :
    (c.put id p).columns = c.columns.put id p.columns := by
  unfold Contents.columns Contents.put
  simp only [List.map_map]
  congr 1
  apply List.map_congr_left
  intro q _
  by_cases hq : q.1 = id <;> simp [hq]

theorem readFrom_columns {α : Type} {f k : Content → Except StorageError α} {a : α → α}
    (h : ∀ p, k p.columns = (f p).map a) :
    c.columns.readFrom id k = (c.readFrom id f).map a := by
  unfold Contents.readFrom
  rw [get_columns]
  cases c.get id with
  | error e => rfl
  | ok p => exact h p

theorem update_columns {f k : Content → Except StorageError Content}
    (h : ∀ p, k p.columns = (f p).map Content.columns) :
    c.columns.update id k = (c.update id f).map Contents.columns := by
  unfold Contents.update
  rw [get_columns]
  cases c.get id with
  | error e => rfl
  | ok p =>
    simp only [Except.map, bind, Except.bind, pure, Except.pure, h]
    cases f p with
    | error e => rfl
    | ok q => exact congrArg Except.ok (put_columns c id q).symm

theorem hasBlock_columns (p : Content) (id : NodeId) : p.columns.hasBlock id = p.hasBlock id := by
  unfold Content.hasBlock Content.columns
  rw [List.any_map]
  rfl

theorem save_columns (g : Graph) {t : Training} (ht : t.Survives) (p : Content) :
    p.columns.save TableStore.format g t = (p.save MemoryStore.format g t).columns := by
  simp only [Content.save, ht.format, Content.columns, List.map_map, block_tables]
  rfl

theorem insertNode_columns (n : Node) (p : Content) :
    p.columns.insertNode TableStore.format n =
      (p.insertNode MemoryStore.format n).map Content.columns := by
  unfold Content.insertNode
  rw [hasBlock_columns]
  cases p.hasBlock n.id with
  | true => rfl
  | false => simp [Content.columns, Except.map, block_tables]

theorem updateNode_columns (id : ProjectId) (n : Node) (p : Content) :
    p.columns.updateNode TableStore.format id n =
      (p.updateNode MemoryStore.format id n).map Content.columns := by
  unfold Content.updateNode
  rw [hasBlock_columns]
  cases p.hasBlock n.id with
  | false => rfl
  | true =>
    simp only [if_true, Except.map, Content.columns, List.map_map]
    congr 2
    apply List.map_congr_left
    intro row _
    by_cases hr : row.id = n.id
    · have hb : (blockRow row).id = n.id := hr
      simp [hr, hb, block_tables]
    · have hb : ¬ (blockRow row).id = n.id := hr
      simp [hr, hb]

theorem deleteNode_columns (id : ProjectId) (node : NodeId) (p : Content) :
    p.columns.deleteNode id node = (p.deleteNode id node).map Content.columns := by
  unfold Content.deleteNode
  rw [hasBlock_columns]
  cases p.hasBlock node with
  | false => rfl
  | true =>
    simp only [if_true, Except.map, Content.columns, List.filter_map]
    rfl

theorem insertEdge_columns (e : Edge) (p : Content) :
    p.columns.insertEdge e = (p.insertEdge e).map Content.columns := by
  have hedge : p.columns.hasEdge e.id = p.hasEdge e.id := rfl
  simp only [Content.insertEdge, hasBlock_columns, hedge]
  split
  · rfl
  split
  · rfl
  split <;> rfl

theorem getEdge_columns (id : ProjectId) (edge : EdgeId) (p : Content) :
    p.columns.getEdge id edge = (p.getEdge id edge).map fun e => e := by
  unfold Content.getEdge Content.columns
  cases p.edges.find? (·.id = edge) <;> rfl

theorem deleteEdge_columns (id : ProjectId) (edge : EdgeId) (p : Content) :
    p.columns.deleteEdge id edge = (p.deleteEdge id edge).map Content.columns := by
  have hedge : p.columns.hasEdge edge = p.hasEdge edge := rfl
  simp only [Content.deleteEdge, hedge]
  split <;> rfl

theorem training_columns (p : Content) : p.columns.training = p.training.map fun t => t := by
  unfold Content.columns
  cases p.training <;> rfl

theorem create_columns (c : Contents MemoryStore.format) (name owner : String) :
    c.columns.create name owner =
      ((c.create name owner).1, (c.create name owner).2.columns) := by
  unfold Contents.create Contents.columns
  simp only [survives_default.format, List.map_append, List.map_singleton]
  rfl

theorem delete_columns (c : Contents MemoryStore.format) (id : ProjectId) :
    c.columns.delete id = (c.delete id).map Contents.columns := by
  unfold Contents.delete
  rw [get_columns]
  cases c.get id with
  | error e => rfl
  | ok p =>
    simp only [bind, Except.bind, pure, Except.pure, Except.map, Contents.columns,
      List.filter_map]
    rfl

theorem list_columns (c : Contents MemoryStore.format) (owner : Option String) :
    c.columns.list owner = c.list owner := by
  unfold Contents.list Contents.columns
  simp only [List.filter_map, List.map_map]
  rfl

/-- A write that tables take as the memory does. -/
theorem write_columns {r : Except StorageError (Contents MemoryStore.format)}
    {k : Except StorageError (Contents TableStore.format)} (h : k = r.map Contents.columns) :
    StoreCall.write c.columns k = ((StoreCall.write c r).1.map StoreReply.columns,
      (StoreCall.write c r).2.columns) := by
  subst h
  cases r <;> rfl

theorem read_columns {α : Type} {reply : α → StoreReply} {r k : Except StorageError α} {a : α → α}
    (h : k = r.map a) (ha : ∀ x, reply (a x) = (reply x).columns) :
    StoreCall.read c.columns reply k = ((StoreCall.read c reply r).1.map StoreReply.columns,
      (StoreCall.read c reply r).2.columns) := by
  subst h
  cases r with
  | error e => rfl
  | ok x => exact congrArg (fun y => (Except.ok y, c.columns)) (ha x)

end Operations

/-- The settings that a call writes. -/
def StoreCall.training? : StoreCall → Option Training
  | .save _ _ t | .setTraining _ t => some t
  | _ => none

/-- Tables reply as the memory does, up to columns. -/
theorem run_columns (c : Contents MemoryStore.format) (call : StoreCall)
    (ht : ∀ t ∈ call.training?, t.Survives) :
    call.run c.columns = ((call.run c).1.map StoreReply.columns, (call.run c).2.columns) := by
  cases call with
  | create name owner =>
    simp only [StoreCall.run, ProjectStore.create, create_columns]
    rfl
  | load id =>
    apply read_columns (a := Project.columns) _ fun _ => rfl
    exact readFrom_columns (load_columns id)
  | save id g t =>
    apply write_columns
    exact update_columns fun p => congrArg Except.ok (save_columns g (ht t rfl) p)
  | delete id => exact write_columns (delete_columns c id)
  | list owner =>
    apply read_columns (a := fun x => x) _ fun _ => rfl
    exact congrArg Except.ok (list_columns c owner)
  | insertNode id n => exact write_columns (update_columns (insertNode_columns n))
  | getNode id node =>
    apply read_columns (a := Node.columns) _ fun _ => rfl
    exact readFrom_columns (getNode_columns id node)
  | updateNode id n => exact write_columns (update_columns (updateNode_columns id n))
  | deleteNode id node => exact write_columns (update_columns (deleteNode_columns id node))
  | insertEdge id e => exact write_columns (update_columns (insertEdge_columns e))
  | getEdge id edge =>
    apply read_columns (a := fun x => x) _ fun _ => rfl
    exact readFrom_columns (getEdge_columns id edge)
  | deleteEdge id edge => exact write_columns (update_columns (deleteEdge_columns id edge))
  | edgesFrom id node =>
    apply read_columns (a := fun x => x) _ fun _ => rfl
    exact readFrom_columns fun _ => rfl
  | edgesTo id node =>
    apply read_columns (a := fun x => x) _ fun _ => rfl
    exact readFrom_columns fun _ => rfl
  | nodesOfKind id kind =>
    apply read_columns (a := fun ns => ns.map Node.columns) _ fun _ => rfl
    exact readFrom_columns (nodesOfKind_columns kind)
  | training id =>
    apply read_columns (a := fun t => t) _ fun _ => rfl
    exact readFrom_columns training_columns
  | setTraining id t =>
    apply write_columns
    apply update_columns
    intro p
    simp only [(ht t rfl).format]
    rfl

theorem runAll_columns (c : Contents MemoryStore.format) (calls : List StoreCall)
    (ht : ∀ call ∈ calls, ∀ t ∈ call.training?, t.Survives) :
    (StoreCall.runAll c.columns calls).1 =
      (StoreCall.runAll c calls).1.map (·.map StoreReply.columns) := by
  induction calls generalizing c with
  | nil => rfl
  | cons call calls ih =>
    have h := run_columns c call (ht call List.mem_cons_self)
    have hrest := ih (call.run c).2 fun d hd => ht d (List.mem_cons_of_mem call hd)
    simp only [StoreCall.runAll, h, List.map_cons, hrest]

theorem runAll_contents {σ : Type} [ProjectStore σ] [LawfulStore σ] (s : σ) (calls : List StoreCall)
    (hs : LawfulStore.Valid s) :
    (StoreCall.runAll (LawfulStore.contents s) calls).1 = (StoreCall.runAll s calls).1 := by
  induction calls generalizing s with
  | nil => rfl
  | cons call calls ih =>
    have hrest := ih (call.run s).2 (LawfulStore.valid_run s call hs)
    simp only [StoreCall.runAll, LawfulStore.run_contents s call hs, hrest]

/-- The positions that a call writes. -/
def StoreCall.positions : StoreCall → List Position
  | .save _ g _ => g.nodes.filterMap (·.position)
  | .insertNode _ n | .updateNode _ n => n.position.toList
  | _ => []

def Content.Plain (p : Content) : Prop := ∀ row ∈ p.blocks, blockRow row = row

/-- All blocks are as columns keep them. -/
def Contents.Plain (c : Contents MemoryStore.format) : Prop := ∀ p ∈ c.projects, p.2.Plain

section Plain

variable {c d : Contents MemoryStore.format} {id : ProjectId}

theorem blockRow_ofNode {n : Node} (hn : ∀ q ∈ n.position, columnPosition q = some q) :
    blockRow (.ofNode n) = .ofNode n := by
  unfold blockRow StoredBlock.ofNode
  cases hp : n.position with
  | none => rfl
  | some q => simp [hn q hp]

/-- Both stores write a node alike when columns keep its position. -/
theorem block_tables_ofNode {n : Node} (hn : ∀ q ∈ n.position, columnPosition q = some q) :
    TableStore.format.block (.ofNode n) = MemoryStore.format.block (.ofNode n) := by
  rw [block_tables, MemoryStore.block_format, blockRow_ofNode hn]

theorem Content.plain_iff_columns_eq {p : Content} : p.Plain ↔ p.columns = p := by
  unfold Content.columns Content.Plain
  constructor
  · intro hp
    have h : p.blocks.map blockRow = p.blocks := by
      conv_rhs => rw [← List.map_id' p.blocks]
      exact List.map_congr_left hp
    rw [h]
  · intro hp
    have h : p.blocks.map blockRow = p.blocks.map fun row => row := by
      rw [List.map_id']
      exact congrArg Content.blocks hp
    exact List.map_inj_left.mp h

/-- A write that both stores make alike leaves nothing for columns to change. -/
theorem Content.Plain.of_columns {f k : Content → Except StorageError Content} {p q : Content}
    (hp : p.Plain) (hcolumns : ∀ p : Content, k p.columns = (f p).map Content.columns)
    (hk : k p = f p) (hq : f p = .ok q) : q.Plain := by
  have h := hcolumns p
  rw [Content.plain_iff_columns_eq.mp hp, hk, hq] at h
  exact Content.plain_iff_columns_eq.mpr (Except.ok.inj h).symm

theorem plain_get (hc : c.Plain) {p : Content} (hp : c.get id = .ok p) : p.Plain :=
  Contents.All.get (P := Content.Plain) hc hp

theorem readFrom_plain {α : Type} {f : Content → Except StorageError α} {a : α → α} (hc : c.Plain)
    (h : ∀ p, f p.columns = (f p).map a) : (c.readFrom id f).map a = c.readFrom id f := by
  unfold Contents.readFrom
  cases hp : c.get id with
  | error e => rfl
  | ok p =>
    have hf := h p
    rw [Content.plain_iff_columns_eq.mp (plain_get hc hp)] at hf
    exact hf.symm

theorem plain_update {f : Content → Except StorageError Content} (hc : c.Plain)
    (hf : ∀ p q : Content, p.Plain → f p = .ok q → q.Plain) (hd : c.update id f = .ok d) :
    d.Plain :=
  Contents.All.update (P := Content.Plain) hc hf hd

theorem write_plain {r : Except StorageError (Contents MemoryStore.format)} (hc : c.Plain)
    (hr : ∀ d, r = .ok d → d.Plain) :
    (StoreCall.write c r).1.map StoreReply.columns = (StoreCall.write c r).1 ∧
      (StoreCall.write c r).2.Plain := by
  cases r with
  | error e => exact ⟨rfl, hc⟩
  | ok d => exact ⟨rfl, hr d rfl⟩

theorem read_plain {α : Type} {reply : α → StoreReply} {r : Except StorageError α} {a : α → α}
    (hc : c.Plain) (hr : r.map a = r) (ha : ∀ x, reply (a x) = (reply x).columns) :
    (StoreCall.read c reply r).1.map StoreReply.columns = (StoreCall.read c reply r).1 ∧
      (StoreCall.read c reply r).2.Plain := by
  refine ⟨?_, hc⟩
  cases r with
  | error e => rfl
  | ok x =>
    have hx : a x = x := Except.ok.inj hr
    have h := ha x
    rw [hx] at h
    exact congrArg Except.ok h.symm

theorem write_update_plain {f k : Content → Except StorageError Content} (hc : c.Plain)
    (hcolumns : ∀ p : Content, k p.columns = (f p).map Content.columns) (hk : ∀ p, k p = f p) :
    (StoreCall.write c (c.update id f)).1.map StoreReply.columns =
        (StoreCall.write c (c.update id f)).1 ∧
      (StoreCall.write c (c.update id f)).2.Plain := by
  apply write_plain hc
  intro d hd
  exact plain_update hc (fun p q hp hq => hp.of_columns hcolumns (hk p) hq) hd

theorem plain_save {g : Graph} (hg : ∀ n ∈ g.nodes, ∀ q ∈ n.position, columnPosition q = some q)
    (t : Training) (p : Content) : (p.save MemoryStore.format g t).Plain := by
  intro row hrow
  obtain ⟨n, hn, rfl⟩ := List.mem_map.mp hrow
  rw [MemoryStore.block_format]
  exact blockRow_ofNode (hg n hn)

theorem plain_create (hc : c.Plain) (name owner : String) : (c.create name owner).2.Plain :=
  Contents.All.create (P := Content.Plain) hc fun row hrow => absurd hrow (by simp)

theorem plain_delete (hc : c.Plain) (hd : c.delete id = .ok d) : d.Plain :=
  Contents.All.delete (P := Content.Plain) hc hd

/-- Nothing that columns would change gets in, and nothing comes out. -/
theorem run_plain (hc : c.Plain) (call : StoreCall)
    (hcall : ∀ q ∈ call.positions, columnPosition q = some q) :
    (call.run c).1.map StoreReply.columns = (call.run c).1 ∧ (call.run c).2.Plain := by
  have hid : ∀ {α : Type} (r : Except StorageError α), r.map (fun x => x) = r := by
    intro α r
    cases r <;> rfl
  cases call with
  | create name owner => exact ⟨rfl, plain_create hc name owner⟩
  | load id => exact read_plain hc (readFrom_plain hc (load_columns id)) fun _ => rfl
  | save id g t =>
    have hg : ∀ n ∈ g.nodes, ∀ q ∈ n.position, columnPosition q = some q :=
      fun n hn q hq => hcall q (List.mem_filterMap.mpr ⟨n, hn, hq⟩)
    apply write_plain hc
    intro d hd
    apply plain_update hc _ hd
    rintro p q - hq
    exact Except.ok.inj hq ▸ plain_save hg t p
  | delete id => exact write_plain hc fun d hd => plain_delete hc hd
  | list owner => exact read_plain hc (hid _) fun _ => rfl
  | insertNode id n =>
    have hn := block_tables_ofNode fun q hq => hcall q (Option.mem_toList.mpr hq)
    apply write_update_plain hc (insertNode_columns n)
    intro p
    simp only [Content.insertNode, hn]
  | getNode id node => exact read_plain hc (readFrom_plain hc (getNode_columns id node)) fun _ => rfl
  | updateNode id n =>
    have hn := block_tables_ofNode fun q hq => hcall q (Option.mem_toList.mpr hq)
    apply write_update_plain hc (updateNode_columns id n)
    intro p
    simp only [Content.updateNode, hn]
  | deleteNode id node => exact write_update_plain hc (deleteNode_columns id node) fun _ => rfl
  | insertEdge id e => exact write_update_plain hc (insertEdge_columns e) fun _ => rfl
  | getEdge id edge => exact read_plain hc (hid _) fun _ => rfl
  | deleteEdge id edge => exact write_update_plain hc (deleteEdge_columns id edge) fun _ => rfl
  | edgesFrom id node => exact read_plain hc (hid _) fun _ => rfl
  | edgesTo id node => exact read_plain hc (hid _) fun _ => rfl
  | nodesOfKind id kind =>
    exact read_plain hc (readFrom_plain hc (nodesOfKind_columns kind)) fun _ => rfl
  | training id => exact read_plain hc (hid _) fun _ => rfl
  | setTraining id t =>
    apply write_plain hc
    intro d hd
    apply plain_update hc _ hd
    intro p q hp hq
    obtain rfl : _ = q := Except.ok.inj hq
    exact hp

theorem runAll_plain (hc : c.Plain) (calls : List StoreCall)
    (hcalls : ∀ call ∈ calls, ∀ q ∈ call.positions, columnPosition q = some q) :
    ∀ r ∈ (StoreCall.runAll c calls).1, r.map StoreReply.columns = r := by
  induction calls generalizing c with
  | nil => simp [StoreCall.runAll]
  | cons call calls ih =>
    obtain ⟨hreply, hplain⟩ := run_plain hc call (hcalls call List.mem_cons_self)
    intro r hr
    rcases List.mem_cons.mp hr with rfl | hr
    · exact hreply
    · exact ih hplain (fun d hd => hcalls d (List.mem_cons_of_mem call hd)) r hr

end Plain

/--
Calls whose settings survive their text have the same replies from both stores, except that the
tables show positions as columns keep them: without the sign of a zero, and not at all when a
coordinate is no number. So the replies are the same just when the memory shows no other positions,
and this is so when none are written.
-/
theorem runAll_tables_eq_memory (calls : List StoreCall)
    (ht : ∀ call ∈ calls, ∀ t ∈ call.training?, t.Survives) :
    let memory := (StoreCall.runAll ({} : MemoryStore) calls).1
    let tables := (StoreCall.runAll ({} : TableStore) calls).1
    tables = memory.map (·.map StoreReply.columns) ∧
    (tables = memory ↔ ∀ r ∈ memory, r.map StoreReply.columns = r) ∧
    ((∀ call ∈ calls, ∀ q ∈ call.positions, columnPosition q = some q) → tables = memory) := by
  intro memory tables
  have hm : (StoreCall.runAll (MemoryStore.contents {}) calls).1 = memory :=
    runAll_contents (σ := MemoryStore) {} calls MemoryStore.valid_empty
  have htables : (StoreCall.runAll (TableStore.contents {}) calls).1 = tables :=
    runAll_contents (σ := TableStore) {} calls TableStore.valid_empty
  have heq : tables = memory.map (·.map StoreReply.columns) := by
    rw [← htables, ← hm, ← runAll_columns _ calls ht]
    rfl
  have hiff : tables = memory ↔ ∀ r ∈ memory, r.map StoreReply.columns = r := by
    rw [heq]
    constructor
    · intro h r hr
      exact List.map_inj_left.mp (h.trans (List.map_id' memory).symm) r hr
    · intro h
      conv_rhs => rw [← List.map_id' memory]
      exact List.map_congr_left h
  refine ⟨heq, hiff, ?_⟩
  intro hcalls
  rw [hiff, ← hm]
  apply runAll_plain _ calls hcalls
  intro p hp
  exact absurd hp (by simp [MemoryStore.contents])

/-- A block whose place has a negative zero. -/
def signedZeroCalls : List StoreCall :=
  [.create "p" "", .setTraining ⟨1⟩ { epochs := 3 },
   .insertNode ⟨1⟩ { Node.new ⟨"a"⟩ 0 .start with position := some ⟨-0.0, 1⟩ },
   .getNode ⟨1⟩ ⟨"a"⟩]

theorem runAll_tables_eq_memory_signedZero :
    (∀ call ∈ signedZeroCalls, ∀ t ∈ call.training?, t.Survives) ∧
    (StoreCall.runAll ({} : TableStore) signedZeroCalls).1 ≠
      (StoreCall.runAll ({} : MemoryStore) signedZeroCalls).1 := by
  have ht : ∀ call ∈ signedZeroCalls, ∀ t ∈ call.training?, t.Survives := by decide +kernel
  have hlost : ¬ ∀ r ∈ (StoreCall.runAll ({} : MemoryStore) signedZeroCalls).1,
      r.map StoreReply.columns = r := by decide +kernel
  exact ⟨ht, fun h => hlost ((runAll_tables_eq_memory signedZeroCalls ht).2.1.mp h)⟩

end LayerGraph
