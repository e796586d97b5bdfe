import LayerGraph.ProjectStore
import LayerGraph.Proofs.Lists
import LayerGraph.StoredRow
import Mathlib

namespace LayerGraph

instance decidableEqExcept {ε α : Type} [DecidableEq ε] [DecidableEq α] :
    DecidableEq (Except ε α)
  | .error e, .error e' => decidable_of_iff (e = e') (by simp)
  | .ok a, .ok a' => decidable_of_iff (a = a') (by simp)
  | .error _, .ok _ => isFalse nofun
  | .ok _, .error _ => isFalse nofun

theorem bind_eq_ok_iff {α β ε : Type} {x : Except ε α} {f : α → Except ε β} {b : β} :
    (x >>= f) = .ok b ↔ ∃ a, x = .ok a ∧ f a = .ok b := by
  cases x <;> simp [bind, Except.bind]

theorem pure_eq_ok_iff {α ε : Type} {a b : α} : (pure a : Except ε α) = .ok b ↔ a = b := by
  simp [pure, Except.pure]

theorem map_eq_ok_iff {α β ε : Type} {f : α → β} {x : Except ε α} {b : β} :
    f <$> x = .ok b ↔ ∃ a, x = .ok a ∧ f a = b := by
  cases x <;> simp

theorem mapError_eq_ok_iff {α ε ε' : Type} {k : ε → ε'} {r : Except ε α} {a : α} :
    r.mapError k = .ok a ↔ r = .ok a := by
  cases r <;> simp [Except.mapError]

theorem throw_ne_ok {α ε : Type} {e : ε} {a : α} : (throw e : Except ε α) ≠ .ok a := by
  simp [throw, throwThe, MonadExceptOf.throw]

theorem toOption_eq_some_iff {α ε : Type} {r : Except ε α} {a : α} :
    r.toOption = some a ↔ r = .ok a := by
  cases r <;> simp [Except.toOption]

theorem foldlM_nil_eq_ok_iff {α β ε : Type} {f : β → α → Except ε β} {b c : β} :
    [].foldlM f b = .ok c ↔ b = c := pure_eq_ok_iff

theorem foldlM_cons_eq_ok_iff {α β ε : Type} {f : β → α → Except ε β} {a : α} {l : List α}
    {b c : β} : (a :: l).foldlM f b = .ok c ↔ ∃ d, f b a = .ok d ∧ l.foldlM f d = .ok c := by
  rw [List.foldlM_cons]
  exact bind_eq_ok_iff

/-- A loop that makes no difference to what has been done before it. -/
theorem foldlM_map_comm {α β γ δ ε : Type} {f : α → γ → Except ε α} {k : β → δ → Except ε β}
    {a : α → β} {x : γ → δ} (h : ∀ s c, k (a s) (x c) = (f s c).map a) (l : List γ) (s : α) :
    (l.map x).foldlM k (a s) = (l.foldlM f s).map a := by
  induction l generalizing s with
  | nil => rfl
  | cons c l ih =>
    rw [List.map_cons, List.foldlM_cons, List.foldlM_cons, h]
    cases f s c with
    | error e => rfl
    | ok t => exact ih t

/-- What becomes of positions when they are written, and of settings when they are read again. -/
structure RowFormat where
  position : Position → Option Position
  training : Training → Except StorageError Training

/-- A block as it is written. -/
def RowFormat.block (fmt : RowFormat) (row : StoredBlock) : StoredBlock :=
  { row with position := row.position.bind fmt.position }

/-- What is stored of a project. -/
structure Content where
  name : String
  owner : String
  /-- As it is read. -/
  training : Except StorageError Training
  blocks : List StoredBlock := []
  /-- Oldest first. -/
  edges : List Edge := []

def Graph.addStored (g : Graph) (e : Edge) : Except StorageError Graph :=
  (g.addEdge e).mapError fun e => .reconstruction (.graph e)

/-- The graph of some rows: the blocks in order, then the connections. -/
def Graph.ofRows (blocks : List StoredBlock) (edges : List Edge) : Except StorageError Graph := do
  let g ← blocks.foldlM GraphRows.addBlock .empty
  edges.foldlM Graph.addStored g

namespace StoredEdge

/-- Rows in the order of their ordinals, no two of which are the same. -/
abbrev Ordered (rows : List StoredEdge) : Prop := rows.Pairwise fun a b => a.ordinal < b.ordinal

theorem sorted_eq_self {rows : List StoredEdge} (h : Ordered rows) : sorted rows = rows := by
  apply List.mergeSort_of_pairwise
  apply h.imp
  intro a b hab
  simpa using Int.le_of_lt hab

/-- However the rows are shuffled, sorting puts them in order. -/
theorem sorted_eq_of_perm {rows shuffled : List StoredEdge} (h : Ordered rows)
    (hp : shuffled.Perm rows) : sorted shuffled = rows := mergeSort_eq_of_perm h hp

theorem map_edge_sorted_filter {rows : List StoredEdge} (h : Ordered rows) (holds : Edge → Bool) :
    (sorted (rows.filter (holds ·.edge))).map (·.edge) = (rows.map (·.edge)).filter holds := by
  rw [sorted_eq_self (h.sublist List.filter_sublist), List.filter_map]
  rfl

theorem find?_map_edge (rows : List StoredEdge) (id : EdgeId) :
    (rows.map (·.edge)).find? (·.id = id) = (rows.find? (·.edge.id = id)).map (·.edge) := by
  rw [List.find?_map]
  rfl

theorem le_of_mem_numbered {n : Int} {es : List Edge} :
    ∀ row ∈ numbered n es, n ≤ row.ordinal ∧ row.ordinal < n + es.length := by
  induction es generalizing n with
  | nil => simp [numbered]
  | cons e es ih =>
    intro row hrow
    rw [List.length_cons]
    rcases List.mem_cons.mp hrow with rfl | hrow
    · constructor
      · exact Int.le_refl n
      · change n < _
        omega
    · obtain ⟨h1, h2⟩ := ih row hrow
      omega

theorem ordered_numbered (n : Int) (es : List Edge) : Ordered (numbered n es) := by
  induction es generalizing n with
  | nil => exact List.Pairwise.nil
  | cons e es ih =>
    refine List.pairwise_cons.mpr ⟨?_, ih (n + 1)⟩
    intro row hrow
    have := (le_of_mem_numbered row hrow).1
    change n < row.ordinal
    omega

theorem map_edge_numbered (n : Int) (es : List Edge) : (numbered n es).map (·.edge) = es := by
  induction es generalizing n with
  | nil => rfl
  | cons e es ih => exact congrArg (e :: ·) (ih (n + 1))

theorem length_numbered (n : Int) (es : List Edge) : (numbered n es).length = es.length := by
  rw [← List.length_map (f := (·.edge)), map_edge_numbered]

theorem ordered_concat {rows : List StoredEdge} {n : Int} (h : Ordered rows)
    (hn : ∀ row ∈ rows, row.ordinal < n) (e : Edge) : Ordered (rows ++ [⟨e, n⟩]) := by
  rw [Ordered, List.pairwise_append]
  refine ⟨h, List.pairwise_singleton _ _, ?_⟩
  intro a ha b hb
  obtain rfl : b = ⟨e, n⟩ := by simpa using hb
  exact hn a ha

end StoredEdge

theorem toGraph_eq_ofRows (blocks : List StoredBlock) {edges : List StoredEdge}
    (h : StoredEdge.Ordered edges) :
    GraphRows.toGraph ⟨blocks, edges⟩ = Graph.ofRows blocks (edges.map (·.edge)) := by
  unfold GraphRows.toGraph Graph.ofRows
  simp only [StoredEdge.sorted_eq_self h, List.foldlM_map]
  rfl

namespace Content

variable (fmt : RowFormat)

def hasBlock (p : Content) (id : NodeId) : Bool := p.blocks.any (·.id = id)

def hasEdge (p : Content) (id : EdgeId) : Bool := p.edges.any (·.id = id)

def load (id : ProjectId) (p : Content) : Except StorageError Project := do
  let training ← p.training
  let graph ← Graph.ofRows p.blocks p.edges
  return ⟨id, p.name, p.owner, graph, training⟩

def getNode (id : ProjectId) (node : NodeId) (p : Content) : Except StorageError Node :=
  match p.blocks.find? (·.id = node) with
  | some row => row.toNode
  | none => .error (.nodeNotFound id node)

def getEdge (id : ProjectId) (edge : EdgeId) (p : Content) : Except StorageError Edge :=
  match p.edges.find? (·.id = edge) with
  | some e => .ok e
  | none => .error (.edgeNotFound id edge)

def nodesOfKind (kind : String) (p : Content) : Except StorageError (List Node) :=
  (p.blocks.filter (·.kind = kind)).mapM (·.toNode)

def save (g : Graph) (t : Training) (p : Content) : Content :=
  { p with
    training := fmt.training t
    blocks := g.nodes.map fun n => fmt.block (.ofNode n)
    edges := g.edges }

def insertNode (n : Node) (p : Content) : Except StorageError Content :=
  if p.hasBlock n.id then .error (.integrity (.blockExists n.id))
  else .ok { p with blocks := p.blocks ++ [fmt.block (.ofNode n)] }

def updateNode (id : ProjectId) (n : Node) (p : Content) : Except StorageError Content :=
  if p.hasBlock n.id then
    .ok { p with
      blocks := p.blocks.map fun row => if row.id = n.id then fmt.block (.ofNode n) else row }
  else .error (.nodeNotFound id n.id)

def deleteNode (id : ProjectId) (node : NodeId) (p : Content) : Except StorageError Content :=
  if p.hasBlock node then
    .ok { p with
      blocks := p.blocks.filter (·.id ≠ node)
      edges := p.edges.filter fun e => e.source ≠ node ∧ e.target ≠ node }
  else .error (.nodeNotFound id node)

def insertEdge (e : Edge) (p : Content) : Except StorageError Content :=
  if p.hasEdge e.id then .error (.integrity (.edgeExists e.id))
  else if !p.hasBlock e.source then .error (.integrity (.missingBlock e.id e.source))
  else if !p.hasBlock e.target then .error (.integrity (.missingBlock e.id e.target))
  else .ok { p with edges := p.edges ++ [e] }

def deleteEdge (id : ProjectId) (edge : EdgeId) (p : Content) : Except StorageError Content :=
  if p.hasEdge edge then .ok { p with edges := p.edges.filter (·.id ≠ edge) }
  else .error (.edgeNotFound id edge)

end Content

/-- A store that holds contents, each under the number of its project. -/
structure Contents (fmt : RowFormat) where
  projects : List (ProjectId × Content) := []
  nextId : Int := 1

namespace Contents

variable {fmt : RowFormat} {c : Contents fmt} {id j : ProjectId} {p : Content}

def get (c : Contents fmt) (id : ProjectId) : Except StorageError Content :=
  match c.projects.lookup id with
  | some p => .ok p
  | none => .error (.projectNotFound id)

theorem lookup_map {α β : Type} (f : α → β) (l : List (ProjectId × α)) (id : ProjectId) :
    (l.map fun (i, a) => (i, f a)).lookup id = (l.lookup id).map f := by
  induction l with
  | nil => rfl
  | cons a l ih =>
    rw [List.map_cons, List.lookup_cons, List.lookup_cons, ih]
    cases id == a.1 <;> rfl

theorem lookup_filter_ne {α : Type} (hj : j ≠ id) (l : List (ProjectId × α)) :
    (l.filter (·.1 ≠ id)).lookup j = l.lookup j := by
  rw [lookup_filter (· ≠ id), if_pos (by simpa using hj)]

theorem lookup_put {α : Type} (l : List (ProjectId × α)) (id j : ProjectId) (a : α) :
    (l.map fun (i, b) => if i = id then (i, a) else (i, b)).lookup j =
      (l.lookup j).map fun b => if j = id then a else b := by
  induction l with
  | nil => rfl
  | cons b l ih =>
    obtain ⟨i, b⟩ := b
    rw [List.map_cons, List.lookup_cons, List.lookup_cons]
    by_cases hi : i = id
    · simp only [if_pos hi]
      cases hj : j == i with
      | true =>
        have hji : j = id := (eq_of_beq hj).trans hi
        simp [hji]
      | false => exact ih
    · simp only [if_neg hi]
      cases hj : j == i with
      | true =>
        have hji : j ≠ id := by
          rw [eq_of_beq hj]
          exact hi
        simp [hji]
      | false => exact ih

def put (c : Contents fmt) (id : ProjectId) (p : Content) : Contents fmt :=
  { c with projects := c.projects.map fun (i, q) => if i = id then (i, p) else (i, q) }

/-- Reads from a project. -/
def readFrom {α : Type} (c : Contents fmt) (id : ProjectId) (f : Content → Except StorageError α) :
    Except StorageError α := do f (← c.get id)

/-- Writes to a project. -/
def update (c : Contents fmt) (id : ProjectId) (f : Content → Except StorageError Content) :
    Except StorageError (Contents fmt) := do return c.put id (← f (← c.get id))

def create (c : Contents fmt) (name owner : String) : ProjectId × Contents fmt :=
  (⟨c.nextId⟩,
    { projects := c.projects ++ [(⟨c.nextId⟩, { name, owner, training := fmt.training {} })]
      nextId := c.nextId + 1 })

def delete (c : Contents fmt) (id : ProjectId) : Except StorageError (Contents fmt) := do
  let _ ← c.get id
  return { c with projects := c.projects.filter (·.1 ≠ id) }

def list (c : Contents fmt) (owner : Option String) : List ProjectSummary :=
  (c.projects.filter fun (_, p) => owner.all (p.owner = ·)).map fun (id, p) =>
    ⟨id, p.name, p.owner⟩

instance : ProjectStore (Contents fmt) where
  create c name owner := .ok (c.create name owner)
  load c id := c.readFrom id (·.load id)
  save c id g t := c.update id fun p => .ok (p.save fmt g t)
  delete := delete
  list c owner := .ok (c.list owner)
  insertNode c id n := c.update id (·.insertNode fmt n)
  getNode c id node := c.readFrom id (·.getNode id node)
  updateNode c id n := c.update id (·.updateNode fmt id n)
  deleteNode c id node := c.update id (·.deleteNode id node)
  insertEdge c id e := c.update id (·.insertEdge e)
  getEdge c id edge := c.readFrom id (·.getEdge id edge)
  deleteEdge c id edge := c.update id (·.deleteEdge id edge)
  edgesFrom c id node := c.readFrom id fun p => .ok (p.edges.filter (·.source = node))
  edgesTo c id node := c.readFrom id fun p => .ok (p.edges.filter (·.target = node))
  nodesOfKind c id kind := c.readFrom id (·.nodesOfKind kind)
  training c id := c.readFrom id (·.training)
  setTraining c id t := c.update id fun p => .ok { p with training := fmt.training t }

/-- The contents of all projects are as wanted. -/
def All (P : Content → Prop) (c : Contents fmt) : Prop := ∀ p ∈ c.projects, P p.2

variable {P : Content → Prop} {c d : Contents fmt} {id : ProjectId} {p : Content}

theorem All.get (hc : c.All P) (hp : c.get id = .ok p) : P p := by
  unfold Contents.get at hp
  cases hl : c.projects.lookup id with
  | none => simp [hl] at hp
  | some q =>
    obtain rfl : q = p := by simpa [hl] using hp
    exact hc (id, q) (mem_of_lookup hl)

theorem All.update {f : Content → Except StorageError Content} (hc : c.All P)
    (hf : ∀ p q, P p → f p = .ok q → P q) (hd : c.update id f = .ok d) : d.All P := by
  unfold Contents.update at hd
  obtain ⟨p, hp, hd⟩ := bind_eq_ok_iff.mp hd
  obtain ⟨q, hq, hd⟩ := bind_eq_ok_iff.mp hd
  obtain rfl := pure_eq_ok_iff.mp hd
  intro r hr
  obtain ⟨x, hx, rfl⟩ := List.mem_map.mp hr
  by_cases hi : x.1 = id
  · simpa [hi] using hf p q (hc.get hp) hq
  · simpa [hi] using hc x hx

theorem All.create {name owner : String} (hc : c.All P)
    (hnew : P { name, owner, training := fmt.training {} }) : (c.create name owner).2.All P := by
  intro p hp
  rcases List.mem_append.mp hp with hp | hp
  · exact hc p hp
  · obtain rfl : p = _ := List.mem_singleton.mp hp
    exact hnew

theorem All.delete (hc : c.All P) (hd : c.delete id = .ok d) : d.All P := by
  unfold Contents.delete at hd
  obtain ⟨_, -, hd⟩ := bind_eq_ok_iff.mp hd
  obtain rfl := pure_eq_ok_iff.mp hd
  exact fun q hq => hc q (List.mem_of_mem_filter hq)

end Contents

/-- The project that a call writes to or reads from, when `next` is the next new one. -/
def StoreCall.target? (next : Int) : StoreCall → Option ProjectId
  | .create _ _ => some ⟨next⟩
  | .list _ => none
  | .load p | .save p _ _ | .delete p | .insertNode p _ | .getNode p _ | .updateNode p _
  | .deleteNode p _ | .insertEdge p _ | .getEdge p _ | .deleteEdge p _ | .edgesFrom p _
  | .edgesTo p _ | .nodesOfKind p _ | .training p | .setTraining p _ => some p

/-- A store whose states stand for contents, as long as it is used through its operations. -/
class LawfulStore (σ : Type) [ProjectStore σ] where
  format : RowFormat
  contents : σ → Contents format
  Valid : σ → Prop
  Rows : Type
  /-- All that is stored of a project, as it stands. -/
  rows : σ → ProjectId → Rows
  run_contents : ∀ (s : σ) (call : StoreCall), Valid s →
    call.run (contents s) = ((call.run s).1, contents (call.run s).2)
  valid_run : ∀ (s : σ) (call : StoreCall), Valid s → Valid (call.run s).2
  rows_run : ∀ (s : σ) (call : StoreCall) (id : ProjectId), Valid s →
    call.target? (contents s).nextId ≠ some id → rows (call.run s).2 id = rows s id
  get_next : ∀ s : σ, Valid s →
    (contents s).get ⟨(contents s).nextId⟩ = .error (.projectNotFound ⟨(contents s).nextId⟩)

/-- A valid store with the rows of another one, except those of a project. -/
structure Beside {σ ρ : Type} (Valid : σ → Prop) (rows : σ → ProjectId → ρ) (s : σ) (id : ProjectId)
    (t : σ) : Prop where
  valid : Valid t
  rows_eq : ∀ j, j ≠ id → rows t j = rows s j

/-- A write to a store does what the same write does to its contents, and has the store as wanted. -/
structure Mirrors {σ τ : Type} (contents : σ → τ) (Wanted : σ → Prop) (r : Except StorageError σ)
    (k : Except StorageError τ) : Prop where
  eq_map : k = r.map contents
  wanted : ∀ t, r = .ok t → Wanted t

namespace Contents

variable {fmt : RowFormat} {σ π α : Type} {id : ProjectId} {found : Except StorageError π}
  {content : π → Content}

/-- A read that looks at a project only. -/
theorem readFrom_eq {c : Contents fmt} {f : π → Except StorageError α}
    {k : Content → Except StorageError α} (hget : c.get id = found.map content)
    (hk : ∀ p, found = .ok p → k (content p) = f p) : c.readFrom id k = found >>= f := by
  unfold readFrom
  rw [hget]
  cases hp : found with
  | error e => rfl
  | ok p => exact hk p hp

/-- A write to one project, by what it does once it has found it. -/
theorem mirrors_update {contents : σ → Contents fmt} {Wanted : σ → Prop} {s : σ}
    {r : Except StorageError σ} {k : Content → Except StorageError Content}
    (hget : (contents s).get id = found.map content)
    (herror : ∀ e, found = .error e → r = .error e)
    (hok : ∀ p, found = .ok p →
      Mirrors contents Wanted r ((k (content p)).map ((contents s).put id))) :
    Mirrors contents Wanted r ((contents s).update id k) := by
  unfold update
  rw [hget]
  cases hp : found with
  | error e =>
    rw [herror e hp]
    exact ⟨rfl, nofun⟩
  | ok p =>
    have h := hok p hp
    change Mirrors contents Wanted r (k (content p) >>= fun q => .ok ((contents s).put id q))
    cases hk : k (content p) with
    | error e =>
      rw [hk] at h
      exact h
    | ok q =>
      rw [hk] at h
      exact h

end Contents

namespace StoreCall

variable {σ τ ρ : Type} {contents : σ → τ} {Valid : σ → Prop} {rows : σ → ProjectId → ρ} {s : σ}

theorem write_contents {id : ProjectId} {r : Except StorageError σ} {k : Except StorageError τ}
    (h : Mirrors contents (Beside Valid rows s id) r k) (hs : Valid s) :
    write (contents s) k = ((write s r).1, contents (write s r).2) ∧ Valid (write s r).2 ∧
      ∀ j, some id ≠ some j → rows (write s r).2 j = rows s j := by
  obtain ⟨rfl, hw⟩ := h
  cases r with
  | error e => exact ⟨rfl, hs, fun _ _ => rfl⟩
  | ok t =>
    obtain ⟨hv, hrows⟩ := hw t rfl
    exact ⟨rfl, hv, fun j hj => hrows j fun h => hj (congrArg some h.symm)⟩

theorem read_contents {α : Type} {reply : α → StoreReply} {a b : Except StorageError α}
    {target : Option ProjectId} (h : b = a) (hs : Valid s) :
    read (contents s) reply b = ((read s reply a).1, contents (read s reply a).2) ∧
      Valid (read s reply a).2 ∧
      ∀ j, target ≠ some j → rows (read s reply a).2 j = rows s j :=
  ⟨by rw [h]; rfl, hs, fun _ _ => rfl⟩

end StoreCall

end LayerGraph
