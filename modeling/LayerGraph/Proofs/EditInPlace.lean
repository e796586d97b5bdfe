import LayerGraph.Edit
import LayerGraph.Proofs.WellFormed

namespace LayerGraph

/-- The end of a step in place that leaves everything as it was when it fails. -/
def allOrNothing {ε σ α : Type} (s : σ) : Except ε (α × σ) → EStateM.Result ε σ α
  | .ok (a, t) => .ok a t
  | .error e => .error e s

/-- Puts a block into the slot of a node, which may take it to another family. -/
def Graph.putBlock (g : Graph) (n : Node) (block : Block) : Graph :=
  let g := g.mapNode n.id ({ · with block })
  if block.family? = n.family? then g else (g.unfile n.id).file { n with block }

namespace InPlace

def setParam (name : String) (v : ParamValue) : EStateM GraphError Block Unit := do
  let b ← get
  match b.kind? with
  | none => throw (.unknownKind b.kindName)
  | some k =>
    match k.param? name with
    | none => throw (.unknownParameter k.name name)
    | some spec =>
      if !spec.editable then throw (.readOnlyParameter k.name name)
      ofExcept (spec.check v)
      set (b.writeChecked name v)

/-- What was made of the block stays, also when `f` fails. -/
def modifyBlock (id : NodeId) (f : EStateM GraphError Block Unit) :
    EStateM GraphError Graph Unit := do
  let n ← ofExcept ((← get).get id)
  match f.run n.block with
  | .ok _ block => modify (·.putBlock n block)
  | .error e block =>
    modify (·.putBlock n block)
    throw e

/-- Sets a registered parameter; gives what followed at once. -/
def editParam (n : Node) (param : String) (value : ParamValue) (c : ShapeConfig) :
    EStateM GraphError Graph (List Adjustment) := do
  if param = Param.sizeIn.name && (← get).sizeInIsDerived n c then
    throw (.readOnlyParameter n.block.kindName param)
  modifyBlock n.id (setParam param value)
  let m ← ofExcept ((← get).get n.id)
  modifyGet fun g => (g.assignAll (g.cascade m param c)).swap

/-- Makes the change that was asked for; gives the value before and what followed at once. -/
def change (n : Node) (param : String) (value : ParamValue) (c : ShapeConfig) :
    EStateM GraphError Graph (Option ParamValue × List Adjustment) := do
  match param with
  | "sequenceIndex" =>
    match value.uint32? with
    | none => throw (.invalidParameter param (.notNonNegativeInteger value))
    | some i =>
      set (← ofExcept ((← get).setSequenceIndex n.id i))
      return (some (.ofUInt32 n.sequenceIndex), [])
  | "label" =>
    match value.text? with
    | none => throw (.invalidParameter param (.notText value))
    | some label =>
      set (← ofExcept ((← get).setLabel n.id label))
      return (some (.text n.label), [])
  | _ => return (n.block.get? param, ← editParam n param value c)

def edit (id : NodeId) (param : String) (value : ParamValue) (c : ShapeConfig) :
    EStateM GraphError Graph EditOutcome := do
  let n ← ofExcept ((← get).get id)
  if n.isPlaceholder then throw (.unknownKind n.block.kindName)
  let (previous, followed) ← change n param value c
  let adjustments ← modifyGet fun g => (g.reconcile c).swap
  return ⟨id, param, previous, value, followed ++ adjustments⟩

end InPlace

variable {g : Graph} {id : NodeId} {n : Node}

theorem run_ofExcept {ε σ α : Type} (r : Except ε α) (s : σ) :
    (ofExcept r : EStateM ε σ α).run s = allOrNothing s (r.map (·, s)) := by
  cases r <;> rfl

/-- Reading the state first changes nothing, also when there is nothing to be read. -/
theorem run_get_ofExcept {ε σ α β : Type} (r : σ → Except ε α) (f : α → EStateM ε σ β) (s : σ) :
    (get >>= fun s => ofExcept (r s) >>= f : EStateM ε σ β).run s =
      match r s with
      | .ok a => (f a).run s
      | .error e => .error e s := by
  rw [EStateM.run_bind, EStateM.run_get]
  dsimp only
  rw [EStateM.run_bind, run_ofExcept]
  cases r s <;> rfl

theorem run_setParam (name : String) (v : ParamValue) (b : Block) :
    (InPlace.setParam name v).run b = allOrNothing b ((b.set name v).map ((), ·)) := by
  unfold InPlace.setParam Block.set
  rw [EStateM.run_bind, EStateM.run_get]
  dsimp only
  cases b.kind? with
  | none => rfl
  | some k =>
    dsimp only
    cases k.param? name with
    | none => rfl
    | some spec =>
      dsimp only
      cases spec.editable with
      | false => rfl
      | true =>
        rw [Bool.not_true, if_neg Bool.false_ne_true, if_neg Bool.false_ne_true,
          EStateM.run_bind, run_ofExcept]
        cases spec.check v <;> rfl

theorem Graph.modifyBlock_eq_map (hn : g.node? id = some n) (k : Block → Except GraphError Block) :
    g.modifyBlock id k = (k n.block).map (g.putBlock n) := by
  obtain rfl := node?_id hn
  unfold modifyBlock
  rw [get_eq_ok_iff.mpr hn]
  cases hk : k n.block <;> simp [bind, Except.bind, hk, Except.map, putBlock, pure, Except.pure]

theorem Graph.putBlock_self (hg : g.WellFormed) (hn : g.node? id = some n) :
    g.putBlock n n.block = g := by
  have hself : g.mapNode n.id ({ · with block := n.block }) = g := by
    apply mapNode_eq_self
    intro m hm hi
    rw [eq_of_node? hg.ids_nodup hn hm (hi.trans (node?_id hn))]
  unfold putBlock
  rw [hself]
  exact if_pos rfl

/-- The node is still there. -/
theorem Graph.exists_get_putBlock (hn : g.node? id = some n) (block : Block) :
    ∃ m, (g.putBlock n block).get id = .ok m := by
  have hni := node?_id hn
  have hmem : { n with block } ∈ (g.mapNode n.id ({ · with block })).nodes :=
    mem_nodes_mapNode (f := ({ · with block })) (hni.symm ▸ hn)
  have hcontains : (g.putBlock n block).contains id = true := by
    apply contains_iff.mpr
    refine ⟨{ n with block }, ?_, hni⟩
    unfold putBlock
    dsimp only
    split
    · exact hmem
    · rw [nodes_file]
      exact hmem
  obtain ⟨m, hm⟩ := Option.isSome_iff_exists.mp hcontains
  exact ⟨m, get_eq_ok_iff.mpr hm⟩

/-- A change of the block that writes all or nothing is one of the graph that does. -/
theorem run_modifyBlock {f : EStateM GraphError Block Unit} {k : Block → Except GraphError Block}
    (hg : g.WellFormed) (hf : ∀ b, f.run b = allOrNothing b ((k b).map ((), ·))) (id : NodeId) :
    (InPlace.modifyBlock id f).run g = allOrNothing g ((g.modifyBlock id k).map ((), ·)) := by
  unfold InPlace.modifyBlock
  rw [run_get_ofExcept]
  cases hn : g.node? id with
  | none =>
    unfold Graph.modifyBlock Graph.get
    rw [hn]
    rfl
  | some n =>
    rw [Graph.get_eq_ok_iff.mpr hn, Graph.modifyBlock_eq_map hn]
    dsimp only [Except.map, allOrNothing]
    rw [hf]
    cases k n.block with
    | ok block => rfl
    | error e => exact congrArg (EStateM.Result.error e) (Graph.putBlock_self hg hn)

/-- The value is the last thing to be refused: behind the write, nothing fails. -/
theorem run_editParam (hg : g.WellFormed) (hn : g.node? id = some n) (param : String)
    (value : ParamValue) (c : ShapeConfig) :
    (InPlace.editParam n param value c).run g =
      allOrNothing g ((g.editParam n param value c).map Prod.swap) := by
  obtain rfl := Graph.node?_id hn
  unfold InPlace.editParam Graph.editParam
  rw [EStateM.run_bind, EStateM.run_get]
  dsimp only
  split
  · rfl
  · rw [EStateM.run_bind, run_modifyBlock hg (run_setParam param value),
      Graph.modifyBlock_eq_map hn]
    cases n.block.set param value with
    | error e => rfl
    | ok block =>
      obtain ⟨m, hm⟩ := Graph.exists_get_putBlock hn block
      dsimp only [Except.map, allOrNothing]
      rw [run_get_ofExcept, hm]
      change _ = allOrNothing g (Except.map Prod.swap
        ((g.putBlock n block).get n.id >>= fun n => _))
      rw [hm]
      rfl

theorem run_change (hg : g.WellFormed) (hn : g.node? id = some n) (param : String)
    (value : ParamValue) (c : ShapeConfig) :
    (InPlace.change n param value c).run g = allOrNothing g ((g.change n param value c).map
      fun (previous, h, followed) => ((previous, followed), h)) := by
  obtain rfl := Graph.node?_id hn
  unfold InPlace.change
  split
  · unfold Graph.change
    cases value.uint32? with
    | none => rfl
    | some i =>
      dsimp only
      rw [run_get_ofExcept]
      cases g.setSequenceIndex n.id i <;> rfl
  · unfold Graph.change
    cases value.text? with
    | none => rfl
    | some label =>
      dsimp only
      rw [run_get_ofExcept]
      cases g.setLabel n.id label <;> rfl
  · have hchange : g.change n param value c =
        do return (n.block.get? param, ← g.editParam n param value c) := by
      unfold Graph.change
      split
      · contradiction
      · contradiction
      · rfl
    rw [EStateM.run_bind, run_editParam hg hn, hchange]
    cases g.editParam n param value c <;> rfl

theorem run_edit (hg : g.WellFormed) (id : NodeId) (param : String) (value : ParamValue)
    (c : ShapeConfig) :
    (InPlace.edit id param value c).run g = allOrNothing g (g.edit id param value c) := by
  unfold InPlace.edit Graph.edit
  rw [run_get_ofExcept]
  cases hget : g.get id with
  | error e => rfl
  | ok n =>
    change (if n.isPlaceholder = true then _ else _ : EStateM GraphError Graph _).run g =
      allOrNothing g (if n.isPlaceholder = true then _ else _)
    split
    · rfl
    · rw [EStateM.run_bind, run_change hg (Graph.get_eq_ok_iff.mp hget)]
      cases g.change n param value c <;> rfl

end LayerGraph
