import LayerGraph.Reconcile

namespace LayerGraph

def Kind.numberedId (k : Kind) (n : Nat) : NodeId := ⟨s!"{k.stem}-{n}"⟩

/-- The first that is free from `a` on, among `limit` that are looked at. -/
def firstFree {α : Type} (taken : α → Bool) (next : α → α) : (limit : Nat) → (a : α) → α
  | 0, a => a
  | limit + 1, a => if taken a then firstFree taken next limit (next a) else a

namespace Graph

def countKind (g : Graph) (k : Kind) : Nat := g.nodes.countP (·.kind? = some k)

def idIsTaken (g : Graph) (k : Kind) (n : Nat) : Bool := g.contains (k.numberedId n)

/-- A numbered id that is free; numbers start behind the number of blocks of the kind. -/
def freshId (g : Graph) (k : Kind) : NodeId :=
  k.numberedId (firstFree (g.idIsTaken k) (· + 1) g.nodes.length (g.countKind k + 1))

def columnGap : Float := 350

def rowGap : Float := 150

def topRow (k : Kind) : Float := if k.family = some .spatial then 300 else 100

def positions (g : Graph) : List Position := g.nodes.filterMap (·.position)

/-- The larger of two coordinates, or the other one if one is not a number. -/
def larger (a b : Float) : Float := if a.isNaN || a < b then b else a

def freeColumn (g : Graph) : Float :=
  match g.positions.map (·.x) with
  | [] => 0
  | x :: xs => xs.foldl larger x + columnGap

def rowIsTaken (g : Graph) (y : Float) : Bool := g.positions.any (·.y == y)

def placement (g : Graph) (k : Kind) : Position :=
  ⟨g.freeColumn, firstFree g.rowIsTaken (· + rowGap) g.nodes.length (topRow k)⟩

def hiddenIndex (g : Graph) : UInt32 :=
  match (g.members .neural).find? (·.kind? = some .output) with
  | some n => n.sequenceIndex
  | none => g.nextSequenceIndex .neural

def sizeBelow? (g : Graph) (i : UInt32) : Option UInt32 := do
  (← ((g.members .neural).filter (·.sequenceIndex < i)).getLast?).block.sizeOut?

def insertionIndex (g : Graph) : Kind → UInt32
  | .input => 0
  | .hidden => g.hiddenIndex
  | .output => g.nextSequenceIndex .neural
  | .convolutional | .pooling => g.nextSequenceIndex .spatial
  | .classifier | .training | .start => 0

/-- A new block of the kind, with sizes taken from its neighbours. -/
def seeded (g : Graph) (c : ShapeConfig) : Kind → Block
  | .input =>
    let size := (g.flattened? c).getD 12
    .input ⟨size, max (size / 4) 64⟩
  | .hidden =>
    let size := (g.sizeBelow? g.hiddenIndex).getD 12
    .hidden ⟨size, max (size / 2) 4, .relu⟩
  | .output =>
    let size := ((g.members .neural).getLast?.bind (·.block.sizeOut?)).getD 8
    .output ⟨size, max (size / 2) 1⟩
  | .convolutional =>
    let channels := g.lastChannels?.getD c.inputChannels
    .convolutional ⟨channels, saturate (channels.toNat * 2), 3, 1⟩
  | .pooling => .pooling ⟨g.lastChannels?.getD 32, 2, 2, .max⟩
  | k => .ofKind k

/-- The graph with room for a new block of the kind; only inputs and hidden blocks need some. -/
def roomFor (g : Graph) : Kind → Graph
  | .input => g.makeRoom .neural 0
  | .hidden => g.makeRoom .neural g.hiddenIndex
  | _ => g

/--
Inserts a block of the kind and reconciles the graph. Inputs come first in their family, hidden
blocks before the output, all others last.
-/
def insert (g : Graph) (k : Kind) (id? : Option NodeId) (c : ShapeConfig) :
    Except GraphError (NodeId × Graph) := do
  let id := id?.getD (g.freshId k)
  if g.contains id then throw (.duplicateNode id)
  let node := { Node.new id (g.insertionIndex k) (g.seeded c k) with position := g.placement k }
  let inserted ← (g.roomFor k).add node
  return (id, (inserted.reconcile c).1)

end Graph

end LayerGraph
