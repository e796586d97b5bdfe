import LayerGraph.Graph

namespace LayerGraph

/--
What a walk visits, in order. The first of the stack is visited next unless it is not, or no longer,
among the unseen; then its successors go on top.
-/
def walk {α : Type} [DecidableEq α] (next : α → List α) (unseen stack : List α) : List α :=
  match stack with
  | [] => []
  | x :: rest =>
    if x ∈ unseen then x :: walk next (unseen.erase x) (next x ++ rest) else walk next unseen rest
termination_by (unseen.length, stack.length)
decreasing_by
  · apply Prod.Lex.left
    rw [List.length_erase_of_mem ‹_›]
    have := List.length_pos_of_mem ‹x ∈ unseen›
    omega
  · apply Prod.Lex.right
    simp

namespace Graph

def ids (g : Graph) : List NodeId := g.nodes.map (·.id)

/-- Blocks of unregistered kinds, and ids that no block has. -/
def isPlaceholder (g : Graph) (id : NodeId) : Bool :=
  match g.node? id with
  | some n => n.isPlaceholder
  | none => true

/-- The placeholders that a walk from a registered block comes to through placeholders only. -/
def fedPlaceholders (g : Graph) : List NodeId :=
  let next (id : NodeId) := (g.successors id).filter g.isPlaceholder
  walk next g.ids ((g.nodes.filter (!·.isPlaceholder)).flatMap (next ·.id))

/--
The registered blocks that nothing leads to. What comes out of a placeholder leads somewhere only
when something leads to the placeholder.
-/
def startCandidates (g : Graph) : List NodeId :=
  let fed := g.fedPlaceholders
  (g.nodes.filter fun n => !n.isPlaceholder && (g.incoming n.id).all fun e =>
    g.isPlaceholder e.source && !fed.contains e.source).map (·.id)

/-- The only candidate, or all of them in the order of their ids. -/
def findStart (g : Graph) : Except (List NodeId) NodeId :=
  match g.startCandidates with
  | [id] => .ok id
  | ids => .error (ids.mergeSort fun a b => a.text ≤ b.text)

def reach (g : Graph) (start : NodeId) : List NodeId := walk g.successors g.ids [start]

end Graph

end LayerGraph
