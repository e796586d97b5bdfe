import LayerGraph.Blake3
import LayerGraph.GraphCodec
import LayerGraph.JsonPrinter

namespace LayerGraph

def textBytes (s : String) : List UInt8 := s.toUTF8.data.toList

def hexText (bytes : List UInt8) : String :=
  String.ofList (bytes.flatMap fun b =>
    [Nat.digitChar (b.toNat / 16), Nat.digitChar (b.toNat % 16)])

/-- What the digest of a block covers: all but its position. -/
def Node.content (n : Node) : List UInt8 :=
  textBytes n.id.text ++ [0] ++ Blake3.wordBytes n.sequenceIndex ++ textBytes n.label ++ [0] ++
    textBytes n.block.toJson.text

def Edge.content (e : Edge) : List UInt8 :=
  textBytes e.id.text ++ [0] ++ textBytes e.source.text ++ [0] ++ textBytes e.target.text ++ [1]

namespace Graph

def sortedNodes (g : Graph) : List Node := g.nodes.mergeSort fun m n => m.id.text ≤ n.id.text

/-- The digests of the blocks in the order of their ids, then the connections and the settings. -/
def content (digest : List UInt8 → List UInt8) (g : Graph) (t : Training) : List UInt8 :=
  g.sortedNodes.flatMap (digest ·.content) ++ g.edges.flatMap (·.content) ++
    textBytes t.toJson.text

def revisionBy (digest : List UInt8 → List UInt8) (g : Graph) (t : Training) : String :=
  hexText (digest (g.content digest t))

def revision (g : Graph) (t : Training) : String := g.revisionBy Blake3.hash t

end Graph

def Node.revision (n : Node) : String := hexText (Blake3.hash n.content)

end LayerGraph
