namespace LayerGraph

/-- Layers of one family form a chain; their sequence indices are numbered on their own. -/
inductive Family where
  | neural
  | spatial
  deriving DecidableEq, Inhabited

namespace Family

def name : Family → String
  | .neural => "neural"
  | .spatial => "spatial"

def title : Family → String
  | .neural => "Neural"
  | .spatial => "Spatial"

def ofName? : String → Option Family
  | "neural" => some .neural
  | "spatial" => some .spatial
  | _ => none

end Family

inductive Kind where
  | input
  | hidden
  | output
  | convolutional
  | pooling
  | classifier
  | training
  | start
  deriving DecidableEq, Inhabited

namespace Kind

/-- The kinds in the order of the palette. -/
def all : List Kind :=
  [.input, .hidden, .output, .convolutional, .pooling, .classifier, .training, .start]

/-- The type string that the editor writes. -/
def name : Kind → String
  | .input => "inputBlock"
  | .hidden => "hiddenBlock"
  | .output => "outputBlock"
  | .convolutional => "convolutionalBlock"
  | .pooling => "poolingBlock"
  | .classifier => "classifierBlock"
  | .training => "trainingBlock"
  | .start => "startBlock"

/-- Two kinds have an older type string too. -/
def ofName? : String → Option Kind
  | "inputBlock" => some .input
  | "hiddenBlock" => some .hidden
  | "outputBlock" => some .output
  | "convolutionalBlock" | "convBlock" => some .convolutional
  | "poolingBlock" => some .pooling
  | "classifierBlock" | "classifierBlocks" => some .classifier
  | "trainingBlock" => some .training
  | "startBlock" => some .start
  | _ => none

def label : Kind → String
  | .input => "Input Layer"
  | .hidden => "Hidden Layer"
  | .output => "Output Layer"
  | .convolutional => "Convolutional Layer"
  | .pooling => "Pooling Layer"
  | .classifier => "Classifier"
  | .training => "Training"
  | .start => "Start"

def family : Kind → Option Family
  | .input | .hidden | .output => some .neural
  | .convolutional | .pooling => some .spatial
  | .classifier | .training | .start => none

/-- Control blocks shape the traversal; the others become layers of the model. -/
def isLayer (k : Kind) : Bool := k.family.isSome

def stem : Kind → String
  | .input => "input"
  | .hidden => "hidden"
  | .output => "output"
  | .convolutional => "conv"
  | .pooling => "pool"
  | .classifier => "classifier"
  | .training => "training"
  | .start => "start"

end Kind

end LayerGraph
