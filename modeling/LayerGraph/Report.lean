import LayerGraph.CommandLine
import LayerGraph.Compile
import LayerGraph.JsonPrinter
import LayerGraph.ProjectStore
import LayerGraph.Reconcile

namespace LayerGraph

structure Loaded where
  graph : Graph
  training : Training
  deriving DecidableEq, Inhabited

inductive LoadError where
  | unreadableFile (path reason : String)
  | invalidGraph (path : String)
  | unreadableArchive (path : String) (e : StorageError)
  | unreadableProject (id : ProjectId) (e : StorageError)
  deriving DecidableEq

def LoadError.message : LoadError → String
  | .unreadableFile path reason => s!"failed to read '{path}': {reason}"
  | .invalidGraph path => s!"'{path}' is not a valid graph: the text is not that of one"
  | .unreadableArchive path e => s!"failed to open database '{path}': {e.message}"
  | .unreadableProject id e => s!"failed to load project {id.number}: {e.message}"

namespace Loaded

/-- A graph in a file comes without training settings. -/
def ofText (path text : String) : Except LoadError Loaded := do
  let graph ← (Decoder.ofText Graph.decoder text).mapError fun _ => .invalidGraph path
  return ⟨graph, {}⟩

def ofStore {σ : Type} [ProjectStore σ] (store : σ) (id : ProjectId) : Except LoadError Loaded := do
  let p ← (ProjectStore.load store id).mapError (.unreadableProject id)
  return ⟨p.graph, p.training⟩

end Loaded

/-- The texts that go to the output and to the error output, each with a line break behind it. -/
structure Report where
  exitCode : Nat
  output : List String
  errors : List String
  deriving DecidableEq, Inhabited

namespace Report

def compileFailed : Nat := 1
def shapesWrong : Nat := 2
def notLoaded : Nat := 3

def noteOf (a : Adjustment) : String :=
  s!"note: {a.node.text}.{a.param} reconciled {a.old} -> {a.new}"

def compileErrorText : CompileError → String
  | .ambiguousStart ids =>
    let names := ", ".intercalate (ids.map (·.text))
    s!"expected exactly one start block, found {ids.length} [{names}]"
  | e => e.message

def skippedWarning (s : SkippedBlock) : String :=
  s!"warning: skipped block {s.id.text} of unknown kind '{s.kind}'"

def unreachableWarning (id : NodeId) : String :=
  s!"warning: layer {id.text} is not reachable from the start block"

def violationWarning (v : Violation) : String := s!"warning: {v.message}"

def warnings (c : Compilation) : List String :=
  c.skipped.map skippedWarning ++ c.unreachable.map unreachableWarning ++
    c.warnings.map violationWarning

def checkFailed (vs : List Violation) : String :=
  s!"Shape check failed with {vs.length} violation(s)"

def ofCompilation (strict : Bool) : Except CompileError Compilation → Report
  | .error e => ⟨compileFailed, [], ["Compilation error: " ++ compileErrorText e]⟩
  | .ok c =>
    if strict && !c.warnings.isEmpty then ⟨shapesWrong, [], warnings c ++ [checkFailed c.warnings]⟩
    else ⟨0, [c.model.toJson.indented], warnings c⟩

def ofViolations (g : Graph) (vs : List Violation) : Report :=
  if vs.isEmpty then ⟨0, [s!"ok: {g.nodes.length} block(s), no shape violations"], []⟩
  else ⟨shapesWrong, vs.map (·.message), [checkFailed vs]⟩

def ofGraph (action : Action) (shape : ShapeConfig) (g : Graph) (training : Training) : Report :=
  match action with
  | .compile strict => ofCompilation strict (g.compile training { shape })
  | .check => ofViolations g (g.validate shape)

def ofAction (action : Action) (shape : ShapeConfig) : Except LoadError Loaded → Report
  | .error e => ⟨notLoaded, [], ["Error: " ++ e.message]⟩
  | .ok loaded =>
    let (g, adjustments) := loaded.graph.reconcile shape
    let report := ofGraph action shape g loaded.training
    { report with errors := adjustments.map noteOf ++ report.errors }

def column (width : Nat) (s : String) : String := s ++ .ofList (List.replicate (width - s.length) ' ')

def paramText (p : ParamSpec) : String :=
  if p.editable then p.param.name else p.param.name ++ " (derived)"

def kindLine (k : Kind) : String :=
  let family := (k.family.map (·.name)).getD "-"
  let layer := if k.isLayer then "layer" else "meta"
  " ".intercalate
    [column 20 k.name, column 10 family, column 8 layer,
     ", ".intercalate (k.params.map paramText)]

def blocks : Report := ⟨0, Kind.all.map kindLine, []⟩

end Report

end LayerGraph
