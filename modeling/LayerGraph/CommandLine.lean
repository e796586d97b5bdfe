import LayerGraph.IntegerText
import LayerGraph.ShapeConfig
import LayerGraph.StorageError

namespace LayerGraph

inductive Source where
  | archive (path : String) (project : ProjectId)
  | file (path : String)
  deriving DecidableEq, Inhabited

inductive Action where
  /-- A strict compilation fails when a shape is wrong. -/
  | compile (strict : Bool)
  | check
  deriving DecidableEq, Inhabited

inductive Command where
  | inspect (action : Action) (source : Source) (shape : ShapeConfig)
  | listBlocks
  deriving DecidableEq, Inhabited

inductive Usage where
  | help
  | refused
  deriving DecidableEq, Inhabited

def Usage.exitCode : Usage → Nat
  | .help => 0
  | .refused => 2

inductive CommandName where
  | compile
  | check
  | blocks
  deriving DecidableEq, Inhabited

namespace CommandName

def all : List CommandName := [.compile, .check, .blocks]

def name : CommandName → String
  | .compile => "compile"
  | .check => "check"
  | .blocks => "blocks"

def ofName? (s : String) : Option CommandName := all.find? (·.name = s)

end CommandName

inductive Switch where
  | db
  | project
  | file
  | spatialSize
  | channels
  | classes
  | strict
  deriving DecidableEq, Inhabited

namespace Switch

def name : Switch → String
  | .db => "db"
  | .project => "project"
  | .file => "file"
  | .spatialSize => "spatial-size"
  | .channels => "channels"
  | .classes => "classes"
  | .strict => "strict"

def letter? : Switch → Option Char
  | .db => some 'd'
  | .project => some 'p'
  | .file => some 'f'
  | _ => none

def takesValue (s : Switch) : Bool := s ≠ .strict

end Switch

def CommandName.switches : CommandName → List Switch
  | .compile => [.db, .project, .file, .spatialSize, .channels, .classes, .strict]
  | .check => [.db, .project, .file, .spatialSize, .channels, .classes]
  | .blocks => []

structure Settings where
  db : Option String := none
  project : Option Int := none
  file : Option String := none
  spatialSize : Option UInt32 := none
  channels : Option UInt32 := none
  classes : Option UInt32 := none
  strict : Option Unit := none
  deriving DecidableEq, Inhabited

namespace Settings

/-- A value for a switch that has none yet. -/
def once {α : Type} (old new : Option α) : Except Usage (Option α) :=
  match old, new with
  | none, some a => .ok (some a)
  | _, _ => .error .refused

def size? (value : String) : Option UInt32 := do
  let n ← int64? value.toList
  if 0 ≤ n && n < 2 ^ 32 then some n.toNat.toUInt32 else none

def set (s : Settings) (value : String) : Switch → Except Usage Settings
  | .db => return { s with db := ← once s.db (some value) }
  | .project => return { s with project := ← once s.project (int64? value.toList) }
  | .file => return { s with file := ← once s.file (if value.isEmpty then none else some value) }
  | .spatialSize => return { s with spatialSize := ← once s.spatialSize (size? value) }
  | .channels => return { s with channels := ← once s.channels (size? value) }
  | .classes => return { s with classes := ← once s.classes (size? value) }
  | .strict => return { s with strict := ← once s.strict (some ()) }

def source (s : Settings) : Except Usage Source :=
  match s.db, s.project, s.file with
  | some path, some id, none => .ok (.archive path ⟨id⟩)
  | none, _, some path => .ok (.file path)
  | _, _, _ => .error .refused

def shape (s : Settings) : ShapeConfig :=
  let d : ShapeConfig := {}
  { initialSpatialSize := s.spatialSize.getD d.initialSpatialSize
    inputChannels := s.channels.getD d.inputChannels
    outputClasses := s.classes.getD d.outputClasses }

end Settings

inductive Word where
  | long (name : List Char) (value : Option (List Char))
  | short (letter : Char) (value : Option (List Char))
  /-- Two hyphens: no switches follow. -/
  | endOfSwitches
  | plain
  deriving DecidableEq, Inhabited

namespace Word

/-- The value of a long form stands behind an equals sign. -/
def ofLong (cs : List Char) : Word :=
  let value := match cs.dropWhile (· ≠ '=') with
    | '=' :: v => some v
    | _ => none
  .long (cs.takeWhile (· ≠ '=')) value

/-- The value of a short form stands right behind it, or behind an equals sign. -/
def ofShort (c : Char) : List Char → Word
  | [] => .short c none
  | '=' :: v => .short c (some v)
  | v => .short c (some v)

def ofChars : List Char → Word
  | ['-', '-'] => .endOfSwitches
  | '-' :: '-' :: cs => ofLong cs
  | '-' :: c :: cs => ofShort c cs
  | _ => .plain

def asksForHelp : Word → Bool
  | .long name none => name = "help".toList
  | .short 'h' _ => true
  | _ => false

/-- The switch of those known, and the value given with it. -/
def switch? (known : List Switch) : Word → Option (Switch × Option (List Char))
  | .long name value => (known.find? (·.name.toList = name)).map fun s => (s, value)
  | .short letter value => (known.find? (·.letter? = some letter)).map fun s => (s, value)
  | _ => none

end Word

namespace Settings

/-- Reads arguments from left to right; `pending` is a switch that waits for its value. -/
def read (known : List Switch) : (pending : Option Switch) → Settings → List String →
    Except Usage Settings
  | none, s, [] => .ok s
  | some _, _, [] => .error .refused
  | some switch, s, arg :: args =>
    if .ofChars arg.toList = Word.plain then do read known none (← s.set arg switch) args
    else .error .refused
  | none, s, arg :: args =>
    let word := Word.ofChars arg.toList
    if word = .endOfSwitches then if args.isEmpty then .ok s else .error .refused
    else if word.asksForHelp then .error .help
    else match word.switch? known with
      | none => .error .refused
      | some (switch, some value) =>
        if switch.takesValue then do read known none (← s.set (.ofList value) switch) args
        else .error .refused
      | some (switch, none) =>
        if switch.takesValue then read known (some switch) s args
        else do read known none (← s.set "" switch) args

end Settings

namespace Command

def ofSettings (s : Settings) : CommandName → Except Usage Command
  | .compile => return .inspect (.compile s.strict.isSome) (← s.source) s.shape
  | .check => return .inspect .check (← s.source) s.shape
  | .blocks => .ok .listBlocks

def help : List String → Usage
  | [] => .help
  | [topic] => if topic = "help" || (CommandName.ofName? topic).isSome then .help else .refused
  | _ => .refused

def ofArguments : List String → Except Usage Command
  | [] => .error .refused
  | "help" :: topics => .error (help topics)
  | arg :: args =>
    match CommandName.ofName? arg with
    | some name => do ofSettings (← Settings.read name.switches none {} args) name
    | none => .error (if (Word.ofChars arg.toList).asksForHelp then .help else .refused)

end Command

end LayerGraph
