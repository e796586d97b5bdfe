import LayerGraph.JsonReader

namespace LayerGraph

inductive Fault where
  /-- The text is not JSON. -/
  | malformed
  /-- The JSON does not fit the type. -/
  | mismatch
  deriving DecidableEq, Inhabited

namespace Document

mutual

def ofJson : Json → Document
  | .null => .null
  | .bool b => .bool b
  | .int n => .int n
  | .float x => .float x
  | .string s => .string s
  | .array items => .array (ofItems items) .closed
  | .object members => .object (ofMembers members) .closed

def ofItems : List Json → List Document
  | [] => []
  | x :: xs => ofJson x :: ofItems xs

def ofMembers : List (String × Json) → List (String × Document)
  | [] => []
  | (k, x) :: ms => (k, ofJson x) :: ofMembers ms

end

mutual

/-- Whether the text goes on after the value; a value that is not needed may be unreadable. -/
def isSound : Document → Bool
  | .array items ending => itemsAreSound items && ending != .broken
  | .object members ending => membersAreSound members && ending != .broken
  | .broken => false
  | _ => true

def itemsAreSound : List Document → Bool
  | [] => true
  | d :: ds => d.isSound && itemsAreSound ds

def membersAreSound : List (String × Document) → Bool
  | [] => true
  | (_, d) :: ms => d.isSound && membersAreSound ms

end

def skip (d : Document) : Except Fault Unit :=
  if d.isSound then .ok () else .error .malformed

def Ending.expectClosed (e : Ending) : Except Fault Unit :=
  if e = .closed then .ok () else .error .malformed

mutual

def json : Document → Except Fault Json
  | .null => .ok .null
  | .bool b => .ok (.bool b)
  | .int n => .ok (.int n)
  | .float x => .ok (.float x)
  | .string s => .ok (.string s)
  | .array items ending => do
    let xs ← jsonItems items
    Ending.expectClosed ending
    return .array xs
  | .object members ending => do
    let ms ← jsonMembers members
    Ending.expectClosed ending
    return .object (Json.settle ms)
  | .unreadable | .broken => .error .malformed

def jsonItems : List Document → Except Fault (List Json)
  | [] => .ok []
  | d :: ds => do
    let x ← d.json
    let xs ← jsonItems ds
    return x :: xs

def jsonMembers : List (String × Document) → Except Fault (List (String × Json))
  | [] => .ok []
  | (k, d) :: ms => do
    let x ← d.json
    let xs ← jsonMembers ms
    return (k, x) :: xs

end

def unlike : Document → Fault
  | .unreadable | .broken => .malformed
  | _ => .mismatch

end Document

abbrev Decoder (α : Type) := Document → Except Fault α

namespace Decoder

def decode? {α : Type} (dec : Decoder α) (j : Json) : Option α := (dec (.ofJson j)).toOption

def ofText {α : Type} (dec : Decoder α) (text : String) : Except Fault α := do
  let r := Document.read text
  let a ← dec r.document
  if r.complete then return a else throw .malformed

def text : Decoder String
  | .string s => .ok s
  | d => .error d.unlike

def bool : Decoder Bool
  | .bool b => .ok b
  | d => .error d.unlike

def float : Decoder Float
  | .int n => .ok (Float.ofInt n)
  | .float x => .ok x
  | d => .error d.unlike

def intBetween (low high : Int) : Decoder Int
  | .int n => if low ≤ n && n < high then .ok n else .error .mismatch
  | d => .error d.unlike

def uint32 : Decoder UInt32 := fun d => return (← intBetween 0 (2 ^ 32) d).toNat.toUInt32

def uint64 : Decoder UInt64 := fun d => return (← intBetween 0 (2 ^ 64) d).toNat.toUInt64

def int64 : Decoder Int := intBetween (-2 ^ 63) (2 ^ 63)

def items {α : Type} (dec : Decoder α) : List Document → Except Fault (List α)
  | [] => .ok []
  | d :: ds => do
    let a ← dec d
    let as ← items dec ds
    return a :: as

def list {α : Type} (dec : Decoder α) : Decoder (List α)
  | .array ds ending => do
    let as ← items dec ds
    Document.Ending.expectClosed ending
    return as
  | d => .error d.unlike

def values {α : Type} (dec : Decoder α) :
    List (String × Document) → Except Fault (List (String × α))
  | [] => .ok []
  | (k, d) :: ms => do
    let a ← dec d
    let as ← values dec ms
    return (k, a) :: as

def keyed {α : Type} (dec : Decoder α) : Decoder (List (String × α))
  | .object ms ending => do
    let as ← values dec ms
    Document.Ending.expectClosed ending
    return Json.settle as
  | d => .error d.unlike

def option {α : Type} (dec : Decoder α) : Decoder (Option α)
  | .null => .ok none
  | d => some <$> dec d

/-- Reads the whole value before it looks at it. -/
def ofJson? {α : Type} (f : Json → Option α) : Decoder α := fun d => do
  match f (← d.json) with
  | some a => return a
  | none => throw .mismatch

/-- Reads the whole value before it looks for the first decoder that takes it. -/
def firstOf {α : Type} (decs : List (Decoder α)) : Decoder α := fun d => do
  let _ ← d.json
  match decs.findSome? fun dec => (dec d).toOption with
  | some a => return a
  | none => throw .mismatch

def named {α : Type} (ofName? : String → Option α) (s : String) : Except Fault α :=
  match ofName? s with
  | some a => .ok a
  | none => .error .mismatch

/-- A name, or an object whose only member is a name with nothing to it. -/
def name {α : Type} (ofName? : String → Option α) : Decoder α
  | .string s => named ofName? s
  | .object ((s, d) :: ms) ending => do
    let a ← named ofName? s
    match d with
    | .null => .ok ()
    | d => .error d.unlike
    if ms.isEmpty && ending = .closed then return a else throw .malformed
  | _ => .error .malformed

end Decoder

/--
A decoder for the fields of an object, in any order, or of an array, in the order of the record.
Fields that are not of the record are passed over; giving one twice is a fault.
-/
structure Record (α : Type) where
  State : Type
  start : State
  member : String → Document → State → Option (Except Fault State)
  finish : State → Except Fault α
  /-- Takes items from the front; they are all that is there when the flag is set. -/
  elements : Bool → List Document → Except Fault (α × List Document)

namespace Record

def field {α : Type} (names : List String) (dec : Decoder α) (absent : Except Fault α) :
    Record α where
  State := Option α
  start := none
  member key d s :=
    if names.contains key then
      some (if s.isSome then .error .mismatch else some <$> dec d)
    else none
  finish
    | some a => .ok a
    | none => absent
  elements
    | _, d :: ds => return (← dec d, ds)
    | true, [] => return (← absent, [])
    | false, [] => .error .malformed

def required {α : Type} (name : String) (dec : Decoder α) : Record α :=
  field [name] dec (.error .mismatch)

def optional {α : Type} (name : String) (dec : Decoder α) (default : α) : Record α :=
  field [name] dec (.ok default)

def nullable {α : Type} (name : String) (dec : Decoder α) : Record (Option α) :=
  optional name dec.option none

def pure {α : Type} (a : α) : Record α where
  State := Unit
  start := ()
  member _ _ _ := none
  finish _ := .ok a
  elements _ ds := .ok (a, ds)

def map {α β : Type} (f : α → β) (r : Record α) : Record β where
  State := r.State
  start := r.start
  member := r.member
  finish s := f <$> r.finish s
  elements closed ds := (fun (a, ds) => (f a, ds)) <$> r.elements closed ds

def seq {α β : Type} (f : Record (α → β)) (r : Record α) : Record β where
  State := f.State × r.State
  start := (f.start, r.start)
  member key d s :=
    match f.member key d s.1 with
    | some t => some ((·, s.2) <$> t)
    | none => (r.member key d s.2).map ((s.1, ·) <$> ·)
  finish s := do
    let g ← f.finish s.1
    return g (← r.finish s.2)
  elements closed ds := do
    let (g, ds) ← f.elements closed ds
    let (a, ds) ← r.elements closed ds
    return (g a, ds)

def refine {α β : Type} (r : Record α) (f : α → Except Fault β) : Record β where
  State := r.State
  start := r.start
  member := r.member
  finish s := do f (← r.finish s)
  elements closed ds := do
    let (a, ds) ← r.elements closed ds
    return (← f a, ds)

/-- The members that no field before takes, as they stand. -/
def others : Record (List (String × Json)) where
  State := List (String × Json)
  start := []
  member key d s := some (do return s ++ [(key, ← d.json)])
  finish s := .ok s
  elements _ _ := .error .mismatch

instance : Functor Record where
  map := map

instance : Seq Record where
  seq f r := seq f (r ())

def members {α : Type} (r : Record α) :
    List (String × Document) → Ending → r.State → Except Fault α
  | [], ending, s => do
    Document.Ending.expectClosed ending
    r.finish s
  | (key, d) :: ms, ending, s =>
    match r.member key d s with
    | some t => do r.members ms ending (← t)
    | none => do
      d.skip
      r.members ms ending s

def ofObject {α : Type} (r : Record α) : Decoder α
  | .object ms ending => r.members ms ending r.start
  | d => .error d.unlike

/-- From an object, or an array of the fields. -/
def decoder {α : Type} (r : Record α) : Decoder α
  | .array ds ending => do
    let (a, rest) ← r.elements (ending == .closed) ds
    if rest.isEmpty && ending = .closed then return a else throw .malformed
  | d => r.ofObject d

end Record

end LayerGraph
