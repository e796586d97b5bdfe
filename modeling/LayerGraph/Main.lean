import LayerGraph.Report
import LayerGraph.TableArchive

namespace LayerGraph

def usage : String :=
"usage: compile | check | blocks
  -d, --db PATH with -p, --project ID   takes a stored project
  -f, --file PATH                       takes a graph as JSON
  --spatial-size N, --channels N        the size of the images
  --classes N                           the classes when no block names them
  --strict                              compile only: fails on a wrong shape"

def reasonOf : IO.Error → String
  | .noFileOrDirectory .. => "No such file or directory (os error 2)"
  | .permissionDenied _ code details | .inappropriateType _ code details =>
    s!"{details} (os error {code})"
  | e => toString e

def readText (path : String) : IO (Except String String) := do
  try
    let bytes ← IO.FS.readBinFile path
    return match String.fromUTF8? bytes with
      | some text => .ok text
      | none => .error "stream did not contain valid UTF-8"
  catch e => return .error (reasonOf e)

def createArchive (path : String) : IO (Except StorageError TableStore) := do
  try
    IO.FS.writeFile path (TableStore.toJson {}).text
    return .ok {}
  catch _ => return .error .unreadableArchive

/-- An archive that is not there is created; without a path there is none to keep. -/
def readArchive (path : String) : IO (Except StorageError TableStore) := do
  if path.isEmpty then return .ok {}
  try
    match String.fromUTF8? (← IO.FS.readBinFile path) with
    | some text => return TableStore.ofText text
    | none => return .error .unreadableArchive
  catch
    | .noFileOrDirectory .. => createArchive path
    | _ => return .error .unreadableArchive

def Source.load : Source → IO (Except LoadError Loaded)
  | .archive path id => do
    match ← readArchive path with
    | .ok store => return Loaded.ofStore store id
    | .error e => return .error (.unreadableArchive path e)
  | .file path => do
    match ← readText path with
    | .ok text => return Loaded.ofText path text
    | .error reason => return .error (.unreadableFile path reason)

def Command.report : Command → IO Report
  | .inspect action source shape => return .ofAction action shape (← source.load)
  | .listBlocks => return .blocks

end LayerGraph

open LayerGraph

def main (args : List String) : IO UInt32 := do
  match Command.ofArguments args with
  | .error u =>
    if u = .help then IO.println usage else IO.eprintln usage
    return u.exitCode.toUInt32
  | .ok command =>
    let report ← command.report
    report.errors.forM IO.eprintln
    report.output.forM IO.println
    return report.exitCode.toUInt32
