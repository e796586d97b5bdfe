import LayerGraph.JsonDecoder
import LayerGraph.UrlText

namespace LayerGraph

structure HttpRequest where
  method : String
  /-- The path, and the query behind a question mark. -/
  target : String
  contentType : Option String
  body : String
  deriving DecidableEq, Inhabited

structure HttpResponse where
  status : Nat
  /-- What is refused before it reaches the service is answered without JSON. -/
  body : Option Json
  deriving DecidableEq, Inhabited

namespace HttpRequest

def targetPath (r : HttpRequest) : List Char := r.target.toList.takeWhile fun c => c ≠ '?' ∧ c ≠ '#'

def segments (r : HttpRequest) : List String :=
  match r.targetPath with
  | '/' :: cs => (splitOnChar '/' cs).map String.ofList
  | _ => []

def query (r : HttpRequest) : String :=
  String.ofList (((r.target.toList.takeWhile (· ≠ '#')).dropWhile (· ≠ '?')).drop 1)

/-- Whether the body is declared to be JSON, or of a type built on it. -/
def declaresJson (r : HttpRequest) : Bool :=
  r.contentType.any fun t =>
    let mediaType := ((t.toLower.toList.takeWhile (· ≠ ';')).reverse.dropWhile (· = ' ')).reverse
    let start := "application/".toList
    start.isPrefixOf mediaType &&
      (mediaType.drop start.length = "json".toList || "+json".toList.isSuffixOf mediaType)

/-- The body, or the status of the refusal. -/
def decodeBody {α : Type} (r : HttpRequest) (dec : Decoder α) : Except Nat α :=
  if !r.declaresJson then .error 415
  else (dec.ofText r.body).mapError fun
    | .malformed => 400
    | .mismatch => 422

end HttpRequest

end LayerGraph
