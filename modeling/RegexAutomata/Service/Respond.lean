/-
Responding to requests.

A path is looked up first, then the method, and only then the body is read.
-/
import RegexAutomata.Json.Writer
import RegexAutomata.Regex.Validate
import RegexAutomata.Service.Endpoint
import RegexAutomata.Service.Target

namespace RegexAutomata.Service

structure Request where
  target : Target
  method : Text
  body : Bytes

/-- The response to a request. -/
inductive Response where
  | json (status : Nat) (body : Json.Value)
  | drawing (text : Text)
  | methodNotAllowed
  | movedTo (location : Text)
  | notFound

namespace Endpoint

/-- All endpoints with their paths. -/
def routes : List (Text × Endpoint) :=
  [("/api/regex-to-nfa/", toNfa), ("/api/regex-to-dfa/", toDfa), ("/api/simulate/", simulate),
    ("/api/export-dot/", exportDot)]

/-- The path of an endpoint and the endpoint, if the path is known. -/
def find? (path : Bytes) : Option (Text × Endpoint) :=
  routes.find? fun (known, _) => Utf8.encode known = path

end Endpoint

/-- The capital form of a letter, as far as it has an ASCII one. -/
def capital (c : CodePoint) : Text :=
  if h : 0x61 ≤ c.value ∧ c.value ≤ 0x7A then [⟨c.value - 0x20, by omega⟩]
  else if c = 'ſ' then "S"
  else if c = 'ﬅ' ∨ c = 'ﬆ' then "ST"
  else [c]

/-- The only method that is allowed. -/
def allowedMethod : Text := "POST"

/-- How deep values in a body may nest. This is what the limit on nested calls leaves: at most 1000
calls may be in progress at a time, of which reading takes one for each level, and 21 are in
progress already when a body is read. It would change with the calls around the service. -/
def maxNesting : Nat := 979

def readBody (settings : Settings) (body : Bytes) : Except (Failure ⊕ Refusal) Json.Value :=
  if settings.maxBodySize < body.length then .error (.inl .bodyTooLarge)
  else
    match Encoding.decodeAny body with
    | .error e => .error (.inr (.undecodable e))
    | .ok document =>
      match Json.read maxNesting document with
      | .ok v => .ok v
      | .error (.malformed fault position) =>
        .error (.inr (.malformed fault document position))
      | .error (.integerTooLong digits) => .error (.inr (.integerTooLong digits))
      | .error (.noRoom what) => .error (.inl (.noRoom what))

/-- The response to a refused request. An error in the expression is told in more detail. -/
def refuse : Refusal → Response
  | .parse e => .json 400 (.object e.members)
  | r => .json 400 (Endpoint.object [("error", .string r.message)])

def respondToValue (settings : Settings) (endpoint : Endpoint) (v : Json.Value) : Response :=
  match Content.ofValue settings v >>= fun content => endpoint.answer content with
  | .ok (.json body) => .json 200 body
  | .ok (.drawing text) => .drawing text
  | .error r => refuse r

def respond (settings : Settings) (request : Request) : Response :=
  match Endpoint.find? request.target.path with
  | some (_, endpoint) =>
    if request.method.flatMap capital ≠ allowedMethod then .methodNotAllowed
    else
      match readBody settings request.body with
      | .ok v => respondToValue settings endpoint v
      | .error (.inr r) => refuse r
      | .error (.inl f) => .json 500 (Endpoint.object [("error", .string f.message)])
  | none =>
    match Endpoint.find? (request.target.path ++ Utf8.encode "/") with
    | some (path, _) =>
      let query : Text :=
        if request.target.query.isEmpty then []
        else "?" ++ Target.writeQuery request.target.query
      .movedTo (path ++ query)
    | none => .notFound

end RegexAutomata.Service
