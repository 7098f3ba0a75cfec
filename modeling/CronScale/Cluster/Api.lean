import CronScale.Fault
import CronScale.Json.Decode
import CronScale.Json.Printer
import CronScale.Json.Reader
import CronScale.Procedure
/-!
# Requests to the cluster

The cluster is reached by requests, each of which is answered by a status and a body unless it gets
lost. A status of the four and five hundreds is a refusal. Its body may say more; if it does not,
the body itself is the message. The body of any other answer has to hold what was asked for.
-/

namespace CronScale.Cluster

open CronScale.Json CronScale.Text

/-- What a request is about to do. -/
inductive Method where
  | get
  | patch
  | post
  | put
  deriving DecidableEq, Repr

def Method.name : Method → String
  | get => "GET"
  | patch => "PATCH"
  | post => "POST"
  | put => "PUT"

/-- The type of the body that goes with a method. -/
def Method.contentType : Method → Option String
  | get => none
  | patch => some "application/merge-patch+json"
  | post => some "application/json"
  | put => some "application/json"

/-- A request. -/
structure Request where
  method : Method
  path : String
  body : Option Json

/-- Whether a character may stand in a path as it is. -/
def inPath (c : Char) : Bool :=
  let n := c.toNat
  n == 0x21 || n == 0x22 || (0x24 ≤ n && n ≤ 0x3B) || n == 0x3D || (0x40 ≤ n && n ≤ 0x5F) ||
    (0x61 ≤ n && n ≤ 0x7E)

/-- Whether a character may stand, as it is, in the parameters behind a path. -/
def inParameters (c : Char) : Bool :=
  let n := c.toNat
  n == 0x21 || (0x24 ≤ n && n ≤ 0x3B) || n == 0x3D || (0x3F ≤ n && n ≤ 0x7E)

/-- A path with its parameters, up to its fragment, if all its characters may stand where they
do. -/
def readPath? (path : String) : Option String :=
  let cs := path.toList.takeWhile (· != '#')
  if (cs.takeWhile (· != '?')).all inPath && (cs.dropWhile (· != '?')).all inParameters then
    some (String.ofList cs)
  else none

namespace Request

def get? (path : String) : Except RequestFault Request :=
  match readPath? path with
  | some p => .ok ⟨.get, p, none⟩
  | none => .error .badPath

/-- A request that writes something; its path ends in a question mark without parameters. -/
def write? (method : Method) (path : String) (body : Json) : Except RequestFault Request :=
  match readPath? (path ++ "?") with
  | some p => .ok ⟨method, p, some body⟩
  | none => .error .badPath

end Request

/-- An answer. -/
structure Answer where
  status : Nat
  body : String
  deriving DecidableEq, Repr, Inhabited

/-- The cluster as requests see it; what gets lost has a cause. -/
def Api : Interface := ⟨Request, fun _ => Except String Answer⟩

/-- The wording of the statuses that refuse something. -/
def statusPhrases : List (Nat × String) :=
  [(400, "Bad Request"), (401, "Unauthorized"), (402, "Payment Required"), (403, "Forbidden"),
    (404, "Not Found"), (405, "Method Not Allowed"), (406, "Not Acceptable"),
    (407, "Proxy Authentication Required"), (408, "Request Timeout"), (409, "Conflict"),
    (410, "Gone"), (411, "Length Required"), (412, "Precondition Failed"),
    (413, "Payload Too Large"), (414, "URI Too Long"), (415, "Unsupported Media Type"),
    (416, "Range Not Satisfiable"), (417, "Expectation Failed"), (418, "I'm a teapot"),
    (421, "Misdirected Request"), (422, "Unprocessable Entity"), (423, "Locked"),
    (424, "Failed Dependency"), (426, "Upgrade Required"), (428, "Precondition Required"),
    (429, "Too Many Requests"), (431, "Request Header Fields Too Large"),
    (451, "Unavailable For Legal Reasons"), (500, "Internal Server Error"),
    (501, "Not Implemented"), (502, "Bad Gateway"), (503, "Service Unavailable"),
    (504, "Gateway Timeout"), (505, "HTTP Version Not Supported"),
    (506, "Variant Also Negotiates"), (507, "Insufficient Storage"), (508, "Loop Detected"),
    (510, "Not Extended"), (511, "Network Authentication Required")]

def statusText (status : Nat) : String :=
  toString status ++ " " ++ (statusPhrases.lookup status).getD "<unknown status code>"

/-- The greatest number that fits in a refusal's code. -/
def maxCode : Nat := 65535

def refusal? (j : Json) : Option Refusal := do
  let m ← members ["status", "message", "reason", "code"] j
  let status ← m.required "status" asText
  let message ← m.defaulted "message" "" asText
  let reason ← m.defaulted "reason" "" asText
  let code ← m.required "code" (asNat maxCode)
  pure ⟨status, message, reason, code⟩

/-- What an answer refuses, by its body or, if that says nothing, by its status. -/
def Answer.refusal (a : Answer) : Refusal :=
  match (Json.read? a.body).bind refusal? with
  | some r => r
  | none => ⟨statusText a.status, quoted a.body, "Failed to parse error data", a.status⟩

/-- Whether an answer is a refusal. -/
def Answer.refuses (a : Answer) : Bool := 400 ≤ a.status && a.status < 600

/-- Sends a request and takes the body of its answer. -/
def exchange (r : Except RequestFault Request) : Procedure Api (Except ApiFailure String) :=
  match r with
  | .error e => pure (.error (.unbuildable e))
  | .ok r => do
    match ← Procedure.call (I := Api) r with
    | .error cause => pure (.error (.undelivered cause))
    | .ok a => pure (if a.refuses then .error (.refused a.refusal) else .ok a.body)

/-- Sends a request and takes what is read from the body of its answer. -/
def obtain {α : Type} (read : Json → Option α) (r : Except RequestFault Request) :
    Procedure Api (Except ApiFailure α) := do
  match ← exchange r with
  | .error e => pure (.error e)
  | .ok body =>
    match (Json.read? body).bind read with
    | some a => pure (.ok a)
    | none => pure (.error .undecodable)

end CronScale.Cluster
