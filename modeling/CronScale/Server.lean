import CronScale.Fault
import CronScale.Json.Printer
import CronScale.Metrics
import CronScale.Page
/-!
# The debug server

The server shows that it is alive, the gauges, and the entries of the agenda as data and as a page.
It answers the methods `GET` and `HEAD`, the latter without a body. What is asked for is a path or
a whole address; its path is taken as it is written, without its parameters and its fragment.
-/

namespace CronScale.Server

open CronScale.Json CronScale.Text

/-- What can be asked for. -/
inductive Route where
  | health
  | metrics
  | entries
  | index
  deriving DecidableEq, Repr

namespace Route

def ofPath? : String → Option Route
  | "/health" => some health
  | "/metrics" => some metrics
  | "/api.json" => some entries
  | "/index.html" => some index
  | _ => none

def contentType : Route → String
  | health => "application/json"
  | metrics => "text/plain; version=0.0.4"
  | entries => "application/json"
  | index => "text/html; charset=utf-8"

end Route

/-- An answer of the server. -/
structure Response where
  status : Nat
  contentType : Option String
  body : String
  deriving DecidableEq, Repr, Inhabited

def entryJson (e : EntryView) : Json :=
  ofMembers
    [("id", .text e.id), ("name", .text e.name), ("cronhpa", .text e.owner.name),
      ("namespace", .text e.owner.ns), ("schedule", .text e.schedule), ("prev", ofText? e.prev),
      ("next", ofText? e.next)]

def content (entries : List EntryView) (counts : JobCounts) : Route → String
  | .health => (ofMembers [("status", .text "healthy")]).compact
  | .metrics => counts.exposition
  | .entries => (Json.list (entries.map entryJson)).compact
  | .index => Page.render entries

def endsPath (c : Char) : Bool := c == '?' || c == '#'

/-- Whether a character can be part of the name of a scheme. -/
def isSchemeChar (c : Char) : Bool := c.isAlphanum || c == '+' || c == '-' || c == '.'

/-- An address without its scheme and its host; nothing if there is no scheme. -/
def afterHost (cs : List Char) : List Char :=
  match cs.dropWhile isSchemeChar with
  | ':' :: '/' :: '/' :: r => r.dropWhile fun c => c != '/' && !endsPath c
  | _ => []

def pathOf (target : String) : String :=
  let cs := match target.toList with
    | '/' :: r => '/' :: r
    | cs => afterHost cs
  String.ofList (cs.takeWhile (!endsPath ·))

def respond (entries : List EntryView) (counts : JobCounts) (method target : String) :
    Response :=
  match Route.ofPath? (pathOf target) with
  | none => ⟨404, none, ""⟩
  | some r =>
    if method = "GET" then ⟨200, some r.contentType, content entries counts r⟩
    else if method = "HEAD" then ⟨200, some r.contentType, ""⟩
    else ⟨405, none, ""⟩

/-- The greatest number that an address can end in. -/
def maxSocket : Nat := 65535

/-- What stands against listening at an address: it has to end in a colon and a number. -/
def checkAddress (addr : String) : Except Fault Unit :=
  match cut ':' addr.toList.reverse with
  | none => .error (.reported .io "invalid socket address")
  | some (digits, _) =>
    match readNumeral maxSocket digits.reverse with
    | .ok _ => .ok ()
    | .error _ => .error (.reported .io "invalid port value")

end CronScale.Server
