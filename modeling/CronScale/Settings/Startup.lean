import CronScale.Settings.Arguments
import CronScale.Settings.Basic
import CronScale.Settings.Dotenv
import CronScale.Settings.LogFilter
import CronScale.Text.Terminal
/-!
# Starting

The operator starts by reading its arguments and its variables, in this order. Variables come from
its surroundings and then from a file, in which what is to be logged is not looked for. Arguments
take the place of variables, but only of variables that are all right on their own; what comes out
is checked once more. Then the settings are logged and the cluster is looked for.
-/

namespace CronScale.Settings

open CronScale.Calendar CronScale.Text

/-- How a program has ended: its code, the lines logged and the first line of complaint. -/
structure Ending where
  code : Nat
  log : List String
  complaint : Option String
  deriving DecidableEq, Repr, Inhabited

/-- What the operator works with. -/
structure Startup where
  settings : Settings
  zone : Zone
  /-- The lines logged so far. -/
  log : List String
  /-- The lines of complaint so far. -/
  complaints : List String

/-- Settings with the arguments in the place of variables. -/
def override (s : Settings) (a : Arguments) : Settings :=
  { s with
    serverAddr := a.serverAddr.getD s.serverAddr
    timezone := a.timezone.getD s.timezone
    gcIntervalSecs := a.gcIntervalSecs.getD s.gcIntervalSecs }

def source : String := "cronhpa_operator"

def logLine (s : Settings) : String := "INFO " ++ source ++ ": Loaded configuration: " ++ s.inspect

/-- The settings that variables and arguments give together. -/
def settingsOf (vars : String → Option String) (a : Arguments) :
    Except Fault (Settings × Zone) := do
  let s ← ofVariables vars
  let s := override s a
  s.check
  let zone ← s.zone
  pure (s, zone)

def firstLine (s : String) : String :=
  let line := s.toList.takeWhile (· != '\n')
  let ended := line.length < s.length
  String.ofList (if ended && line.getLast? == some '\r' then line.dropLast else line)

def endingWith (complaints : List String) (log : List String) (message : String) : Ending :=
  ⟨1, log, (complaints ++ ["Error: " ++ message]).head?.map firstLine⟩

/-- An ending over the arguments, whose text is freed of control sequences. -/
def refused (e : ArgumentError) : Ending :=
  let shown := withoutControl .outside false ("error: " ++ e.message).toList
  ⟨2, [], some (firstLine (String.ofList shown))⟩

/-- Starts the operator up to the point where it looks for a cluster, with variables from its
surroundings and a file of more. -/
def start (args : List String) (vars : List (String × String)) (file : String) :
    Except Ending Startup :=
  match Arguments.read args with
  | .error e => .error (refused e)
  | .ok .help => .error ⟨0, [], none⟩
  | .ok (.start a) =>
    let (filter, complaints) := logFilter (Dotenv.look vars "RUST_LOG") (a.logLevel.getD "info")
    match settingsOf (Dotenv.look (Dotenv.load vars file)) a with
    | .error e => .error (endingWith complaints [] e.message)
    | .ok (s, zone) =>
      let shown := enabled filter source ["message"] .info
      .ok ⟨s, zone, if shown then [logLine s] else [], complaints⟩

def withoutCluster (args : List String) (vars : List (String × String)) (file : String) :
    Ending :=
  match start args vars file with
  | .error e => e
  | .ok s => endingWith s.complaints s.log "failed to create Kubernetes client"

end CronScale.Settings
