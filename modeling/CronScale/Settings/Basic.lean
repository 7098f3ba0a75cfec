import CronScale.Calendar.Zone
import CronScale.Fault
import CronScale.Json.Decode
/-!
# Settings

The settings of the operator are taken from variables, with a default for each. They hold together
if the time zone is known and the two intervals that must not be zero are not. The staleness of a
job, given in seconds as a word of 64 bits, is understood as a number with a sign.
-/

namespace CronScale

open CronScale.Calendar CronScale.Json CronScale.Text

/-- The settings of the operator. -/
structure Settings where
  serverAddr : String := "0.0.0.0:8000"
  timezone : String := "UTC"
  gcIntervalSecs : Nat := 600
  stalenessSecs : Nat := 300
  retryIntervalSecs : Nat := 3
  retryTimeoutSecs : Nat := 10
  statusPatchRetries : Nat := 3
  reporter : String := "cronhpa-controller"
  deriving DecidableEq, Repr, Inhabited

namespace Settings

def zone (s : Settings) : Except Fault Zone :=
  match Zone.find? s.timezone with
  | some z => .ok z
  | none => .error (.unknownZone s.timezone)

def check (s : Settings) : Except Fault Unit :=
  match s.zone with
  | .error e => .error e
  | .ok _ =>
    if s.gcIntervalSecs = 0 then .error (.notPositive "GC_INTERVAL_SECS")
    else if s.retryIntervalSecs = 0 then .error (.notPositive "SCALE_RETRY_INTERVAL_SECS")
    else .ok ()

/-- A word of 64 bits as a number with a sign. -/
def signedWord (n : Nat) : Int := Int.bmod n (word64 + 1)

/-- The most seconds, in either direction, that a span of time can have. -/
def maxSpanSeconds : Int := 9223372036854775

/-- The staleness in milliseconds, if a span of time can be that long. -/
def stalenessMillis? (s : Settings) : Option Int :=
  let n := signedWord s.stalenessSecs
  if -maxSpanSeconds ≤ n ∧ n ≤ maxSpanSeconds then some (n * 1000) else none

/-- A number of at most `limit` in a variable, with blanks around it, or its default. -/
def number (limit : Nat) (vars : String → Option String) (name : String) (default : Nat) :
    Except Fault Nat :=
  match vars name with
  | none => .ok default
  | some v =>
    match readNumeral limit (trim v.toList) with
    | .ok n => .ok n
    | .error e => .error (.badNumber name v e)

def ofVariables (vars : String → Option String) : Except Fault Settings := do
  let standard : Settings := {}
  let gcIntervalSecs ← number word64 vars "GC_INTERVAL_SECS" standard.gcIntervalSecs
  let stalenessSecs ← number word64 vars "JOB_STALENESS_SECS" standard.stalenessSecs
  let retryIntervalSecs ←
    number word64 vars "SCALE_RETRY_INTERVAL_SECS" standard.retryIntervalSecs
  let retryTimeoutSecs ←
    number word64 vars "SCALE_RETRY_TIMEOUT_SECS" standard.retryTimeoutSecs
  let statusPatchRetries ←
    number word32 vars "STATUS_PATCH_RETRIES" standard.statusPatchRetries
  let settings : Settings :=
    { serverAddr := (vars "SERVER_ADDR").getD standard.serverAddr
      timezone := (vars "CRONHPA_TIMEZONE").getD standard.timezone
      gcIntervalSecs := gcIntervalSecs
      stalenessSecs := stalenessSecs
      retryIntervalSecs := retryIntervalSecs
      retryTimeoutSecs := retryTimeoutSecs
      statusPatchRetries := statusPatchRetries
      reporter := (vars "EVENT_REPORTER").getD standard.reporter }
  settings.check
  pure settings

def ofJson? (j : Json) : Option Settings := do
  let groups ← members ["server", "cron", "scaling", "kube"] j
  let serverAddr ← groups.required "server" fun j => do
    let m ← members ["addr"] j
    m.required "addr" asText
  let (timezone, gcIntervalSecs, stalenessSecs) ← groups.required "cron" fun j => do
    let m ← members ["timezone", "gc_interval_secs", "staleness_secs"] j
    let timezone ← m.required "timezone" asText
    let gcIntervalSecs ← m.required "gc_interval_secs" (asNat word64)
    let stalenessSecs ← m.required "staleness_secs" (asNat word64)
    pure (timezone, gcIntervalSecs, stalenessSecs)
  let (retryIntervalSecs, retryTimeoutSecs, statusPatchRetries) ←
    groups.required "scaling" fun j => do
      let m ← members ["retry_interval_secs", "retry_timeout_secs", "status_patch_retries"] j
      let retryIntervalSecs ← m.required "retry_interval_secs" (asNat word64)
      let retryTimeoutSecs ← m.required "retry_timeout_secs" (asNat word64)
      let statusPatchRetries ← m.required "status_patch_retries" (asNat word32)
      pure (retryIntervalSecs, retryTimeoutSecs, statusPatchRetries)
  let reporter ← groups.required "kube" fun j => do
    let m ← members ["reporter"] j
    m.required "reporter" asText
  pure
    { serverAddr := serverAddr, timezone := timezone, gcIntervalSecs := gcIntervalSecs
      stalenessSecs := stalenessSecs, retryIntervalSecs := retryIntervalSecs
      retryTimeoutSecs := retryTimeoutSecs, statusPatchRetries := statusPatchRetries
      reporter := reporter }

def toJson (s : Settings) : Json :=
  ofMembers
    [("server", ofMembers [("addr", .text s.serverAddr)]),
      ("cron", ofMembers [("timezone", .text s.timezone),
        ("gc_interval_secs", .whole s.gcIntervalSecs),
        ("staleness_secs", .whole s.stalenessSecs)]),
      ("scaling", ofMembers [("retry_interval_secs", .whole s.retryIntervalSecs),
        ("retry_timeout_secs", .whole s.retryTimeoutSecs),
        ("status_patch_retries", .whole s.statusPatchRetries)]),
      ("kube", ofMembers [("reporter", .text s.reporter)])]

def inspect (s : Settings) : String :=
  "Config \x7b server: ServerConfig \x7b addr: " ++ quoted s.serverAddr ++
    " \x7d, cron: CronConfig \x7b timezone: " ++ quoted s.timezone ++
    ", gc_interval_secs: " ++ toString s.gcIntervalSecs ++
    ", staleness_secs: " ++ toString s.stalenessSecs ++
    " \x7d, scaling: ScalingConfig \x7b retry_interval_secs: " ++ toString s.retryIntervalSecs ++
    ", retry_timeout_secs: " ++ toString s.retryTimeoutSecs ++
    ", status_patch_retries: " ++ toString s.statusPatchRetries ++
    " \x7d, kube: KubeConfig \x7b reporter: " ++ quoted s.reporter ++ " \x7d \x7d"

end Settings

end CronScale
