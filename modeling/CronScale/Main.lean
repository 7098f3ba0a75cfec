import CronScale.Resource.Definition
import CronScale.Settings.Startup
/-!
# The command line

Called by the name `generate-crds` the program writes the definition of its resources. Otherwise it
starts as the operator, with the variables of its surroundings and those in the file `.env` of the
working directory. It has no way to reach a cluster: every start that gets so far ends there.
-/

namespace CronScale.Settings

def variableNames : List String :=
  ["RUST_LOG", "SERVER_ADDR", "CRONHPA_TIMEZONE", "GC_INTERVAL_SECS", "JOB_STALENESS_SECS",
    "SCALE_RETRY_INTERVAL_SECS", "SCALE_RETRY_TIMEOUT_SECS", "STATUS_PATCH_RETRIES",
    "EVENT_REPORTER"]

/-- The names that a file of variables may set or refer to. -/
def namesIn (file : String) : List String :=
  let inName (c : Char) := c.isAlphanum || c == '_' || c == '.'
  let step (acc : List Char × List String) (c : Char) :=
    if inName c then (c :: acc.1, acc.2)
    else ([], if acc.1 = [] then acc.2 else String.ofList acc.1.reverse :: acc.2)
  ((file ++ "\n").toList.foldl step ([], [])).2

/-- The surroundings' values of variables. -/
def surroundings (names : List String) : IO (List (String × String)) :=
  names.filterMapM fun name => do
    return (← IO.getEnv name).map fun value => (name, value)

/-- The text of a file, or none if it cannot be read. -/
def fileText (name : String) : IO String := do
  match ← (IO.FS.readFile name).toBaseIO with
  | .ok text => return text
  | .error _ => return ""

end CronScale.Settings

open CronScale CronScale.Settings

def main (args : List String) : IO UInt32 := do
  if (← IO.appPath).fileName == some "generate-crds" then
    IO.print Resource.definitionFile
    return 0
  let file ← fileText ".env"
  let ending := withoutCluster args (← surroundings (variableNames ++ namesIn file)) file
  for line in ending.log do
    IO.println line
  if let some complaint := ending.complaint then
    IO.eprintln complaint
  return ending.code.toUInt32
