import CronScale.Text.Double
/-!
# Counts of jobs

The last pass that collected lost jobs leaves counts of the jobs, of which five gauges tell. The
text gives for each gauge, in the order of their names, what it says and its value, which a gauge
keeps as a double.
-/

namespace CronScale

/-- The jobs at the end of a pass. -/
structure JobCounts where
  total : Int := 0
  submitted : Int := 0
  succeeded : Int := 0
  failed : Int := 0
  expired : Int := 0
  deriving DecidableEq, Repr, Inhabited

namespace JobCounts

/-- The text of one gauge. The word is the kind of job it counts, if it does not count all. -/
def gaugeText (word : String) (value : Int) : String :=
  let name := "kube_" ++ word ++ (if word = "" then "" else "_") ++ "jobs_in_cron_engine_total"
  let help := word.capitalize ++ (if word = "" then "Jobs" else " jobs") ++
    " in queue of Cron Engine"
  "# HELP " ++ name ++ " " ++ help ++ "\n# TYPE " ++ name ++ " gauge\n" ++ name ++ " " ++
    Text.doubleText value ++ "\n"

def exposition (c : JobCounts) : String :=
  gaugeText "expired" c.expired ++ gaugeText "failed" c.failed ++ gaugeText "" c.total ++
    gaugeText "submitted" c.submitted ++ gaugeText "successful" c.succeeded

end JobCounts

end CronScale
