import CronScale.Json.Shape
/-!
# What autoscalers are handed on with

Besides its bounds and its workload an autoscaler holds rules on how fast it may scale, measures it
scales by, the values found for them, and conditions. These are handed on as they were read, by the
shapes given here.
-/

namespace CronScale.AutoscalerParts

open CronScale.Json

/-- A step by which an autoscaler may scale within a time. -/
def scalingPolicy : Shape :=
  .record [] [("periodSeconds", .int32), ("type", .text), ("value", .int32)]

def scalingRules : Shape :=
  .record [("policies", .list scalingPolicy), ("selectPolicy", .text),
    ("stabilizationWindowSeconds", .int32)] []

def behavior : Shape := .record [("scaleDown", scalingRules), ("scaleUp", scalingRules)] []

def objectReference : Shape := .record [("apiVersion", .text)] [("kind", .text), ("name", .text)]

def labelRequirement : Shape :=
  .record [("values", .list .text)] [("key", .text), ("operator", .text)]

def labelSelector : Shape :=
  .record [("matchExpressions", .list labelRequirement), ("matchLabels", .table .text)] []

def measureName : Shape := .record [("selector", labelSelector)] [("name", .text)]

def wantedValue : Shape :=
  .record [("averageUtilization", .int32), ("averageValue", .text), ("value", .text)]
    [("type", .text)]

def foundValue : Shape :=
  .record [("averageUtilization", .int32), ("averageValue", .text), ("value", .text)] []

/-- A measure together with a value under a name, by the type of what is measured. -/
def measureWith (name : String) (value : Shape) : Shape :=
  .record
    [("containerResource",
        .record [] [("container", .text), ("name", .text), (name, value)]),
      ("external", .record [] [("metric", measureName), (name, value)]),
      ("object", .record [] [("describedObject", objectReference), ("metric", measureName),
        (name, value)]),
      ("pods", .record [] [("metric", measureName), (name, value)]),
      ("resource", .record [] [("name", .text), (name, value)])]
    [("type", .text)]

/-- A measure with the value that it should have. -/
def wantedMeasure : Shape := measureWith "target" wantedValue

def foundMeasure : Shape := measureWith "current" foundValue

def condition : Shape :=
  .record [("lastTransitionTime", .timestamp), ("message", .text), ("reason", .text)]
    [("status", .text), ("type", .text)]

end CronScale.AutoscalerParts
