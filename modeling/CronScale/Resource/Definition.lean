import CronScale.Json.Block
import CronScale.Resource.Basic
/-!
# The definition of the resources

The cluster learns about the resources by a definition: their names, their scope, the columns in
which they are listed and the shape of what they hold. The shapes follow the types of
`CronScale.Resource.Basic`; what has a default need not be there.
-/

namespace CronScale.Resource

open CronScale.Json

def shapeOf (type : String) (more : List (String × Json)) : Json :=
  ofMembers (("type", .text type) :: more)

def described (s : String) : List (String × Json) := [("description", .text s)]

def listShape (items : Json) (more : List (String × Json)) : Json :=
  shapeOf "array" (("items", items) :: more)

def optionalListShape (items : Json) (description : String) : Json :=
  listShape items (("default", .list []) :: described description)

def recordShape (properties : List (String × Json)) (required : List String)
    (more : List (String × Json)) : Json :=
  shapeOf "object" (("properties", ofMembers properties) ::
    (if required = [] then more else ("required", texts required) :: more))

def textShape (more : List (String × Json)) : Json := shapeOf "string" more

def int32Shape (more : List (String × Json)) : Json :=
  shapeOf "integer" (("format", .text "int32") :: more)

/-- The shape of a truth value that may be left out. -/
def flagShape (more : List (String × Json)) : Json :=
  shapeOf "boolean" (("default", .bool false) :: more)

def targetShape (more : List (String × Json)) : Json :=
  recordShape
    [("apiVersion", textShape (described "API version of the target, e.g. apps/v1")),
      ("kind", textShape (described "Kind of the target, e.g. Deployment")),
      ("name", textShape (described "Name of the target in the resource's namespace"))]
    ["apiVersion", "kind", "name"] more

def jobShape : Json :=
  recordShape
    [("name", textShape (described "Unique within the resource")),
      ("runOnce", flagShape (described "Fire a single time, then stop")),
      ("schedule", textShape (described "Six-field cron expression or descriptor")),
      ("targetSize", int32Shape (described "Desired replica count"))]
    ["name", "schedule", "targetSize"] []

def specShape : Json :=
  recordShape
    [("excludeDates",
        optionalListShape (textShape []) "Cron expressions of days on which no job runs"),
      ("jobs", optionalListShape jobShape "Scheduled replica changes"),
      ("scaleTargetRef", targetShape (described "Workload whose replica count is adjusted"))]
    ["scaleTargetRef"] []

def conditionShape : Json :=
  recordShape
    [("jobId", textShape []),
      ("lastProbeTime", textShape (described "RFC 3339 timestamp of the last state change")),
      ("message", textShape [("default", .text "")]),
      ("name", textShape []),
      ("runOnce", flagShape []),
      ("schedule", textShape []),
      ("state", textShape
        [("enum", texts ([JobState.submitted, .succeed, .failed].map JobState.name))]),
      ("targetSize", int32Shape [])]
    ["jobId", "lastProbeTime", "name", "schedule", "state", "targetSize"] []

def statusShape : Json :=
  recordShape
    [("conditions", optionalListShape conditionShape "One entry per declared job"),
      ("excludeDates", optionalListShape (textShape []) "Last applied exclusion dates"),
      ("scaleTargetRef",
        targetShape (("nullable", .bool true) :: described "Last applied target"))]
    [] [("nullable", .bool true)]

def column (name type path : String) : Json :=
  ofMembers [("name", .text name), ("type", .text type), ("jsonPath", .text path)]

def definition : Json :=
  ofMembers
    [("apiVersion", .text "apiextensions.k8s.io/v1"),
      ("kind", .text "CustomResourceDefinition"),
      ("metadata", ofMembers [("name", .text (plural ++ "." ++ group))]),
      ("spec", ofMembers
        [("group", .text group),
          ("names", ofMembers
            [("categories", .list []), ("kind", .text kind), ("plural", .text plural),
              ("shortNames", texts ["cronhpa"]),
              ("singular", .text "cronhorizontalpodautoscaler")]),
          ("scope", .text "Namespaced"),
          ("versions", .list [ofMembers
            [("additionalPrinterColumns", .list
                [column "Target" "string" ".spec.scaleTargetRef.name",
                  column "Age" "date" ".metadata.creationTimestamp"]),
              ("name", .text version),
              ("schema", ofMembers [("openAPIV3Schema",
                recordShape [("spec", specShape), ("status", statusShape)] ["spec"]
                  (("title", .text kind) :: described
                    "Auto-generated derived type for CronHpaSpec via `CustomResource`"))]),
              ("served", .bool true), ("storage", .bool true),
              ("subresources", ofMembers [("status", ofMembers [])])]])])]

def definitionFile : String :=
  "---\n# CronHorizontalPodAutoscaler CRD\n" ++ definition.block ++ "\n"

end CronScale.Resource
