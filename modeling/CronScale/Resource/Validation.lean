import CronScale.Resource.Basic
/-!
# Complaints about a specification

Three parts of a specification are looked at, each on its own: the target, the jobs and the excluded
days. For each part at most one complaint is made, about the first thing found wrong with it.
-/

namespace CronScale

open CronScale.Text

/-- A part of a specification that can be complained about. -/
inductive SpecPart where
  | target
  | jobs
  | excludeDates
  deriving DecidableEq, Repr

def SpecPart.name : SpecPart → String
  | .target => "scaleTargetRef"
  | .jobs => "jobs"
  | .excludeDates => "excludeDates"

/-- What can be wrong with a specification. -/
inductive Complaint where
  | noKind
  | noTargetName
  | badApiVersion (apiVersion : String)
  | noJobName
  | repeatedJobName (name : String)
  | negativeSize (name : String) (size : Int)
  | badSchedule (name : String) (cause : Schedule.ParseError)
  | badExclusion (cause : Schedule.ParseError)
  deriving DecidableEq, Repr

namespace Complaint

/-- The part of the specification that a complaint is about. -/
def part : Complaint → SpecPart
  | noKind => .target
  | noTargetName => .target
  | badApiVersion _ => .target
  | badExclusion _ => .excludeDates
  | _ => .jobs

def message : Complaint → String
  | noKind => "kind must not be empty"
  | noTargetName => "name must not be empty"
  | badApiVersion v => "apiVersion '" ++ v ++ "' must have the form group/version"
  | noJobName => "every job needs a name"
  | repeatedJobName n => "job name '" ++ n ++ "' is used more than once"
  | negativeSize n s => "job '" ++ n ++ "' has negative targetSize " ++ toString s
  | badSchedule n e => "job '" ++ n ++ "': " ++ e.message
  | badExclusion e => e.message

/-- The wording of a complaint with the part that it is about. -/
def text (c : Complaint) : String := c.part.name ++ " " ++ c.message

end Complaint

/-- Whether an API version has a group and a version, neither of them empty. -/
def hasGroupAndVersion (apiVersion : String) : Bool :=
  match cutString '/' apiVersion with
  | some (group, version) => group != "" && version != ""
  | none => false

def TargetSpec.complaint? (t : TargetSpec) : Option Complaint :=
  if blank t.kind then some .noKind
  else if blank t.name then some .noTargetName
  else if hasGroupAndVersion t.apiVersion then none
  else some (.badApiVersion t.apiVersion)

/-- What is wrong with a job, given the names of the jobs before it. -/
def JobSpec.complaint? (seen : List String) (j : JobSpec) : Option Complaint :=
  if blank j.name then some .noJobName
  else if seen.contains j.name then some (.repeatedJobName j.name)
  else if j.targetSize < 0 then some (.negativeSize j.name j.targetSize)
  else
    match Schedule.parse j.schedule with
    | .ok _ => none
    | .error e => some (.badSchedule j.name e)

/-- The first thing wrong with a list of jobs, given the names of the jobs before it. -/
def jobsComplaint? (seen : List String) : List JobSpec → Option Complaint
  | [] => none
  | j :: js =>
    match j.complaint? seen with
    | some c => some c
    | none => jobsComplaint? (j.name :: seen) js

/-- What is wrong with an expression for excluded days. -/
def exclusionComplaint? (expr : String) : Option Complaint :=
  match Schedule.parse expr with
  | .ok _ => none
  | .error e => some (.badExclusion e)

/-- All complaints about a specification, at most one for each part. -/
def Spec.complaints (s : Spec) : List Complaint :=
  s.target.complaint?.toList ++ (jobsComplaint? [] s.jobs).toList ++
    (s.excludeDates.findSome? exclusionComplaint?).toList

end CronScale
