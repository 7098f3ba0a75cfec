import CronScale.Proofs.Json.Merging
import CronScale.Resource.Codec
/-!
# Statuses that are merged

A status that is written is merged into whatever is there. The members of its target are all texts,
its lists are put in the place of what was there, and members that are not known are passed over
when it is read; so what is read is the status that was written (`Status.ofJson?_of_presents`). Only
a target that the status does not have stays what it was.
-/

namespace CronScale

open CronScale.Calendar CronScale.Json

/-! ### Sizes -/

/-- Whether a number fits in 32 bits with a sign. -/
def FitsInt32 (n : Int) : Prop := -2147483648 ≤ n ∧ n ≤ 2147483647

theorem Json.asInt32_whole {n : Int} (h : FitsInt32 n) : asInt32 (.whole n) = some n := if_pos h

theorem Json.fits_of_asInt32 {j : Json} {n : Int} (h : asInt32 j = some n) : FitsInt32 n := by
  unfold asInt32 asWhole at h
  split at h
  · split at h
    · obtain rfl := Option.some.inj h
      assumption
    · cases h
  · cases h

/-- Whether all sizes in a status fit. -/
def Status.Fits (s : Status) : Prop := ∀ c ∈ s.conditions, FitsInt32 c.targetSize

/-- Whether all sizes in a resource fit. -/
structure Resource.Fits (r : Resource) : Prop where
  declared : ∀ j ∈ r.spec.jobs, FitsInt32 j.targetSize
  status : (r.status.getD .initial).Fits

/-! ### Values that present what was written -/

namespace Json

variable {j target : Json} {ms ns changes : List (String × Json)}

theorem Presents.rows (h : j.Presents (.record ns)) : ∃ ms, j = .record ms ∧
    ∀ name, Option.Rel Presents (valueOf name ms) (valueOf name ns) := by
  cases h with
  | record h => exact ⟨_, rfl, h⟩

theorem Presents.eq_text {s : String} (h : j.Presents (.text s)) : j = .text s := by
  cases h
  rfl

theorem Presents.eq_whole {n : Int} (h : j.Presents (.whole n)) : j = .whole n := by
  cases h
  rfl

theorem Presents.eq_bool {b : Bool} (h : j.Presents (.bool b)) : j = .bool b := by
  cases h
  rfl

/-- What a presented value holds in the place of a member. -/
theorem value_of_rel {name : String} {k : Json}
    (h : Option.Rel Presents (valueOf name ms) (valueOf name ns)) (hk : valueOf name ns = some k) :
    ∃ v, valueOf name ms = some v ∧ v.Presents k := by
  rw [hk] at h
  cases hv : valueOf name ms with
  | none =>
    rw [hv] at h
    cases h
  | some v =>
    rw [hv] at h
    cases h with
    | some h => exact ⟨v, rfl, h⟩

theorem text_of_rel {name s : String}
    (h : Option.Rel Presents (valueOf name ms) (valueOf name ns))
    (hs : valueOf name ns = some (.text s)) : valueOf name ms = some (.text s) := by
  obtain ⟨v, hv, hpresents⟩ := value_of_rel h hs
  rw [hv, hpresents.eq_text]

end Json

open Json

theorem Json.asOptional_of_some {α : Type} {value : Json → Option α} {j : Json} {a : α}
    (hnull : value .null = none) (h : value j = some a) : asOptional value j = some (some a) := by
  cases j with
  | null => cases hnull.symm.trans h
  | _ => exact congrArg (Option.map some) h

theorem Json.eq_null_of_asOptional {α : Type} {value : Json → Option α} {j : Json}
    (h : asOptional value j = some none) : j = .null := by
  cases j with
  | null => rfl
  | _ =>
    obtain ⟨a, -, ha⟩ := Option.map_eq_some_iff.1 h
    cases ha

/-! ### Targets, conditions and statuses -/

theorem TargetSpec.toJson_eq (t : TargetSpec) : t.toJson = .record
    [("apiVersion", .text t.apiVersion), ("kind", .text t.kind), ("name", .text t.name)] := by
  simp only [toJson, ofMembers, sortMembers, List.foldl_cons, List.foldl_nil, putMember,
    String.reduceLT, String.reduceEq, if_false]

theorem Condition.toJson_eq (c : Condition) : c.toJson = .record
    [("jobId", .text c.jobId), ("lastProbeTime", .text c.lastProbeTime),
      ("message", .text c.message), ("name", .text c.name), ("runOnce", .bool c.runOnce),
      ("schedule", .text c.schedule), ("state", .text c.state.name),
      ("targetSize", .whole c.targetSize)] := by
  simp only [toJson, ofMembers, sortMembers, List.foldl_cons, List.foldl_nil, putMember,
    String.reduceLT, String.reduceEq, if_true, if_false]

/-- The members that a status is written with. -/
def Status.written (s : Status) : List (String × Json) :=
  ("conditions", .list (s.conditions.map Condition.toJson)) ::
    ("excludeDates", texts s.excludeDates) ::
      present [("scaleTargetRef", s.target.map TargetSpec.toJson)]

theorem Status.toJson_eq (s : Status) : s.toJson = .record s.written := by
  cases htarget : s.target <;>
    simp only [toJson, written, htarget, ofMembers, sortMembers, present, Option.map_none,
      Option.map_some, List.filterMap_cons, List.filterMap_nil, List.nil_append, List.cons_append,
      List.foldl_cons, List.foldl_nil, putMember, String.reduceLT, String.reduceEq, if_true,
      if_false]

theorem Status.nodup_written (s : Status) : (s.written.map Prod.fst).Nodup := by
  cases htarget : s.target <;> simp [written, present, htarget]

theorem TargetSpec.ofJson?_of_presents {t : TargetSpec} {j target : Json}
    (hj : j.wellFormed = true) (h : j.Presents (merged t.toJson target)) : ofJson? j = some t := by
  rw [toJson_eq] at h
  obtain ⟨ms, rfl, hms⟩ := h.rows
  have hnodup := nodup_of_wellFormed hj
  have hdistinct : (List.map Prod.fst [("apiVersion", Json.text t.apiVersion),
      ("kind", .text t.kind), ("name", .text t.name)]).Nodup := by
    simp
  have hvalues := fun name => valueOf_mergedMembers hdistinct name target.rows
  have hversion := text_of_rel (hms "apiVersion") (hvalues _)
  have hkind := text_of_rel (hms "kind") (hvalues _)
  have hname := text_of_rel (hms "name") (hvalues _)
  simp only [ofJson?, members_of_nodup hnodup, required_of_nodup hnodup, hversion, hkind, hname,
    Option.bind_eq_bind, Option.bind_some, asText]
  rfl

theorem JobState.ofJson?_name (s : JobState) : ofJson? (.text s.name) = some s := by
  cases s <;> rfl

theorem Condition.ofJson?_of_presents {c : Condition} {j : Json} (hj : j.wellFormed = true)
    (hsize : FitsInt32 c.targetSize) (h : j.Presents c.toJson) : ofJson? j = some c := by
  rw [toJson_eq] at h
  obtain ⟨ms, rfl, hms⟩ := h.rows
  have hnodup := nodup_of_wellFormed hj
  have hname := text_of_rel (hms "name") rfl
  have hid := text_of_rel (hms "jobId") rfl
  have hschedule := text_of_rel (hms "schedule") rfl
  have hstate := text_of_rel (hms "state") rfl
  have htime := text_of_rel (hms "lastProbeTime") rfl
  have hmessage := text_of_rel (hms "message") rfl
  obtain ⟨v, hv, hpresents⟩ := value_of_rel (hms "targetSize") rfl
  have hwhole := hv.trans (congrArg some hpresents.eq_whole)
  obtain ⟨w, hw, hpresents⟩ := value_of_rel (hms "runOnce") rfl
  have honce := hw.trans (congrArg some hpresents.eq_bool)
  simp only [ofJson?, members_of_nodup hnodup, required_of_nodup hnodup, defaulted_of_nodup hnodup,
    hname, hid, hschedule, hwhole, honce, hstate, htime, hmessage, Option.bind_eq_bind,
    Option.bind_some, Option.elim_some, asText, asBool, asInt32_whole hsize, JobState.ofJson?_name]
  rfl

theorem Condition.asList_of_presents {cs : List Condition} {js : List Json}
    (hjs : (Json.list js).wellFormed = true) (hsizes : ∀ c ∈ cs, FitsInt32 c.targetSize)
    (h : List.Forall₂ Presents js (cs.map toJson)) : asList ofJson? (.list js) = some cs := by
  have hitems := fun j hj => wellFormed_item hjs (j := j) hj
  clear hjs
  show js.mapM ofJson? = some cs
  induction cs generalizing js with
  | nil =>
    cases h
    rfl
  | cons c cs ih =>
    cases h with
    | cons hj hjs =>
      obtain ⟨hc, hcs⟩ := List.forall_mem_cons.1 hsizes
      obtain ⟨hitem, hitems⟩ := List.forall_mem_cons.1 hitems
      rw [List.mapM_cons, ofJson?_of_presents hitem hc hj, ih hcs hjs hitems]
      rfl

theorem Json.asList_texts (ss : List String) : asList asText (texts ss) = some ss := by
  show (ss.map Json.text).mapM asText = some ss
  induction ss with
  | nil => rfl
  | cons s ss ih =>
    rw [List.map_cons, List.mapM_cons, ih]
    rfl

section

variable {s : Status} {ms old : List (String × Json)}

/-- A target that a status does not have stays what it was, and any other takes its place. -/
theorem Status.target_of_rel (hms : (Json.record ms).wellFormed = true)
    (hold : s.target = none → ∀ v, valueOf "scaleTargetRef" old = some v → v = .null)
    (h : Option.Rel Presents (valueOf "scaleTargetRef" ms)
      (valueOf "scaleTargetRef" (mergedMembers s.written old))) :
    optionalOf "scaleTargetRef" TargetSpec.ofJson? ms = some s.target := by
  unfold optionalOf
  have hvalue := valueOf_mergedMembers s.nodup_written "scaleTargetRef" old
  cases htarget : s.target with
  | none =>
    replace hvalue : _ = valueOf "scaleTargetRef" old :=
      hvalue.trans (by rw [written, htarget]; rfl)
    rw [hvalue] at h
    cases hv : valueOf "scaleTargetRef" ms with
    | none => rfl
    | some v =>
      rw [hv] at h
      cases hv' : valueOf "scaleTargetRef" old with
      | none =>
        rw [hv'] at h
        cases h
      | some v' =>
        rw [hv', hold htarget v' hv'] at h
        cases h with
        | some hpresents =>
          cases hpresents
          rfl
  | some t =>
    have hchanged : (valueOf "scaleTargetRef" s.written).elim (valueOf "scaleTargetRef" old)
        (fun j => changed j (valueOf "scaleTargetRef" old)) =
          some (merged t.toJson ((valueOf "scaleTargetRef" old).getD .null)) := by
      rw [written, htarget, Option.map_some, TargetSpec.toJson_eq]
      rfl
    obtain ⟨v, hv, hpresents⟩ := value_of_rel h (hvalue.trans hchanged)
    rw [hv]
    exact asOptional_of_some rfl
      (TargetSpec.ofJson?_of_presents (wellFormed_valueOf hms hv) hpresents)

end

/-- What is read after a status was merged is the status that was written, if a target that it does
not have was not there either. -/
theorem Status.ofJson?_of_presents {s : Status} {j target : Json} (hj : j.wellFormed = true)
    (hsizes : s.Fits)
    (htarget : s.target = none → ∀ v, valueOf "scaleTargetRef" target.rows = some v → v = .null)
    (h : j.Presents (merged s.toJson target)) : ofJson? j = some s := by
  rw [toJson_eq] at h
  obtain ⟨ms, rfl, hms⟩ := h.rows
  have hnodup := nodup_of_wellFormed hj
  have hvalues := fun name => valueOf_mergedMembers s.nodup_written name target.rows
  have hdates : valueOf "excludeDates" ms = some (texts s.excludeDates) := by
    obtain ⟨v, hv, hpresents⟩ := value_of_rel (hms "excludeDates") (hvalues _)
    rw [hv, hpresents.texts]
  obtain ⟨v, hconditions, hpresents⟩ := value_of_rel (hms "conditions") (hvalues _)
  have hread : asList Condition.ofJson? v = some s.conditions := by
    cases hpresents with
    | list hitems =>
      exact Condition.asList_of_presents (wellFormed_valueOf hj hconditions) hsizes hitems
  have hoptional := target_of_rel hj htarget (hms "scaleTargetRef")
  simp only [ofJson?, members_of_nodup hnodup, defaulted_of_nodup hnodup, optional_of_nodup hnodup,
    hdates, hconditions, hread, hoptional, asList_texts, Option.bind_eq_bind, Option.bind_some,
    Option.elim_some]
  rfl

/-! ### Metadata and resources -/

namespace Metadata

/-- Whether metadata differ from others at most in the version, and in who has written what. -/
def Renewed (m m' : Metadata) (version : String) : Prop :=
  ∃ fields, m' = { m with resourceVersion := some version, managedFields := fields }

/-- Whether members give metadata with a version and are otherwise as others, up to who has written
what. -/
structure Renews (version : String) (ms ms' : List (String × Json)) : Prop where
  version : valueOf "resourceVersion" ms' = some (.text version)
  fields : ∃ fields, optionalOf "managedFields" (asList ManagedFields.ofJson?) ms' = some fields
  others : ∀ name, name ≠ "resourceVersion" → name ≠ "managedFields" →
    valueOf name ms' = valueOf name ms

/-- Whether metadata are what members say, each of which may be left out. -/
structure Tells (ms : List (String × Json)) (m : Metadata) : Prop where
  name : optionalOf "name" asText ms = some m.name
  ns : optionalOf "namespace" asText ms = some m.ns
  generateName : optionalOf "generateName" asText ms = some m.generateName
  resourceVersion : optionalOf "resourceVersion" asText ms = some m.resourceVersion
  uid : optionalOf "uid" asText ms = some m.uid
  selfLink : optionalOf "selfLink" asText ms = some m.selfLink
  generation : optionalOf "generation" asInt64 ms = some m.generation
  labels : optionalOf "labels" (asTable asText) ms = some m.labels
  annotations : optionalOf "annotations" (asTable asText) ms = some m.annotations
  finalizers : optionalOf "finalizers" (asList asText) ms = some m.finalizers
  creationTimestamp : optionalOf "creationTimestamp" asTimestamp ms = some m.creationTimestamp
  deletionTimestamp : optionalOf "deletionTimestamp" asTimestamp ms = some m.deletionTimestamp
  deletionGracePeriodSeconds : optionalOf "deletionGracePeriodSeconds" asInt64 ms =
    some m.deletionGracePeriodSeconds
  ownerReferences : optionalOf "ownerReferences" (asList OwnerReference.ofJson?) ms =
    some m.ownerReferences
  managedFields : optionalOf "managedFields" (asList ManagedFields.ofJson?) ms =
    some m.managedFields

variable {ms ms' : List (String × Json)} {m : Metadata} {version : String}

theorem ofJson?_record_iff (hms : (ms.map Prod.fst).Nodup) :
    ofJson? (.record ms) = some m ↔ Tells ms m := by
  have hread {α : Type} (name : String) (value : Json → Option α) :
      (Members.mk false ms).optional name value = optionalOf name value ms :=
    optional_of_nodup hms name value
  constructor
  · intro hm
    obtain ⟨_, hname, hm⟩ := Option.bind_eq_some_iff.1 hm
    obtain ⟨_, hns, hm⟩ := Option.bind_eq_some_iff.1 hm
    obtain ⟨_, hgenerateName, hm⟩ := Option.bind_eq_some_iff.1 hm
    obtain ⟨_, hresourceVersion, hm⟩ := Option.bind_eq_some_iff.1 hm
    obtain ⟨_, huid, hm⟩ := Option.bind_eq_some_iff.1 hm
    obtain ⟨_, hselfLink, hm⟩ := Option.bind_eq_some_iff.1 hm
    obtain ⟨_, hgeneration, hm⟩ := Option.bind_eq_some_iff.1 hm
    obtain ⟨_, hlabels, hm⟩ := Option.bind_eq_some_iff.1 hm
    obtain ⟨_, hannotations, hm⟩ := Option.bind_eq_some_iff.1 hm
    obtain ⟨_, hfinalizers, hm⟩ := Option.bind_eq_some_iff.1 hm
    obtain ⟨_, hcreationTimestamp, hm⟩ := Option.bind_eq_some_iff.1 hm
    obtain ⟨_, hdeletionTimestamp, hm⟩ := Option.bind_eq_some_iff.1 hm
    obtain ⟨_, hdeletionGracePeriodSeconds, hm⟩ := Option.bind_eq_some_iff.1 hm
    obtain ⟨_, hownerReferences, hm⟩ := Option.bind_eq_some_iff.1 hm
    obtain ⟨_, hmanagedFields, hm⟩ := Option.bind_eq_some_iff.1 hm
    obtain rfl := Option.some.inj hm
    rw [hread] at hname hns hgenerateName hresourceVersion huid hselfLink hgeneration hlabels
    rw [hread] at hannotations hfinalizers hcreationTimestamp hdeletionTimestamp
    rw [hread] at hdeletionGracePeriodSeconds hownerReferences hmanagedFields
    exact ⟨hname, hns, hgenerateName, hresourceVersion, huid, hselfLink, hgeneration, hlabels,
      hannotations, hfinalizers, hcreationTimestamp, hdeletionTimestamp,
      hdeletionGracePeriodSeconds, hownerReferences, hmanagedFields⟩
  · intro h
    refine Option.bind_eq_some_iff.2 ⟨_, (hread _ _).trans h.name, ?_⟩
    refine Option.bind_eq_some_iff.2 ⟨_, (hread _ _).trans h.ns, ?_⟩
    refine Option.bind_eq_some_iff.2 ⟨_, (hread _ _).trans h.generateName, ?_⟩
    refine Option.bind_eq_some_iff.2 ⟨_, (hread _ _).trans h.resourceVersion, ?_⟩
    refine Option.bind_eq_some_iff.2 ⟨_, (hread _ _).trans h.uid, ?_⟩
    refine Option.bind_eq_some_iff.2 ⟨_, (hread _ _).trans h.selfLink, ?_⟩
    refine Option.bind_eq_some_iff.2 ⟨_, (hread _ _).trans h.generation, ?_⟩
    refine Option.bind_eq_some_iff.2 ⟨_, (hread _ _).trans h.labels, ?_⟩
    refine Option.bind_eq_some_iff.2 ⟨_, (hread _ _).trans h.annotations, ?_⟩
    refine Option.bind_eq_some_iff.2 ⟨_, (hread _ _).trans h.finalizers, ?_⟩
    refine Option.bind_eq_some_iff.2 ⟨_, (hread _ _).trans h.creationTimestamp, ?_⟩
    refine Option.bind_eq_some_iff.2 ⟨_, (hread _ _).trans h.deletionTimestamp, ?_⟩
    refine Option.bind_eq_some_iff.2 ⟨_, (hread _ _).trans h.deletionGracePeriodSeconds, ?_⟩
    refine Option.bind_eq_some_iff.2 ⟨_, (hread _ _).trans h.ownerReferences, ?_⟩
    refine Option.bind_eq_some_iff.2 ⟨_, (hread _ _).trans h.managedFields, ?_⟩
    rfl

/-- Renewed metadata are read as the ones before with the version. -/
theorem Tells.renewed (hm : Tells ms m) (h : Renews version ms ms') :
    ∃ m', Tells ms' m' ∧ m.Renewed m' version := by
  obtain ⟨fields, hfields⟩ := h.fields
  have hsame {α : Type} {value : Json → Option α} {a : Option α} (name : String)
      (hread : optionalOf name value ms = some a) (hversion : name ≠ "resourceVersion")
      (hfields : name ≠ "managedFields") : optionalOf name value ms' = some a := by
    rw [optionalOf, h.others name hversion hfields]
    exact hread
  have hversion : optionalOf "resourceVersion" asText ms' = some (some version) := by
    rw [optionalOf, h.version]
    rfl
  exact ⟨{ m with resourceVersion := some version, managedFields := fields },
    { name := hsame _ hm.name (by decide) (by decide)
      ns := hsame _ hm.ns (by decide) (by decide)
      generateName := hsame _ hm.generateName (by decide) (by decide)
      resourceVersion := hversion
      uid := hsame _ hm.uid (by decide) (by decide)
      selfLink := hsame _ hm.selfLink (by decide) (by decide)
      generation := hsame _ hm.generation (by decide) (by decide)
      labels := hsame _ hm.labels (by decide) (by decide)
      annotations := hsame _ hm.annotations (by decide) (by decide)
      finalizers := hsame _ hm.finalizers (by decide) (by decide)
      creationTimestamp := hsame _ hm.creationTimestamp (by decide) (by decide)
      deletionTimestamp := hsame _ hm.deletionTimestamp (by decide) (by decide)
      deletionGracePeriodSeconds := hsame _ hm.deletionGracePeriodSeconds (by decide) (by decide)
      ownerReferences := hsame _ hm.ownerReferences (by decide) (by decide)
      managedFields := hfields }, fields, rfl⟩

/-- The version is read from its member. -/
theorem Tells.version_iff (hm : Tells ms m) (v : String) :
    valueOf "resourceVersion" ms = some (.text v) ↔ m.resourceVersion = some v := by
  have hversion := hm.resourceVersion
  unfold optionalOf at hversion
  match valueOf "resourceVersion" ms, hversion with
  | none, hversion => simp [← Option.some.inj hversion]
  | some .null, hversion => simp [← Option.some.inj hversion]
  | some (.text w), hversion => simp [← Option.some.inj hversion]

end Metadata

namespace Resource

variable {r : Resource} {ms ms' : List (String × Json)}

/-- A resource is read from three members. -/
theorem ofJson?_record_iff (h : (ms.map Prod.fst).Nodup) : ofJson? (.record ms) = some r ↔
    (valueOf "metadata" ms).bind Metadata.ofJson? = some r.metadata ∧
      (valueOf "spec" ms).bind Spec.ofJson? = some r.spec ∧
        optionalOf "status" Status.ofJson? ms = some r.status := by
  simp only [ofJson?, members_of_nodup h, required_of_nodup h, optional_of_nodup h,
    Option.bind_eq_bind, Option.bind_some]
  constructor
  · intro hr
    obtain ⟨metadata, hmetadata, hr⟩ := Option.bind_eq_some_iff.1 hr
    obtain ⟨spec, hspec, hr⟩ := Option.bind_eq_some_iff.1 hr
    obtain ⟨status, hstatus, hr⟩ := Option.bind_eq_some_iff.1 hr
    obtain rfl := Option.some.inj hr
    exact ⟨hmetadata, hspec, hstatus⟩
  · rintro ⟨hmetadata, hspec, hstatus⟩
    rw [hmetadata, hspec, hstatus]
    rfl

/-- A status without a target is read from members without a target. -/
theorem noTarget_of_ofJson? (hms : (Json.record ms).wellFormed = true)
    (hr : ofJson? (.record ms) = some r) (hnone : r.status.bind Status.target = none) {v : Json}
    (hv : valueOf "scaleTargetRef" ((valueOf "status" ms).getD .null).rows = some v) :
    v = .null := by
  obtain ⟨-, -, hstatus⟩ := (ofJson?_record_iff (nodup_of_wellFormed hms)).1 hr
  cases hold : valueOf "status" ms with
  | none =>
    rw [hold] at hv
    cases hv
  | some old =>
    rw [optionalOf, hold] at hstatus
    rw [hold] at hv
    cases old with
    | record sms =>
      have hnodup := nodup_of_wellFormed (wellFormed_valueOf hms hold)
      obtain ⟨s, hs, hsome⟩ := Option.map_eq_some_iff.1 hstatus
      simp only [Status.ofJson?, members_of_nodup hnodup, optional_of_nodup hnodup,
        Option.bind_eq_bind, Option.bind_some] at hs
      obtain ⟨target, htarget, hs⟩ := Option.bind_eq_some_iff.1 hs
      obtain ⟨excludeDates, -, hs⟩ := Option.bind_eq_some_iff.1 hs
      obtain ⟨conditions, -, hs⟩ := Option.bind_eq_some_iff.1 hs
      obtain rfl := Option.some.inj hs
      obtain rfl : target = none := by rwa [← hsome] at hnone
      replace hv : valueOf "scaleTargetRef" sms = some v := hv
      rw [optionalOf, hv] at htarget
      exact eq_null_of_asOptional htarget
    | _ => cases hv

/-- A resource whose status was merged, and nothing else of which has changed but its version, is
read with the status that was written. -/
theorem ofJson?_of_merged {s : Status} {version : String} {m m' : List (String × Json)} {v : Json}
    (hms : (Json.record ms).wellFormed = true) (hms' : (Json.record ms').wellFormed = true)
    (hr : ofJson? (.record ms) = some r) (hsizes : s.Fits)
    (htarget : s.target = none → r.status.bind Status.target = none)
    (hm : valueOf "metadata" ms = some (.record m))
    (hm' : valueOf "metadata" ms' = some (.record m')) (hrenews : Metadata.Renews version m m')
    (hspec : valueOf "spec" ms' = valueOf "spec" ms) (hv : valueOf "status" ms' = some v)
    (hmerged : v.Presents (merged s.toJson ((valueOf "status" ms).getD .null))) :
    ∃ metadata, r.metadata.Renewed metadata version ∧
      ofJson? (.record ms') = some ⟨metadata, r.spec, some s⟩ := by
  obtain ⟨hmetadata, hspecRead, -⟩ := (ofJson?_record_iff (nodup_of_wellFormed hms)).1 hr
  rw [hm] at hmetadata
  have htells := (Metadata.ofJson?_record_iff
    (nodup_of_wellFormed (wellFormed_valueOf hms hm))).1 hmetadata
  obtain ⟨metadata, htells', hrenewed⟩ := htells.renewed hrenews
  have hread := (Metadata.ofJson?_record_iff
    (nodup_of_wellFormed (wellFormed_valueOf hms' hm'))).2 htells'
  refine ⟨metadata, hrenewed, (ofJson?_record_iff (nodup_of_wellFormed hms')).2 ⟨?_, ?_, ?_⟩⟩
  · rw [hm']
    exact hread
  · rw [hspec]
    exact hspecRead
  · rw [optionalOf, hv]
    refine asOptional_of_some rfl (Status.ofJson?_of_presents (wellFormed_valueOf hms' hv) hsizes
      (fun hnone v' hv' => noTarget_of_ofJson? hms hr (htarget hnone) hv') hmerged)

end Resource

/-! ### Sizes of what is read -/

/-- What a list is read as was read from its items. -/
theorem exists_of_mapM {α β : Type} {f : α → Option β} {xs : List α} {ys : List β}
    (h : xs.mapM f = some ys) {y : β} (hy : y ∈ ys) : ∃ x, f x = some y := by
  induction xs generalizing ys with
  | nil =>
    obtain rfl : [] = ys := Option.some.inj h
    cases hy
  | cons x xs ih =>
    rw [List.mapM_cons] at h
    obtain ⟨z, hz, h⟩ := Option.bind_eq_some_iff.1 h
    obtain ⟨zs, hzs, h⟩ := Option.bind_eq_some_iff.1 h
    obtain rfl := Option.some.inj h
    rcases List.mem_cons.1 hy with rfl | hy
    · exact ⟨x, hz⟩
    · exact ih hzs hy

namespace Json

variable {α : Type} {m : Members} {name : String} {value : Json → Option α} {a : α}

theorem exists_of_read? (h : m.read? name value = some (some a)) : ∃ j, value j = some a := by
  obtain ⟨as, has, hlast⟩ := Option.map_eq_some_iff.1 h
  obtain ⟨row, hrow⟩ := exists_of_mapM has (List.mem_of_getLast? hlast)
  exact ⟨row.2, hrow⟩

theorem exists_of_required (h : m.required name value = some a) : ∃ j, value j = some a :=
  exists_of_read? (Option.join_eq_some_iff.1 h)

theorem exists_of_defaulted {default : α} (h : m.defaulted name default value = some a) :
    a = default ∨ ∃ j, value j = some a := by
  obtain ⟨found, hfound, rfl⟩ := Option.map_eq_some_iff.1 h
  cases found with
  | none => exact .inl rfl
  | some a => exact .inr (exists_of_read? hfound)

theorem exists_of_optional (h : m.optional name value = some (some a)) : ∃ j, value j = some a := by
  obtain ⟨found, hfound, hv⟩ := Option.bind_eq_some_iff.1 h
  cases found with
  | none =>
    simp only at hv
    split at hv <;> cases hv
  | some v =>
    obtain rfl := Option.some.inj hv
    obtain ⟨j, hj⟩ := exists_of_read? hfound
    cases j with
    | null => cases hj
    | _ =>
      obtain ⟨a', ha', heq⟩ := Option.map_eq_some_iff.1 hj
      exact ⟨_, ha'.trans heq⟩

theorem exists_of_asList {j : Json} {as : List α} (h : asList value j = some as) (ha : a ∈ as) :
    ∃ j, value j = some a := by
  cases j with
  | list js => exact exists_of_mapM h ha
  | _ => cases h

end Json

theorem JobSpec.fits_of_ofJson? {j : Json} {job : JobSpec} (h : ofJson? j = some job) :
    FitsInt32 job.targetSize := by
  simp only [ofJson?, Option.bind_eq_bind, Option.bind_eq_some_iff] at h
  obtain ⟨_, -, _, -, _, -, _, -, size, hsize, h⟩ := h
  obtain rfl := Option.some.inj h
  obtain ⟨v, hv⟩ := exists_of_required hsize
  exact fits_of_asInt32 hv

theorem Condition.fits_of_ofJson? {j : Json} {c : Condition} (h : ofJson? j = some c) :
    FitsInt32 c.targetSize := by
  simp only [ofJson?, Option.bind_eq_bind, Option.bind_eq_some_iff] at h
  obtain ⟨_, -, _, -, _, -, _, -, size, hsize, _, -, _, -, _, -, _, -, h⟩ := h
  obtain rfl := Option.some.inj h
  obtain ⟨v, hv⟩ := exists_of_required hsize
  exact fits_of_asInt32 hv

theorem Status.fits_of_ofJson? {j : Json} {s : Status} (h : ofJson? j = some s) : s.Fits := by
  simp only [ofJson?, Option.bind_eq_bind, Option.bind_eq_some_iff] at h
  obtain ⟨_, -, _, -, _, -, conditions, hconditions, h⟩ := h
  obtain rfl := Option.some.inj h
  intro c hc
  rcases exists_of_defaulted hconditions with rfl | ⟨v, hv⟩
  · cases hc
  · obtain ⟨item, hitem⟩ := exists_of_asList hv hc
    exact Condition.fits_of_ofJson? hitem

theorem Spec.fits_of_ofJson? {j : Json} {s : Spec} (h : ofJson? j = some s) :
    ∀ job ∈ s.jobs, FitsInt32 job.targetSize := by
  simp only [ofJson?, Option.bind_eq_bind, Option.bind_eq_some_iff] at h
  obtain ⟨_, -, _, -, _, -, jobs, hjobs, h⟩ := h
  obtain rfl := Option.some.inj h
  intro job hjob
  rcases exists_of_defaulted hjobs with rfl | ⟨v, hv⟩
  · cases hjob
  · obtain ⟨item, hitem⟩ := exists_of_asList hv hjob
    exact JobSpec.fits_of_ofJson? hitem

/-- All sizes in a resource that was read fit. -/
theorem Resource.fits_of_ofJson? {j : Json} {r : Resource} (h : ofJson? j = some r) : r.Fits := by
  simp only [ofJson?, Option.bind_eq_bind, Option.bind_eq_some_iff] at h
  obtain ⟨_, -, _, -, spec, hspec, status, hstatus, h⟩ := h
  obtain rfl := Option.some.inj h
  obtain ⟨v, hv⟩ := exists_of_required hspec
  refine ⟨Spec.fits_of_ofJson? hv, ?_⟩
  cases status with
  | none => exact fun c hc => absurd hc List.not_mem_nil
  | some s =>
    obtain ⟨v, hv⟩ := exists_of_optional hstatus
    exact Status.fits_of_ofJson? hv

end CronScale
