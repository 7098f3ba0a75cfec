import Mathlib.Logic.Function.Basic
import CronScale.Proofs.Cluster.Requests
import CronScale.Proofs.Resource.Patches
import CronScale.Rehearsal.Store
/-!
# Statuses that are replaced by merging

A home of resources may simply put a status in the place of the one before, as one in memory does
(`Resources.Answers`). The cluster merges it into what it has stored, members that nobody knows
included (`Objects.Serves`). Call by call it answers like a home that replaces statuses, and has the
resources of such a home afterwards (`Objects.Served.answers`). The one thing that a merge cannot do
is to take a target away; so this is asked of the statuses that are written (`Resource.Admits`).
-/

namespace CronScale

open CronScale.Json

/-! ### Homes that replace statuses -/

/-- Resources by their keys. -/
abbrev Resources : Type := OwnerKey → Option Resource

/-- How a home that replaces statuses answers a call, and which resources it has then. A resource
that is written gets a version, and what it says of its writers may change. -/
inductive Resources.Answers (resources : Resources) : (c : StoreCall) → c.Reply → Resources → Prop
  | fetched (key : OwnerKey) : Answers resources (.fetch key) (.ok (resources key)) resources
  | missing {key : OwnerKey} (s : Status) (version : Option String)
      (hnone : resources key = none) :
      Answers resources (.patchStatus key s version) (.error (.missing key.text)) resources
  | outdated {key : OwnerKey} {r : Resource} (s : Status) {v : String}
      (hstored : resources key = some r) (hversion : r.metadata.resourceVersion ≠ some v) :
      Answers resources (.patchStatus key s (some v)) (.error (.outdated key.text)) resources
  | replaced {key : OwnerKey} {r : Resource} (s : Status) {version : Option String}
      {metadata : Metadata} {v : String} (hstored : resources key = some r)
      (hversion : version = none ∨ version = r.metadata.resourceVersion)
      (hrenewed : r.metadata.Renewed metadata v) :
      Answers resources (.patchStatus key s version) (.ok ())
        (Function.update resources key (some ⟨metadata, r.spec, some s⟩))
  | published (r : Resource) (e : Event) : Answers resources (.publish r e) () resources

/-- What such a home answers is settled by its resources. -/
theorem Resources.Answers.reply_eq {resources after after' : Resources} {c : StoreCall}
    {reply reply' : c.Reply} (h : resources.Answers c reply after)
    (h' : resources.Answers c reply' after') : reply = reply' := by
  cases h with
  | fetched key =>
    cases h'
    rfl
  | published r e => rfl
  | missing s version hnone =>
    cases h' with
    | missing => rfl
    | outdated _ hstored => cases hnone.symm.trans hstored
    | replaced _ hstored => cases hnone.symm.trans hstored
  | outdated s hstored hversion =>
    cases h' with
    | missing _ _ hnone => cases hnone.symm.trans hstored
    | outdated => rfl
    | replaced _ hstored' hversion' =>
      obtain rfl := Option.some.inj (hstored.symm.trans hstored')
      exact absurd hversion' (by simp [hversion.symm])
  | replaced s hstored hversion =>
    cases h' with
    | missing _ _ hnone => cases hnone.symm.trans hstored
    | outdated _ hstored' hversion' =>
      obtain rfl := Option.some.inj (hstored.symm.trans hstored')
      exact absurd hversion (by simp [hversion'.symm])
    | replaced => rfl

/-- A home in memory replaces statuses, as long as nothing is made to fail or to come in between. -/
theorem Rehearsal.MemoryStore.answers_of_undisturbed {m : MemoryStore}
    (hpatch : m.patchFaults = []) (hfetch : m.fetchFaults = Table.empty) (hrace : m.race = none)
    (now : Int) (c : StoreCall) :
    Resources.Answers m.resources.get? c (m.answer now c).1 (m.answer now c).2.resources.get? := by
  cases c with
  | fetch key =>
    have hanswer : m.answer now (.fetch key) = (.ok (m.resources.get? key), m) := by
      simp only [answer, fetch, hfetch, Table.get?_empty, Option.getD_none, runRace, hrace]
      rfl
    rw [hanswer]
    exact .fetched key
  | publish r e => exact .published r e
  | patchStatus key s version =>
    cases hr : m.resources.get? key with
    | none =>
      have hanswer : m.answer now (.patchStatus key s version) =
          (.error (.missing key.text), m) := by
        simp only [answer, patch, hpatch, hr]
        rfl
      rw [hanswer]
      exact .missing s version hr
    | some r =>
      by_cases hversion : version = none ∨ version = r.metadata.resourceVersion
      · have hcurrent : (version.isSome && version != r.metadata.resourceVersion) = false := by
          rcases hversion with rfl | rfl <;> simp
        have hreply : (m.answer now (.patchStatus key s version)).1 = .ok () := by
          simp only [answer, patch, hpatch, hr, hcurrent]
          rfl
        have hafter : (m.answer now (.patchStatus key s version)).2.resources.get? =
            Function.update m.resources.get? key (some { r with
              metadata.resourceVersion := some (toString ((m.versions.get? key).getD 0 + 1))
              status := some s }) := by
          funext k
          simp only [answer, patch, hpatch, hr, hcurrent, writeStatus, write, Function.update_apply]
          exact Table.get?_insert _ _ _ _
        rw [hreply, hafter]
        exact .replaced s hr hversion ⟨r.metadata.managedFields, rfl⟩
      · obtain ⟨v, rfl⟩ := Option.ne_none_iff_exists'.1 fun h => hversion (.inl h)
        have hother : some v ≠ r.metadata.resourceVersion := fun h => hversion (.inr h)
        have hanswer : m.answer now (.patchStatus key s (some v)) =
            (.error (.outdated key.text), m) := by
          simp only [answer, patch, hpatch, hr, Option.isSome_some, Bool.true_and, bne_iff_ne,
            ne_eq, hother, not_false_eq_true, if_true]
          rfl
        rw [hanswer]
        exact .outdated s hr hother.symm

/-! ### Patches of statuses -/

/-- Whether a resource can get a status by a merge: no target has to be taken away. -/
structure Resource.Admits (r : Resource) (s : Status) : Prop where
  sizes : s.Fits
  target : s.target = none → r.status.bind Status.target = none

/-- Whether a status can take the place of that which is stored by a merge, if it comes to that. -/
def StoreCall.Admitted (resources : Resources) : StoreCall → Prop
  | patchStatus key s version => ∀ r, resources key = some r →
    version = none ∨ version = r.metadata.resourceVersion → r.Admits s
  | _ => True

/-- The version that a value gives for itself. -/
def Json.versionOf (j : Json) : Option Json :=
  (valueOf "metadata" j.rows).bind fun m => valueOf "resourceVersion" m.rows

namespace Cluster

/-- The members of a patch of a status. -/
def patchMembers (s : Status) (version : Option String) : List (String × Json) :=
  present [("metadata", version.map fun v => .record [("resourceVersion", .text v)])] ++
    [("status", s.toJson)]

theorem statusPatch_eq (s : Status) (version : Option String) :
    statusPatch s version = .record (patchMembers s version) := by
  cases version with
  | none => rfl
  | some v =>
    simp only [statusPatch, patchMembers, ofMembers, sortMembers, present, Option.map_some,
      List.filterMap_cons, List.filterMap_nil, List.nil_append, List.cons_append, List.foldl_cons,
      List.foldl_nil, putMember, String.reduceLT, String.reduceEq, if_true, if_false]

theorem versionOf_statusPatch (s : Status) (version : Option String) :
    (statusPatch s version).versionOf = version.map .text := by
  rw [statusPatch_eq]
  cases version <;> rfl

theorem valueOf_merged_statusPatch (s : Status) (version : Option String)
    (ms : List (String × Json)) :
    valueOf "status" (merged (statusPatch s version) (.record ms)).rows =
      some (merged s.toJson ((valueOf "status" ms).getD .null)) := by
  have hnodup : ((patchMembers s version).map Prod.fst).Nodup := by
    cases version <;> simp [patchMembers, present]
  have hstatus : valueOf "status" (patchMembers s version) = some s.toJson := by
    cases version <;> rfl
  rw [statusPatch_eq]
  refine (valueOf_mergedMembers hnodup "status" ms).trans ?_
  rw [hstatus, Status.toJson_eq]
  rfl

/-! ### What the cluster stores -/

/-- An object of the cluster, members that nobody knows included. -/
structure Object where
  members : List (String × Json)
  wellFormed : (Json.record members).wellFormed = true

/-- The objects of the cluster by their keys. -/
abbrev Objects : Type := OwnerKey → Option Object

namespace Object

/-- The resource that is read from an object. -/
def resource? (o : Object) : Option Resource := Resource.ofJson? (.record o.members)

/-- What a patch of its status makes of an object: its status is merged, it gets a version, and what
it says of its writers may change. -/
structure Patched (patch : Json) (version : String) (o o' : Object) : Prop where
  status : Option.Rel Presents (valueOf "status" o'.members)
    (valueOf "status" (merged patch (.record o.members)).rows)
  spec : valueOf "spec" o'.members = valueOf "spec" o.members
  metadata : ∃ ms ms', valueOf "metadata" o.members = some (.record ms) ∧
    valueOf "metadata" o'.members = some (.record ms') ∧ Metadata.Renews version ms ms'

variable {o o' : Object} {r : Resource}

/-- The version of an object is that of the resource that is read from it. -/
theorem versionOf_eq_iff (hr : o.resource? = some r) (v : String) :
    (Json.record o.members).versionOf = some (.text v) ↔ r.metadata.resourceVersion = some v := by
  obtain ⟨hmetadata, -, -⟩ :=
    (Resource.ofJson?_record_iff (nodup_of_wellFormed o.wellFormed)).1 hr
  obtain ⟨j, hj, hread⟩ := Option.bind_eq_some_iff.1 hmetadata
  cases j with
  | record ms =>
    have hversion : (Json.record o.members).versionOf = valueOf "resourceVersion" ms := by
      simp only [versionOf, rows, hj, Option.bind_some]
    rw [hversion]
    exact ((Metadata.ofJson?_record_iff
      (nodup_of_wellFormed (wellFormed_valueOf o.wellFormed hj))).1 hread).version_iff v
  | _ => cases hread

/-- A patched object is read as the resource with the status that was written. -/
theorem Patched.resource? {s : Status} {version : Option String} {v : String}
    (h : Patched (statusPatch s version) v o o') (hr : o.resource? = some r) (hs : r.Admits s) :
    ∃ metadata, r.metadata.Renewed metadata v ∧
      o'.resource? = some ⟨metadata, r.spec, some s⟩ := by
  obtain ⟨ms, ms', hms, hms', hrenews⟩ := h.metadata
  obtain ⟨j, hj, hpresents⟩ := value_of_rel h.status (valueOf_merged_statusPatch s version _)
  exact Resource.ofJson?_of_merged o.wellFormed o'.wellFormed hr hs.sizes hs.target hms hms' hrenews
    h.spec hj hpresents

end Object

namespace Objects

/-- The resources that are read from the objects. -/
def resources (objects : Objects) : Resources := fun key => (objects key).bind Object.resource?

/-- Whether every object is read as a resource. -/
def Legible (objects : Objects) : Prop :=
  ∀ key o, objects key = some o → ∃ r, o.resource? = some r

/-- How the cluster answers when it is asked for an object. -/
inductive Shows (objects : Objects) (key : OwnerKey) (a : Answer) : Prop
  | found {o : Object} (hstored : objects key = some o) (hgranted : a.refuses = false)
      (hbody : Json.read? a.body = some (.record o.members))
  | absent (hnone : objects key = none) (hrefused : a.refuses = true)
      (hreason : a.refusal.reason = "NotFound")

/-- How the cluster answers a patch of a status, and which objects it has then. -/
inductive Patches (objects : Objects) (key : OwnerKey) (patch : Json) (a : Answer) :
    Objects → Prop
  | patched {o o' : Object} {version : String} (hstored : objects key = some o)
      (hversion : patch.versionOf = none ∨ patch.versionOf = (Json.record o.members).versionOf)
      (hpatched : o.Patched patch version o') (hgranted : a.refuses = false)
      (hbody : Json.read? a.body = some (.record o'.members)) :
      Patches objects key patch a (Function.update objects key (some o'))
  | outdated {o : Object} {version : Json} (hstored : objects key = some o)
      (hversion : patch.versionOf = some version)
      (hother : (Json.record o.members).versionOf ≠ some version)
      (hrefused : a.refuses = true) (hcode : a.refusal.code = 409) :
      Patches objects key patch a objects
  | missing (hnone : objects key = none) (hrefused : a.refuses = true)
      (hcode : a.refusal.code = 404) : Patches objects key patch a objects

/-- How the cluster answers a request, and which objects it has then. What is posted is no
resource. -/
inductive Serves (objects : Objects) : Request → Except String Answer → Objects → Prop
  | shows {key : OwnerKey} {a : Answer} (hkey : key.Addressable) (hshows : objects.Shows key a) :
      Serves objects ⟨.get, pathTo key "", none⟩ (.ok a) objects
  | patches {key : OwnerKey} {patch : Json} {a : Answer} {objects' : Objects}
      (hkey : key.Addressable) (hpatches : objects.Patches key patch a objects') :
      Serves objects ⟨.patch, pathTo key "/status" ++ "?", some patch⟩ (.ok a) objects'
  | posted (path : String) (body : Option Json) (reply : Except String Answer) :
      Serves objects ⟨.post, path, body⟩ reply objects

/-- A procedure whose requests the cluster serves comes to a result. -/
inductive Served {α : Type} : Objects → Procedure Api α → α → Objects → Prop
  | done (objects : Objects) (a : α) : Served objects (.done a) a objects
  | ask {objects objects' objects'' : Objects} {r : Request}
      {next : Except String Answer → Procedure Api α} {reply : Except String Answer} {a : α}
      (hserves : objects.Serves r reply objects')
      (hrest : Served objects' (next reply) a objects'') :
      Served objects (Procedure.ask (I := Api) r next) a objects''

section

variable {α : Type} {objects objects' : Objects} {key : OwnerKey} {r : Resource}

theorem resources_update (o : Object) : resources (Function.update objects key (some o)) =
    Function.update objects.resources key o.resource? := by
  funext k
  by_cases hk : k = key
  · subst hk
    simp [resources]
  · simp [resources, hk]

theorem Legible.update {o : Object} (h : objects.Legible) (hr : o.resource? = some r) :
    Legible (Function.update objects key (some o)) := by
  intro k o' ho'
  rw [Function.update_apply] at ho'
  split at ho'
  · obtain rfl := Option.some.inj ho'
    exact ⟨r, hr⟩
  · exact h k o' ho'

theorem served_one_iff {r : Request} {made : Except String Answer → α} {a : α} :
    Served objects (Procedure.ask (I := Api) r fun reply => .done (made reply)) a objects' ↔
      ∃ reply, objects.Serves r reply objects' ∧ a = made reply := by
  constructor
  · intro h
    cases h with
    | ask hserves hrest =>
      cases hrest
      exact ⟨_, hserves, rfl⟩
  · rintro ⟨reply, hserves, rfl⟩
    exact .ask hserves (.done _ _)

/-! What the cluster makes of a request is settled by its path. -/

theorem Serves.of_get {reply : Except String Answer} (hkey : key.Addressable)
    (h : objects.Serves ⟨.get, pathTo key "", none⟩ reply objects') :
    ∃ a, reply = .ok a ∧ objects.Shows key a ∧ objects' = objects := by
  generalize hr : (⟨.get, pathTo key "", none⟩ : Request) = r at h
  cases h with
  | shows hkey' hshows =>
    obtain rfl := eq_of_pathTo_eq hkey hkey' (Request.mk.inj hr).2.1
    exact ⟨_, rfl, hshows, rfl⟩
  | _ => cases hr

theorem Serves.of_patch {patch : Json} {reply : Except String Answer} (hkey : key.Addressable)
    (h : objects.Serves ⟨.patch, pathTo key "/status" ++ "?", some patch⟩ reply objects') :
    ∃ a, reply = .ok a ∧ objects.Patches key patch a objects' := by
  generalize hr : (⟨.patch, pathTo key "/status" ++ "?", some patch⟩ : Request) = r at h
  cases h with
  | patches hkey' hpatches =>
    obtain ⟨-, hpath, hpatch⟩ := Request.mk.inj hr
    obtain rfl := eq_of_pathTo_eq hkey hkey' (String.append_left_inj _ |>.1 hpath)
    obtain rfl := Option.some.inj hpatch
    exact ⟨_, rfl, hpatches⟩
  | _ => cases hr

theorem served_fetch_iff {reply : Except Fault (Option Resource)} (hkey : key.Addressable) :
    Served objects (fetch key) reply objects' ↔ ∃ a, objects.Shows key a ∧ objects' = objects ∧
      reply = fetched (judged Resource.ofJson? (.ok a)) := by
  rw [fetch_eq hkey]
  refine served_one_iff.trans ?_
  constructor
  · rintro ⟨_, hserves, rfl⟩
    obtain ⟨a, rfl, hshows, rfl⟩ := hserves.of_get hkey
    exact ⟨a, hshows, rfl, rfl⟩
  · rintro ⟨a, hshows, rfl, rfl⟩
    exact ⟨_, .shows hkey hshows, rfl⟩

theorem served_patchStatus_iff {s : Status} {version : Option String} {reply : Except Fault Unit}
    (hkey : key.Addressable) : Served objects (patchStatus key s version) reply objects' ↔
      ∃ a, objects.Patches key (statusPatch s version) a objects' ∧
        reply = patched key (judged Resource.ofJson? (.ok a)) := by
  rw [patchStatus_eq hkey]
  refine served_one_iff.trans ?_
  constructor
  · rintro ⟨_, hserves, rfl⟩
    obtain ⟨a, rfl, hpatches⟩ := hserves.of_patch hkey
    exact ⟨a, hpatches, rfl⟩
  · rintro ⟨a, hpatches, rfl⟩
    exact ⟨_, .patches hkey hpatches, rfl⟩

/-- A copy of a resource is what is stored. -/
theorem Served.of_fetch {reply : Except Fault (Option Resource)} (hkey : key.Addressable)
    (hlegible : ∀ o, objects key = some o → ∃ r, o.resource? = some r)
    (h : Served objects (fetch key) reply objects') :
    reply = .ok (objects.resources key) ∧ objects' = objects := by
  obtain ⟨a, hshows, rfl, rfl⟩ := (served_fetch_iff hkey).1 h
  refine ⟨?_, rfl⟩
  cases hshows with
  | found hstored hgranted hbody =>
    obtain ⟨r, hr⟩ := hlegible _ hstored
    rw [judged_of_granted hgranted hbody hr, resources, hstored, Option.bind_some, hr]
    rfl
  | absent hnone hrefused hreason =>
    rw [judged_of_refused hrefused, resources, hnone, Option.bind_none]
    exact if_pos hreason

section

variable {s : Status} {version : Option String} {reply : Except Fault Unit}
  (hkey : key.Addressable) (h : Served objects (patchStatus key s version) reply objects')

include hkey h

theorem Served.missing (hnone : objects key = none) :
    reply = .error (.missing key.text) ∧ objects' = objects := by
  obtain ⟨a, hpatches, rfl⟩ := (served_patchStatus_iff hkey).1 h
  cases hpatches with
  | missing _ hrefused hcode =>
    rw [judged_of_refused hrefused]
    simp [patched, patchFault, ApiFailure.isNotFound, hcode]
  | patched hstored => cases hnone.symm.trans hstored
  | outdated hstored => cases hnone.symm.trans hstored

variable {o : Object} (hstored : objects key = some o) (hr : o.resource? = some r)

include hstored hr

theorem Served.outdated (hversion : version ≠ none)
    (hother : version ≠ r.metadata.resourceVersion) :
    reply = .error (.outdated key.text) ∧ objects' = objects := by
  obtain ⟨v, rfl⟩ := Option.ne_none_iff_exists'.1 hversion
  obtain ⟨a, hpatches, rfl⟩ := (served_patchStatus_iff hkey).1 h
  cases hpatches with
  | missing hnone => cases hnone.symm.trans hstored
  | patched hstored' hcurrent =>
    obtain rfl := Option.some.inj (hstored.symm.trans hstored')
    rw [versionOf_statusPatch] at hcurrent
    rcases hcurrent with hcurrent | hcurrent
    · cases hcurrent
    · exact absurd ((Object.versionOf_eq_iff hr v).1 hcurrent.symm).symm hother
  | outdated hstored' _ _ hrefused hcode =>
    rw [judged_of_refused hrefused]
    simp [Cluster.patched, patchFault, ApiFailure.isNotFound, ApiFailure.isConflict, hcode]

theorem Served.replaced (hversion : version = none ∨ version = r.metadata.resourceVersion)
    (hs : r.Admits s) : reply = .ok () ∧ ∃ o' metadata v, r.metadata.Renewed metadata v ∧
      o'.resource? = some ⟨metadata, r.spec, some s⟩ ∧
        objects' = Function.update objects key (some o') := by
  obtain ⟨a, hpatches, rfl⟩ := (served_patchStatus_iff hkey).1 h
  cases hpatches with
  | missing hnone => cases hnone.symm.trans hstored
  | outdated hstored' hpatch hother =>
    obtain rfl := Option.some.inj (hstored.symm.trans hstored')
    rw [versionOf_statusPatch] at hpatch
    obtain ⟨v, rfl, rfl⟩ := Option.map_eq_some_iff.1 hpatch
    rcases hversion with hversion | hversion
    · cases hversion
    · exact absurd ((Object.versionOf_eq_iff hr v).2 hversion.symm) hother
  | patched hstored' _ hpatched hgranted hbody =>
    obtain rfl := Option.some.inj (hstored.symm.trans hstored')
    obtain ⟨metadata, hrenewed, hread⟩ := hpatched.resource? hr hs
    rw [judged_of_granted hgranted hbody hread]
    exact ⟨rfl, _, metadata, _, hrenewed, hread, rfl⟩

end

theorem Served.of_publish {reporter : Reporter} {now : Calendar.Instant} {e : Event} {u : Unit}
    (h : Served objects (publish reporter now r e) u objects') : objects' = objects := by
  simp only [publish, Request.write?] at h
  split at h
  · cases h with
    | @ask _ _ _ _ _ reply _ hserves hrest =>
      cases hserves
      cases reply with
      | error cause => cases hrest; rfl
      | ok a => cases hrest; rfl
  · cases h
    rfl

end

/-- The cluster answers the calls for resources as a home that replaces statuses, as long as no
target has to be taken away. -/
theorem Served.answers {objects objects' : Objects} {reporter : Reporter} {now : Calendar.Instant}
    {c : StoreCall} {reply : c.Reply} (hlegible : objects.Legible) (hkey : c.Addressable)
    (hadmitted : c.Admitted objects.resources)
    (h : Served objects (home reporter now c) reply objects') :
    objects.resources.Answers c reply objects'.resources ∧ objects'.Legible := by
  cases c with
  | fetch key =>
    obtain ⟨rfl, rfl⟩ := Served.of_fetch hkey (hlegible key) h
    exact ⟨.fetched key, hlegible⟩
  | publish r e =>
    obtain rfl := Served.of_publish h
    exact ⟨.published r e, hlegible⟩
  | patchStatus key s version =>
    cases hstored : objects key with
    | none =>
      obtain ⟨rfl, rfl⟩ := Served.missing hkey h hstored
      exact ⟨.missing s version (by simp [resources, hstored]), hlegible⟩
    | some o =>
      obtain ⟨r, hr⟩ := hlegible key o hstored
      have hread : objects.resources key = some r := by simp [resources, hstored, hr]
      by_cases hversion : version = none ∨ version = r.metadata.resourceVersion
      · obtain ⟨rfl, o', metadata, v, hrenewed, hread', rfl⟩ :=
          Served.replaced hkey h hstored hr hversion (hadmitted r hread hversion)
        rw [resources_update, hread']
        exact ⟨.replaced s hread hversion hrenewed, hlegible.update hread'⟩
      · obtain ⟨hnone, hother⟩ := not_or.1 hversion
        obtain ⟨rfl, rfl⟩ := Served.outdated hkey h hstored hr hnone hother
        obtain ⟨v, rfl⟩ := Option.ne_none_iff_exists'.1 hnone
        exact ⟨.outdated s hread (Ne.symm hother), hlegible⟩

end Objects

end Cluster

end CronScale
