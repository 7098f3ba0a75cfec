import Mathlib.Data.List.Basic
import Mathlib.Data.List.TakeWhile
import CronScale.Cluster.Home
/-!
# Requests for resources

A copy of a resource and a write of its status are one request each, whose path tells the resource
from all others (`eq_of_pathTo_eq`); what is made of the answer is settled by what it is taken for
(`fetch_eq`, `patchStatus_eq`).
-/

namespace CronScale

open CronScale.Json

/-! ### Paths -/

/-- Whether namespace and name can be told apart in a path, as those can that the cluster admits. -/
def OwnerKey.Addressable (key : OwnerKey) : Prop :=
  ∀ c ∈ key.ns.toList ++ key.name.toList, Cluster.inPath c = true ∧ c ≠ '/'

/-- Whether what a call is about can be told from its path. -/
def StoreCall.Addressable : StoreCall → Prop
  | fetch key => key.Addressable
  | patchStatus key _ _ => key.Addressable
  | publish _ _ => True

namespace Cluster

/-- The path of a resource or of a part of it. -/
def pathTo (key : OwnerKey) (part : String) : String :=
  ObjectType.resources.objectPath key.ns key.name part

section

variable {key key' : OwnerKey} {part : String}

theorem readPath?_of_inPath {path : String} (h : ∀ c ∈ path.toList, inPath c = true) :
    readPath? path = some path ∧ readPath? (path ++ "?") = some (path ++ "?") := by
  have hfragment : ∀ c ∈ path.toList, (c != '#') = true := by
    intro c hc
    rw [bne_iff_ne]
    rintro rfl
    exact absurd (h _ hc) (by decide)
  have hquestion : ∀ c ∈ path.toList, (c != '?') = true := by
    intro c hc
    rw [bne_iff_ne]
    rintro rfl
    exact absurd (h _ hc) (by decide)
  have hall : path.toList.all inPath = true := List.all_eq_true.2 h
  have hends : (path ++ "?").toList = path.toList ++ ['?'] := by simp
  constructor
  · rw [readPath?, List.takeWhile_eq_self_iff.2 hfragment]
    simp only [List.takeWhile_eq_self_iff.2 hquestion, List.dropWhile_eq_nil_iff.2 hquestion, hall]
    simp
  · rw [readPath?, hends, List.takeWhile_append_of_pos hfragment]
    simp only [List.takeWhile_append_of_pos hquestion, List.dropWhile_append_of_pos hquestion]
    have hparameters : (['?'] : List Char).all inParameters = true := by decide
    simp [hall, hparameters]

theorem toList_pathTo (key : OwnerKey) (part : String) : (pathTo key part).toList =
    "/apis/autoscaling.alibabacloud.com/v1beta1/namespaces/".toList ++
      (key.ns.toList ++ '/' :: ("cronhorizontalpodautoscalers/".toList ++
        (key.name.toList ++ part.toList))) := by
  simp [pathTo, ObjectType.objectPath, ObjectType.collection, ObjectType.resources,
    Resource.apiVersion, Resource.group, Resource.version, Resource.plural]

theorem ns_of_path (hkey : key.Addressable) (rest : List Char) :
    (key.ns.toList ++ '/' :: rest).takeWhile (· != '/') = key.ns.toList := by
  have hslash : ∀ c ∈ key.ns.toList, (c != '/') = true := fun c hc =>
    bne_iff_ne.2 (hkey c (List.mem_append_left _ hc)).2
  rw [List.takeWhile_append_of_pos hslash]
  simp

theorem eq_of_pathTo_eq (hkey : key.Addressable) (hkey' : key'.Addressable)
    (h : pathTo key part = pathTo key' part) : key = key' := by
  have hlists := congrArg String.toList h
  rw [toList_pathTo, toList_pathTo, List.append_cancel_left_eq] at hlists
  have hns := congrArg (List.takeWhile (· != '/')) hlists
  rw [ns_of_path hkey, ns_of_path hkey'] at hns
  rw [hns, List.append_cancel_left_eq, List.cons.injEq, List.append_cancel_left_eq,
    List.append_cancel_right_eq] at hlists
  obtain ⟨ns, name⟩ := key
  obtain ⟨ns', name'⟩ := key'
  exact congrArg₂ OwnerKey.mk (String.toList_inj.1 hns) (String.toList_inj.1 hlists.2)

/-- The requests for resources can be made. -/
theorem readPath?_pathTo (hkey : key.Addressable) (hpart : part.toList.all inPath = true) :
    readPath? (pathTo key part) = some (pathTo key part) ∧
      readPath? (pathTo key part ++ "?") = some (pathTo key part ++ "?") := by
  refine readPath?_of_inPath fun c hc => ?_
  rw [toList_pathTo] at hc
  simp only [List.mem_append, List.mem_cons] at hc
  rcases hc with hc | hc | rfl | hc | hc | hc
  · exact List.all_eq_true.1 (by decide : List.all _ inPath = true) c hc
  · exact (hkey c (List.mem_append_left _ hc)).1
  · decide
  · exact List.all_eq_true.1 (by decide : List.all _ inPath = true) c hc
  · exact (hkey c (List.mem_append_right _ hc)).1
  · exact List.all_eq_true.1 hpart c hc

end

/-! ### Requests and what is made of their answers -/

/-- What an answer to a request is taken for. -/
def judged {α : Type} (read : Json → Option α) : Except String Answer → Except ApiFailure α
  | .error cause => .error (.undelivered cause)
  | .ok a =>
    if a.refuses then .error (.refused a.refusal)
    else
      match (Json.read? a.body).bind read with
      | some b => .ok b
      | none => .error .undecodable

theorem obtain_eq {α : Type} (read : Json → Option α) (r : Request) :
    obtain read (.ok r) =
      Procedure.ask (I := Api) r fun reply => .done (judged read reply) := by
  refine congrArg (Procedure.ask (I := Api) r) (funext fun reply => ?_)
  cases reply with
  | error cause => rfl
  | ok a =>
    show Procedure.bind (I := Api) (.done (if a.refuses = true then
      Except.error (ApiFailure.refused a.refusal) else Except.ok a.body)) _ =
        .done (if a.refuses = true then _ else _)
    split
    · rfl
    · simp only [Procedure.bind]
      cases (Json.read? a.body).bind read with
      | none => rfl
      | some b => rfl

section

variable {α : Type} {read : Json → Option α} {a : Answer}

theorem judged_of_granted {j : Json} {b : α} (hgranted : a.refuses = false)
    (hbody : Json.read? a.body = some j) (hread : read j = some b) :
    judged read (.ok a) = .ok b := by
  simp [judged, hgranted, hbody, hread]

theorem judged_of_refused (hrefused : a.refuses = true) :
    judged read (.ok a) = .error (.refused a.refusal) := by
  simp [judged, hrefused]

end

/-- What is made of the answer to a request for a resource. -/
def fetched : Except ApiFailure Resource → Except Fault (Option Resource)
  | .ok r => .ok (some r)
  | .error (.refused r) => if r.reason = "NotFound" then .ok none else .error (.api (.refused r))
  | .error e => .error (.api e)

theorem fetch_eq {key : OwnerKey} (hkey : key.Addressable) :
    fetch key = Procedure.ask (I := Api) ⟨.get, pathTo key "", none⟩ fun reply =>
      .done (fetched (judged Resource.ofJson? reply)) := by
  have hrequest : ObjectType.resources.getObject key.ns key.name "" =
      .ok ⟨.get, pathTo key "", none⟩ := by
    simp only [ObjectType.getObject, Request.get?]
    rw [show ObjectType.resources.objectPath key.ns key.name "" = pathTo key "" from rfl,
      (readPath?_pathTo hkey rfl).1]
  simp only [fetch, hrequest, obtain_eq]
  refine congrArg (Procedure.ask (I := Api) _) (funext fun reply => ?_)
  show Procedure.bind (I := Api) (.done (judged Resource.ofJson? reply)) _ = _
  match judged Resource.ofJson? reply with
  | .ok r => rfl
  | .error (.refused r) => rfl
  | .error (.undelivered cause) => rfl
  | .error (.unknownKind g v k) => rfl
  | .error .undecodable => rfl
  | .error (.unbuildable why) => rfl

/-- What is made of the answer to a patch of a resource. -/
def patched (key : OwnerKey) : Except ApiFailure Resource → Except Fault Unit
  | .ok _ => .ok ()
  | .error e => .error (patchFault key e)

theorem patchStatus_eq {key : OwnerKey} (hkey : key.Addressable) (s : Status)
    (version : Option String) :
    patchStatus key s version = Procedure.ask (I := Api)
      ⟨.patch, pathTo key "/status" ++ "?", some (statusPatch s version)⟩ fun reply =>
        .done (patched key (judged Resource.ofJson? reply)) := by
  have hrequest : ObjectType.resources.writeObject .patch key.ns key.name "/status"
      (statusPatch s version) =
        .ok ⟨.patch, pathTo key "/status" ++ "?", some (statusPatch s version)⟩ := by
    simp only [ObjectType.writeObject, Request.write?]
    rw [show ObjectType.resources.objectPath key.ns key.name "/status" = pathTo key "/status"
      from rfl, (readPath?_pathTo hkey (by decide)).2]
  simp only [patchStatus, hrequest, obtain_eq]
  refine congrArg (Procedure.ask (I := Api) _) (funext fun reply => ?_)
  show Procedure.bind (I := Api) (.done (judged Resource.ofJson? reply)) _ = _
  match judged Resource.ofJson? reply with
  | .ok r => rfl
  | .error e => rfl

end Cluster

end CronScale
