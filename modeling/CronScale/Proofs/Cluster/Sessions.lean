import CronScale.Proofs.Cluster.Replacing
import CronScale.Proofs.Exchanges
import CronScale.Proofs.Manager.Races
/-!
# The manager against the cluster

A session is a procedure of the manager that is carried out against a home of the resources, while
others write to it. Every session with the cluster is one with a home that replaces statuses, and
what is asked next is answered by both in the same way (`statuses_replaced`). It rests on two
things: the manager never takes a target away (`World.Writer.keepsTarget`), and a status that is
written against the version of a copy is merged into what the copy shows, for a version stands for
one state of a resource (`Resources.Dated`).
-/

namespace CronScale

open CronScale.Json

/-! ### What the manager writes -/

/-- Whether all sizes in what is computed from a copy fit if those in the copy do. -/
def Sized (computed : Resource → Status → Prop) : Prop := ∀ r s, r.Fits → computed r s → s.Fits

theorem Reconcile.sized_computes (key : OwnerKey) : Sized (Computes key) := by
  intro r s hr h c hc
  rcases h.conditions c hc with hc | ⟨j, hj, id, state, now, message, rfl, -⟩
  · exact hr.status c hc
  · exact hr.declared j hj

theorem Record.sized_computes {job : Job} (hsize : FitsInt32 job.desiredSize)
    (outcome : Except Fault String) : Sized (Computes job outcome) := by
  rintro r s hr ⟨now, hreplaces⟩ c hc
  cases hmatch : (conditionOf job outcome now).matchesJob c with
  | true =>
    have hmem := List.mem_filter.2 ⟨hc, hmatch⟩
    rw [hreplaces.matching, List.mem_singleton] at hmem
    exact hmem ▸ hsize
  | false =>
    have hmem : c ∈ s.conditions.filter fun d => !(conditionOf job outcome now).matchesJob d :=
      List.mem_filter.2 ⟨hc, by simp [hmatch]⟩
    rw [hreplaces.others] at hmem
    exact hr.status c (List.mem_of_mem_filter hmem)

/-- No procedure of the manager takes a target away. -/
theorem World.Writer.keepsTarget {key : OwnerKey} {p : Procedure Desk Unit}
    {computed : Resource → Status → Prop} (h : Writer key p computed) {r : Resource} {s : Status}
    (hs : computed r s) (hnone : s.target = none) : r.status.bind Status.target = none := by
  have htarget : (r.status.getD .initial).target = none := by
    cases h with
    | reconcile =>
      rw [hs.adopted, Reconcile.adopt] at hnone
      split at hnone
      · cases hnone
      · exact hnone
    | record settings job outcome howner =>
      obtain ⟨now, hreplaces⟩ := hs
      exact hreplaces.target.symm.trans hnone
    | sweep => exact hs.elim
    | watch e => exact hs.elim
  cases hstatus : r.status with
  | none => rfl
  | some old =>
    rw [hstatus] at htarget
    exact htarget

/-! ### Sessions -/

/-- A procedure of the manager that was carried out up to some point against a home of the
resources: what it has asked and was answered by then, and what is left of it. The manager's own
steps are answered in any way, and between the calls others may leave the home in other states. -/
inductive Session {σ : Type} (answers : σ → (c : StoreCall) → c.Reply → σ → Prop)
    (others : σ → Prop) :
    σ → Procedure Desk Unit → List (Exchange Desk) → σ → Procedure Desk Unit → Prop
  | here (s : σ) (p : Procedure Desk Unit) : Session answers others s p [] s p
  | between {s s' s'' : σ} {p q : Procedure Desk Unit} {xs : List (Exchange Desk)}
      (hothers : others s') (hrest : Session answers others s' p xs s'' q) :
      Session answers others s p xs s'' q
  | stored {s s' s'' : σ} {c : StoreCall} {next : c.Reply → Procedure Desk Unit} {reply : c.Reply}
      {q : Procedure Desk Unit} {xs : List (Exchange Desk)} (hanswer : answers s c reply s')
      (hrest : Session answers others s' (next reply) xs s'' q) :
      Session answers others s (Procedure.ask (I := Desk) (.store c) next)
        (⟨.store c, reply⟩ :: xs) s'' q
  | own {s s' : σ} {c : DeskCall} {next : c.Reply → Procedure Desk Unit} (reply : c.Reply)
      {q : Procedure Desk Unit} {xs : List (Exchange Desk)} (hown : ∀ c', c ≠ .store c')
      (hrest : Session answers others s (next reply) xs s' q) :
      Session answers others s (Procedure.ask (I := Desk) c next) (⟨c, reply⟩ :: xs) s' q

variable {history : OwnerKey → String → Resource}

/-- Whether every resource is what its key and its version stand for. -/
def Resources.Dated (history : OwnerKey → String → Resource) (resources : Resources) : Prop :=
  ∀ key r, resources key = some r →
    ∃ v, r.metadata.resourceVersion = some v ∧ history key v = r

namespace Resources

/-- How a home that replaces statuses answers in a session. -/
def Handles (history : OwnerKey → String → Resource) (resources : Resources) (c : StoreCall)
    (reply : c.Reply) (resources' : Resources) : Prop :=
  resources.Answers c reply resources' ∧ resources'.Dated history

end Resources

namespace Cluster.Objects

/-- How the cluster answers in a session. -/
def Handles (history : OwnerKey → String → Resource) (objects : Objects) (c : StoreCall)
    (reply : c.Reply) (objects' : Objects) : Prop :=
  c.Addressable ∧ (∃ reporter now, objects.Served (home reporter now c) reply objects') ∧
    objects'.resources.Dated history

/-- In which states others leave the cluster. -/
def Kept (history : OwnerKey → String → Resource) (objects : Objects) : Prop :=
  objects.Legible ∧ objects.resources.Dated history

end Cluster.Objects

theorem Resources.Dated.update {objects : Cluster.Objects} {o : Cluster.Object} {key : OwnerKey}
    {r : Resource} {v : String} (h : objects.resources.Dated history) (hr : o.resource? = some r)
    (hversion : r.metadata.resourceVersion = some v) (hhistory : history key v = r) :
    (Cluster.Objects.resources (Function.update objects key (some o))).Dated history := by
  intro k r' h'
  rw [Cluster.Objects.resources_update, hr, Function.update_apply] at h'
  split at h'
  · rename_i hkey
    obtain rfl := Option.some.inj h'
    exact ⟨v, hversion, hkey ▸ hhistory⟩
  · exact h k r' h'

/-- Whether a copy of a resource is what its version stands for. -/
def Recalled (history : OwnerKey → String → Resource) (key : OwnerKey) (copy : Option Resource) :
    Prop :=
  ∀ r, copy = some r → r.Fits ∧ ∃ v, r.metadata.resourceVersion = some v ∧ history key v = r

open Cluster

/-- Whether the cluster is as others leave it, and what is left of a procedure will write what can
be merged. -/
structure Prepared (history : OwnerKey → String → Resource) (key : OwnerKey)
    (computed : Resource → Status → Prop) (objects : Objects) (p : Procedure Desk Unit)
    (copy : Option Resource) : Prop where
  kept : objects.Kept history
  fromCopy : p.FromCopy key computed copy
  admits : ∀ r s, r.Fits → computed r s → r.Admits s
  recalled : Recalled history key copy

section

variable {key : OwnerKey} {computed : Resource → Status → Prop} {objects objects' : Objects}
  {p q : Procedure Desk Unit} {copy : Option Resource} {xs : List (Exchange Desk)}

theorem Cluster.Objects.fits_resources {r : Resource} (h : objects.resources key = some r) :
    r.Fits := by
  obtain ⟨o, -, hr⟩ := Option.bind_eq_some_iff.1 h
  exact Resource.fits_of_ofJson? hr

/-- A status that is written against the version of a copy can be merged. -/
theorem Recalled.admitted {c : StoreCall} (h : Recalled history key copy)
    (hdated : objects.resources.Dated history) (hfrom : DeskCall.From key computed copy (.store c))
    (hadmits : ∀ r s, r.Fits → computed r s → r.Admits s) : c.Admitted objects.resources := by
  cases c with
  | patchStatus k s version =>
    obtain ⟨rfl, r, hr, rfl, hcomputed⟩ := hfrom
    intro r' hr' hversion
    obtain ⟨hfits, v, hv, hhistory⟩ := h r hr
    obtain ⟨v', hv', hhistory'⟩ := hdated k r' hr'
    rw [hv, hv'] at hversion
    obtain rfl := Option.some.inj (hversion.resolve_left (Option.some_ne_none v))
    obtain rfl := hhistory.symm.trans hhistory'
    exact hadmits r s hfits hcomputed
  | _ => trivial

theorem Recalled.answered {c : StoreCall} {reply : c.Reply} {after : Resources}
    (h : Recalled history key copy) (hdated : objects.resources.Dated history)
    (hanswers : objects.resources.Answers c reply after) :
    Recalled history key (DeskCall.copyAfter key (.store c) reply copy) := by
  cases hanswers with
  | fetched k =>
    show Recalled history key (if k = key then objects.resources k else copy)
    split
    · rename_i hk
      subst hk
      exact fun r hr => ⟨Objects.fits_resources hr, hdated k r hr⟩
    · exact h
  | _ => exact h

/-- The cluster answers a procedure as a home does that replaces statuses. -/
theorem Prepared.answers {c : StoreCall} {next : c.Reply → Procedure Desk Unit} {reply : c.Reply}
    (h : Prepared history key computed objects (Procedure.ask (I := Desk) (.store c) next) copy)
    (hhandles : objects.Handles history c reply objects') :
    objects.resources.Answers c reply objects'.resources ∧
      Prepared history key computed objects' (next reply)
        (DeskCall.copyAfter key (.store c) reply copy) := by
  obtain ⟨haddressable, ⟨reporter, now, hserved⟩, hdated⟩ := hhandles
  have hadmitted := h.recalled.admitted h.kept.2 h.fromCopy.1 h.admits
  obtain ⟨hanswers, hlegible⟩ := hserved.answers h.kept.1 haddressable hadmitted
  exact ⟨hanswers, ⟨hlegible, hdated⟩, h.fromCopy.2 reply, h.admits,
    h.recalled.answered h.kept.2 hanswers⟩

theorem Prepared.own {c : DeskCall} {next : c.Reply → Procedure Desk Unit}
    (h : Prepared history key computed objects (Procedure.ask (I := Desk) c next) copy)
    (reply : c.Reply) (hown : ∀ c', c ≠ .store c') :
    Prepared history key computed objects (next reply) copy := by
  have hcopy : c.copyAfter key reply copy = copy := by
    cases c with
    | store c' => exact absurd rfl (hown c')
    | _ => rfl
  exact ⟨h.kept, hcopy ▸ h.fromCopy.2 reply, h.admits, h.recalled⟩

/-- A session with the cluster is a session with a home that replaces statuses. -/
theorem Prepared.session (h : Prepared history key computed objects p copy)
    (hsession : Session (Objects.Handles history) (Objects.Kept history) objects p xs objects' q) :
    Session (Resources.Handles history) (Resources.Dated history) objects.resources p xs
        objects'.resources q ∧
      ∃ copy', Prepared history key computed objects' q copy' := by
  induction hsession generalizing copy with
  | here s p => exact ⟨.here _ _, copy, h⟩
  | between hothers _ ih =>
    obtain ⟨hplain, hends⟩ := ih ⟨hothers, h.fromCopy, h.admits, h.recalled⟩
    exact ⟨.between hothers.2 hplain, hends⟩
  | stored hanswer _ ih =>
    obtain ⟨hanswers, hprepared⟩ := h.answers hanswer
    obtain ⟨hplain, hends⟩ := ih hprepared
    exact ⟨.stored ⟨hanswers, hanswer.2.2⟩ hplain, hends⟩
  | own reply hown _ ih =>
    obtain ⟨hplain, hends⟩ := ih (h.own reply hown)
    exact ⟨.own reply hown hplain, hends⟩

end

/-- A recording of an outcome that has been answered what time it is and got a copy writes the
condition of the outcome. -/
theorem Session.of_record {σ : Type} {answers : σ → (c : StoreCall) → c.Reply → σ → Prop}
    {others : σ → Prop} {s s' : σ} {settings : ManagerSettings} {job : Job}
    {outcome : Except Fault String} {r : Resource}
    (hfetch : answers s (.fetch job.owner) (.ok (some r)) s') (now : Calendar.Instant) :
    ∃ xs next, Session answers others s (record settings job outcome) xs s'
      (Procedure.ask (I := Desk) (.store (.patchStatus job.owner
        (Record.merged (r.status.getD .initial) (Record.conditionOf job outcome now))
          r.metadata.resourceVersion)) next) := by
  obtain ⟨n, hn⟩ : ∃ n, max 1 settings.statusPatchRetries = n + 1 :=
    ⟨max 1 settings.statusPatchRetries - 1, by omega⟩
  have hrecord : record settings job outcome =
      Procedure.ask (I := Desk) (.manager .clock) fun now => Record.attempts job.owner
        (Record.conditionOf job outcome now) (Record.eventOf job outcome) (n + 1) none := by
    unfold record
    rw [hn]
    rfl
  have hown : ∀ c, DeskCall.manager .clock ≠ .store c := by
    intro c h
    cases h
  rw [hrecord]
  exact ⟨_, _, .own (c := .manager .clock) now hown (.stored hfetch (.here _ _))⟩

namespace Cluster

/-- What comes of a status that is written to the cluster. -/
structure Outcome (objects : Objects) (key : OwnerKey) (s : Status) (version : Option String)
    (reply : Except Fault Unit) (objects' : Objects) : Prop where
  missing : objects key = none → reply = .error (.missing key.text) ∧ objects' = objects
  outdated : ∀ r, objects.resources key = some r → version ≠ none →
    version ≠ r.metadata.resourceVersion →
      reply = .error (.outdated key.text) ∧ objects' = objects
  replaced : ∀ r, objects.resources key = some r →
    version = none ∨ version = r.metadata.resourceVersion → r.Admits s →
      reply = .ok () ∧ (∀ k, k ≠ key → objects' k = objects k) ∧
        ∃ metadata v, r.metadata.Renewed metadata v ∧
          ∀ reporter now copy objects'',
            objects'.Served (home reporter now (.fetch key)) copy objects'' →
              copy = .ok (some ⟨metadata, r.spec, some s⟩) ∧ objects'' = objects'

theorem outcome_of_served {objects objects' : Objects} {key : OwnerKey} (hkey : key.Addressable)
    {s : Status} {version : Option String} {reporter : Reporter} {now : Calendar.Instant}
    {reply : Except Fault Unit}
    (h : objects.Served (home reporter now (.patchStatus key s version)) reply objects') :
    Outcome objects key s version reply objects' where
  missing := Objects.Served.missing hkey h
  outdated := by
    intro r hr hversion hother
    obtain ⟨o, hstored, hread⟩ := Option.bind_eq_some_iff.1 hr
    exact Objects.Served.outdated hkey h hstored hread hversion hother
  replaced := by
    intro r hr hversion hs
    obtain ⟨o, hstored, hread⟩ := Option.bind_eq_some_iff.1 hr
    obtain ⟨rfl, o', metadata, v, hrenewed, hread', rfl⟩ :=
      Objects.Served.replaced hkey h hstored hread hversion hs
    refine ⟨rfl, fun k hk => Function.update_of_ne hk _ _, metadata, v, hrenewed, ?_⟩
    intro reporter now copy objects'' hfetch
    have hlegible : ∀ o, Function.update objects key (some o') key = some o →
        ∃ r, o.resource? = some r := by
      intro o ho
      rw [Function.update_self] at ho
      exact ⟨_, Option.some.inj ho ▸ hread'⟩
    obtain ⟨rfl, rfl⟩ := Objects.Served.of_fetch hkey hlegible hfetch
    have hcopy : Objects.resources (Function.update objects key (some o')) key =
        some ⟨metadata, r.spec, some s⟩ := by
      rw [Objects.resources_update, Function.update_self, hread']
    exact ⟨congrArg Except.ok hcopy, rfl⟩

def webKey : OwnerKey := ⟨"default", "web"⟩

def webJob : Job := { (default : Job) with owner := webKey }

def webStatus : Status := Record.merged .initial (Record.conditionOf webJob (.ok "") ⟨0, 0⟩)

def webResource (version : String) (s : Status) : Resource :=
  ⟨{ (default : Metadata) with resourceVersion := some version },
    ⟨[], ⟨"apps/v1", "Deployment", "web"⟩, []⟩, some s⟩

def webMembers (version : String) (status : List (String × Json)) : List (String × Json) :=
  [("metadata", .record [("resourceVersion", .text version)]),
    ("spec", .record [("scaleTargetRef", .record
      [("apiVersion", .text "apps/v1"), ("kind", .text "Deployment"), ("name", .text "web")])]),
    ("status", .record status)]

def webStored : Object := ⟨webMembers "1" [("seen", .bool true)], by decide⟩

def webPatched : Object :=
  ⟨webMembers "2" [("excludeDates", .list []), ("conditions", .list [.record
      [("jobId", .text ""), ("lastProbeTime", .text "1970-01-01T00:00:00+00:00"),
        ("message", .text "cron hpa job  executed successfully. "), ("name", .text ""),
        ("runOnce", .bool false), ("schedule", .text ""), ("state", .text "Succeed"),
        ("targetSize", .whole 0)]]), ("seen", .bool true)], by decide⟩

/-- The answer that holds an object, of whose status it is given the text. -/
def webAnswer (version : String) (status : List String) : Answer :=
  ⟨200, String.ofList (List.flatMap String.toList
    (["\x7b\"metadata\":\x7b\"resourceVersion\":\"", version, "\"\x7d,",
      "\"spec\":\x7b\"scaleTargetRef\":\x7b\"apiVersion\":\"apps/v1\",",
      "\"kind\":\"Deployment\",\"name\":\"web\"\x7d\x7d,", "\"status\":\x7b"] ++ status ++
        ["\"seen\":true\x7d\x7d"]))⟩

def webShown : Answer := webAnswer "1" []

def webAccepted : Answer := webAnswer "2"
  ["\"excludeDates\":[],\"conditions\":[\x7b\"jobId\":\"\",",
    "\"lastProbeTime\":\"1970-01-01T00:00:00+00:00\",",
    "\"message\":\"cron hpa job  executed successfully. \",", "\"name\":\"\",\"runOnce\":false,",
    "\"schedule\":\"\",\"state\":\"Succeed\",\"targetSize\":0\x7d],"]

mutual

/-- Whether two values are the same. -/
def sameValue : Json → Json → Bool
  | .null, .null => true
  | .bool a, .bool b => a == b
  | .whole a, .whole b => a == b
  | .decimal a, .decimal b => a == b
  | .text a, .text b => a == b
  | .list as, .list bs => sameItems as bs
  | .record as, .record bs => sameMembers as bs
  | .unreadable, .unreadable => true
  | _, _ => false

def sameItems : List Json → List Json → Bool
  | [], [] => true
  | a :: as, b :: bs => sameValue a b && sameItems as bs
  | _, _ => false

def sameMembers : List (String × Json) → List (String × Json) → Bool
  | [], [] => true
  | (m, a) :: as, (n, b) :: bs => m == n && sameValue a b && sameMembers as bs
  | _, _ => false

end

mutual

theorem eq_of_sameValue : ∀ (a b : Json), sameValue a b = true → a = b
  | .null, .null, _ => rfl
  | .bool _, .bool _, h => congrArg Json.bool (beq_iff_eq.1 h)
  | .whole _, .whole _, h => congrArg Json.whole (beq_iff_eq.1 h)
  | .decimal _, .decimal _, h => congrArg Json.decimal (beq_iff_eq.1 h)
  | .text _, .text _, h => congrArg Json.text (beq_iff_eq.1 h)
  | .list as, .list bs, h => congrArg Json.list (eq_of_sameItems as bs h)
  | .record as, .record bs, h => congrArg Json.record (eq_of_sameMembers as bs h)
  | .unreadable, .unreadable, _ => rfl

theorem eq_of_sameItems : ∀ (as bs : List Json), sameItems as bs = true → as = bs
  | [], [], _ => rfl
  | a :: as, b :: bs, h => by
    obtain ⟨hhead, htail⟩ := Bool.and_eq_true_iff.1 h
    rw [eq_of_sameValue a b hhead, eq_of_sameItems as bs htail]

theorem eq_of_sameMembers : ∀ (as bs : List (String × Json)), sameMembers as bs = true → as = bs
  | [], [], _ => rfl
  | (m, a) :: as, (n, b) :: bs, h => by
    obtain ⟨hhead, htail⟩ := Bool.and_eq_true_iff.1 h
    obtain ⟨hname, hvalue⟩ := Bool.and_eq_true_iff.1 hhead
    rw [beq_iff_eq.1 hname, eq_of_sameValue a b hvalue, eq_of_sameMembers as bs htail]

end

/-- A text is read character by character. -/
theorem read?_ofList {cs : List Char} {j : Json}
    (h : (readValue (2 * cs.length + 2) cs).any
      (fun (read, rest) => sameValue read j && rest.isEmpty) = true) :
    Json.read? (String.ofList cs) = some j := by
  obtain ⟨⟨read, rest⟩, hread, hsame⟩ := (Option.any_eq_true _ _).1 h
  obtain ⟨hvalue, hrest⟩ := Bool.and_eq_true_iff.1 hsame
  obtain rfl := eq_of_sameValue read j hvalue
  obtain rfl := List.isEmpty_iff.1 hrest
  simp only [read?, String.toList_ofList, hread]
  rfl

theorem read?_webShown : Json.read? webShown.body = some (.record webStored.members) :=
  read?_ofList (by decide +kernel)

theorem read?_webAccepted : Json.read? webAccepted.body = some (.record webPatched.members) :=
  read?_ofList (by decide +kernel)

theorem webStored_resource : webStored.resource? = some (webResource "1" .initial) := rfl

theorem webPatched_resource : webPatched.resource? = some (webResource "2" webStatus) := rfl

theorem patched_webStored :
    webStored.Patched (statusPatch webStatus (some "1")) "2" webPatched where
  status := by
    rw [webStored, valueOf_merged_statusPatch]
    exact .some (presents_refl _)
  spec := rfl
  metadata := by
    refine ⟨_, _, rfl, rfl, rfl, ⟨none, rfl⟩, fun name hname _ => ?_⟩
    simp [valueOf_cons, hname.symm]

/-- The cluster with the resource only. -/
def webObjects : Objects := Function.update (fun _ => none) webKey (some webStored)

theorem legible_webObjects : webObjects.Legible :=
  Objects.Legible.update (fun _ _ h => absurd h (Option.some_ne_none _).symm) webStored_resource

theorem addressable_webKey : webKey.Addressable := by
  have hall : List.all (webKey.ns.toList ++ webKey.name.toList)
      (fun c => inPath c && c != '/') = true := by
    decide
  intro c hc
  have hc := List.all_eq_true.1 hall c hc
  simpa using hc

/-- The resources that there are one after the other. -/
def webHistory (_ : OwnerKey) (version : String) : Resource :=
  if version = "1" then webResource "1" .initial else webResource "2" webStatus

theorem dated_webObjects : webObjects.resources.Dated webHistory :=
  Resources.Dated.update (fun _ _ h => absurd h (Option.some_ne_none _).symm) webStored_resource rfl
    rfl

/-- The cluster after the outcome was written. -/
def webObjects' : Objects := Function.update webObjects webKey (some webPatched)

theorem served_webStored (reporter : Reporter) (now : Calendar.Instant) :
    webObjects.Served (home reporter now (.fetch webKey))
      (.ok (some (webResource "1" .initial))) webObjects := by
  refine (Objects.served_fetch_iff addressable_webKey).2 ⟨webShown, ?_, rfl, ?_⟩
  · exact .found (Function.update_self _ _ _) rfl read?_webShown
  · rw [judged_of_granted rfl read?_webShown webStored_resource]
    rfl

theorem served_webStatus (reporter : Reporter) (now : Calendar.Instant) :
    webObjects.Served (home reporter now (.patchStatus webKey webStatus (some "1"))) (.ok ())
      webObjects' := by
  refine (Objects.served_patchStatus_iff addressable_webKey).2 ⟨webAccepted, ?_, ?_⟩
  · exact .patched (Function.update_self _ _ _) (.inr rfl) patched_webStored rfl read?_webAccepted
  · rw [judged_of_granted rfl read?_webAccepted webPatched_resource]
    rfl

theorem served_webPatched (reporter : Reporter) (now : Calendar.Instant) :
    webObjects'.Served (home reporter now (.fetch webKey))
      (.ok (some (webResource "2" webStatus))) webObjects' := by
  refine (Objects.served_fetch_iff addressable_webKey).2 ⟨webAccepted, ?_, rfl, ?_⟩
  · exact .found (Function.update_self _ _ _) rfl read?_webAccepted
  · rw [judged_of_granted rfl read?_webAccepted webPatched_resource]
    rfl

theorem session_webJob : ∃ xs next,
    Session (Objects.Handles webHistory) (Objects.Kept webHistory) webObjects
      (record default webJob (.ok "")) xs webObjects (Procedure.ask (I := Desk)
        (.store (.patchStatus webKey webStatus (some "1"))) next) := by
  have hfetch : webObjects.Handles webHistory (.fetch webKey)
      (.ok (some (webResource "1" .initial))) webObjects :=
    ⟨addressable_webKey, ⟨default, ⟨0, 0⟩, served_webStored _ _⟩, dated_webObjects⟩
  exact @Session.of_record _ (Objects.Handles webHistory) (Objects.Kept webHistory) _ _ default
    webJob (.ok "") _ hfetch ⟨0, 0⟩

end Cluster

end CronScale
