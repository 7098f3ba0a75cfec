import Mathlib.Data.List.Induction
import CronScale.Cluster.Scaler
/-!
# When the type of a target is looked up

Calls for the size of targets are made one after another, and the types that were looked up are kept
from one to the next. Every call is made together with an account of what it has done
(`SizeCall.accounted`). Whether a call looks the type of its target up, and which type it uses if it
does not, can be told from the accounts of the calls before, whatever the cluster answers: what is
kept under a key is what was found for it last, as long as no call has failed since
(`Journal.coherent_after`).
-/

namespace CronScale.Cluster

/-- A call for the size of a target: to read it or to write it. -/
inductive SizeCall where
  | read (t : TargetRef)
  | write (t : TargetRef) (size : Int)

namespace SizeCall

def target : SizeCall → TargetRef
  | read t => t
  | write t _ => t

/-- The text under which the type of the target is kept. -/
def key (c : SizeCall) : String := KnownTypes.keyOf c.target

def Result : SizeCall → Type
  | read _ => Int
  | write _ _ => Unit

/-- Makes a call, with the types that are known. -/
def perform (known : KnownTypes) : (c : SizeCall) →
    Procedure Api (Except Fault c.Result × KnownTypes)
  | read t => getScale known t
  | write t size => updateScale known t size

/-- What is asked for once the type of the target is at hand. -/
def request (type : ObjectType) : (c : SizeCall) → Procedure Api (Except ApiFailure c.Result)
  | read t => obtain sizeOfJson? (type.getObject t.ns t.name "/scale")
  | write t size => do
    match ← obtain sizeOfJson? (type.writeObject .patch t.ns t.name "/scale" (sizePatch size)) with
    | .ok _ => pure (.ok ())
    | .error e => pure (.error e)

theorem perform_eq_withType (known : KnownTypes) (c : SizeCall) :
    c.perform known = known.withType c.target fun type => c.request type := by
  cases c <;> rfl

end SizeCall

/-- What a call has done. -/
structure Account where
  key : String
  /-- What looking the type of the target up has come to, if it was looked up. -/
  lookedUp : Option (Except ApiFailure ObjectType)
  /-- The type under which the size was asked for or written, if it came to that. -/
  used : Option ObjectType
  succeeded : Bool

/-- The type that was found, if it was looked up successfully. -/
def Account.found (a : Account) : Option ObjectType := a.lookedUp.bind Except.toOption

namespace SizeCall

variable (c : SizeCall)

/-- Makes the request of a call under a type, which is forgotten if that fails. -/
def accountedUnder (known : KnownTypes) (lookedUp : Option (Except ApiFailure ObjectType))
    (type : ObjectType) : Procedure Api (Account × Except Fault c.Result × KnownTypes) := do
  match ← c.request type with
  | .ok a => pure (⟨c.key, lookedUp, some type, true⟩, .ok a, known)
  | .error e => pure (⟨c.key, lookedUp, some type, false⟩, .error (.api e), known.erase c.key)

/-- Makes a call and gives account of it. -/
def accounted (known : KnownTypes) : Procedure Api (Account × Except Fault c.Result × KnownTypes) :=
  match known.get? c.key with
  | some type => c.accountedUnder known none type
  | none => do
    match ← Catalogue.lookUp c.target.group c.target.version c.target.kind with
    | .ok type => c.accountedUnder (known.insert c.key type) (some (.ok type)) type
    | .error e => pure (⟨c.key, some (.error e), none, false⟩, .error (.api e), known)

/-- The account is all that is added to a call. -/
theorem perform_eq_accounted (known : KnownTypes) :
    c.perform known = c.accounted known >>= fun r => pure r.2 := by
  rw [perform_eq_withType, KnownTypes.withType, KnownTypes.typeOf, accounted]
  show (match known.get? c.key with | some _ => _ | none => _) >>= _ = _
  cases known.get? c.key with
  | some type =>
    refine Eq.trans ?_ (Procedure.bind_assoc _ _ _).symm
    exact congrArg (Procedure.bind (c.request type)) (funext fun r => by cases r <;> rfl)
  | none =>
    refine (Procedure.bind_assoc _ _ _).trans (Eq.trans ?_ (Procedure.bind_assoc _ _ _).symm)
    refine congrArg (Procedure.bind (Catalogue.lookUp _ _ _)) (funext fun found => ?_)
    cases found with
    | error e => rfl
    | ok type =>
      refine Eq.trans ?_ (Procedure.bind_assoc _ _ _).symm
      exact congrArg (Procedure.bind (c.request type)) (funext fun r => by cases r <;> rfl)

end SizeCall

/-- What a call under a key can come to, and what is known then. -/
inductive ComesTo (known : KnownTypes) (key : String) : Account → KnownTypes → Prop
  | kept {type : ObjectType} (succeeded : Bool) (hkept : known.get? key = some type) :
      ComesTo known key ⟨key, none, some type, succeeded⟩
        (if succeeded then known else known.erase key)
  | found (type : ObjectType) (succeeded : Bool) (hnone : known.get? key = none) :
      ComesTo known key ⟨key, some (.ok type), some type, succeeded⟩
        (if succeeded then known.insert key type else (known.insert key type).erase key)
  | notFound (e : ApiFailure) (hnone : known.get? key = none) :
      ComesTo known key ⟨key, some (.error e), none, false⟩ known

/-- Whether a call under a key has succeeded since the last one under it that has failed. -/
def Settled (accounts : List Account) (key : String) : Prop :=
  ∃ before a after, accounts = before ++ a :: after ∧ a.key = key ∧ a.succeeded = true ∧
    ∀ b ∈ after, b.key = key → b.succeeded = true

/-- The type that was found last under a key. -/
def lastFound (accounts : List Account) (key : String) : Option ObjectType :=
  ((accounts.filter (·.key = key)).filterMap Account.found).getLast?

section

variable {accounts : List Account} {a : Account} {key : String}

theorem not_settled_nil (key : String) : ¬Settled [] key := by
  rintro ⟨before, a, after, hsplit, -⟩
  exact absurd hsplit.symm (by simp)

/-- Of the calls under a key the last one decides. -/
theorem settled_append (h : a.key = key) :
    Settled (accounts ++ [a]) key ↔ a.succeeded = true := by
  constructor
  · rintro ⟨before, b, after, hsplit, -, hb, hafter⟩
    cases after using List.reverseRecOn with
    | nil =>
      obtain rfl := List.singleton_inj.1 (List.append_inj_right' hsplit rfl)
      exact hb
    | append_singleton after a' =>
      rw [← List.cons_append, ← List.append_assoc] at hsplit
      obtain rfl := List.singleton_inj.1 (List.append_inj_right' hsplit rfl)
      exact hafter a (List.mem_append_right _ (List.mem_singleton_self a)) h
  · exact fun ha => ⟨accounts, a, [], rfl, h, ha, fun b hb => absurd hb List.not_mem_nil⟩

/-- A call under another key decides nothing. -/
theorem settled_append_of_ne (h : a.key ≠ key) :
    Settled (accounts ++ [a]) key ↔ Settled accounts key := by
  constructor
  · rintro ⟨before, b, after, hsplit, hkey, hb, hafter⟩
    cases after using List.reverseRecOn with
    | nil =>
      obtain rfl := List.singleton_inj.1 (List.append_inj_right' hsplit rfl)
      exact absurd hkey h
    | append_singleton after a' =>
      rw [← List.cons_append, ← List.append_assoc] at hsplit
      refine ⟨before, b, after, List.append_inj_left' hsplit rfl, hkey, hb, fun b' hb' => ?_⟩
      exact hafter b' (List.mem_append_left _ hb')
  · rintro ⟨before, b, after, rfl, hkey, hb, hafter⟩
    refine ⟨before, b, after ++ [a], by simp, hkey, hb, ?_⟩
    refine List.forall_mem_append.2 ⟨hafter, fun b' hb' hkey' => ?_⟩
    exact absurd (List.mem_singleton.1 hb' ▸ hkey') h

theorem lastFound_append (h : a.key = key) :
    lastFound (accounts ++ [a]) key = a.found.or (lastFound accounts key) := by
  rw [lastFound, List.filter_append, List.filter_cons_of_pos (by simpa using h), List.filter_nil,
    List.filterMap_append]
  cases hfound : a.found with
  | none => simp [hfound, lastFound]
  | some type => simp [hfound]

theorem lastFound_append_of_ne (h : a.key ≠ key) :
    lastFound (accounts ++ [a]) key = lastFound accounts key := by
  rw [lastFound, List.filter_append, List.filter_cons_of_neg (by simpa using h), List.filter_nil,
    List.append_nil, lastFound]

end

/-- Whether what is known is what the accounts tell: a type is kept under a key if and only if a
call under it has succeeded since the last one that has failed, and it is the one that was found
last. -/
structure Coherent (accounts : List Account) (known : KnownTypes) : Prop where
  settled : ∀ key, (known.get? key).isSome = true ↔ Settled accounts key
  found : ∀ key type, known.get? key = some type → lastFound accounts key = some type

theorem coherent_nil : Coherent [] Table.empty :=
  ⟨fun key => ⟨fun h => absurd h (by simp), fun h => absurd h (not_settled_nil key)⟩,
    fun _ _ h => absurd h (by simp)⟩

section

variable {known known' : KnownTypes} {key : String} {a : Account} {accounts : List Account}

theorem ComesTo.key_eq (h : ComesTo known key a known') : a.key = key := by
  cases h <;> rfl

/-- A call changes nothing of what is known under other keys. -/
theorem ComesTo.get?_of_ne (h : ComesTo known key a known') {key' : String} (hne : key' ≠ key) :
    known'.get? key' = known.get? key' := by
  cases h with
  | kept succeeded hkept =>
    cases succeeded with
    | false => exact (Table.get?_erase known key key').trans (if_neg hne)
    | true => rfl
  | found type succeeded hnone =>
    have hinsert : (known.insert key type).get? key' = known.get? key' :=
      (Table.get?_insert known key key' type).trans (if_neg hne)
    cases succeeded with
    | false => exact ((Table.get?_erase _ key key').trans (if_neg hne)).trans hinsert
    | true => exact hinsert
  | notFound e hnone => rfl

/-- After a call its key is known if and only if the call has succeeded, and then it is known as
what the call has used. -/
theorem ComesTo.get?_self (h : ComesTo known key a known') :
    known'.get? key = if a.succeeded then a.used else none := by
  cases h with
  | kept succeeded hkept =>
    cases succeeded with
    | false => exact (Table.get?_erase known key key).trans (if_pos rfl)
    | true => exact hkept
  | found type succeeded hnone =>
    cases succeeded with
    | false => exact (Table.get?_erase _ key key).trans (if_pos rfl)
    | true => exact (Table.get?_insert known key key type).trans (if_pos rfl)
  | notFound e hnone => exact hnone

theorem ComesTo.used_of_succeeded (h : ComesTo known key a known') (ha : a.succeeded = true) :
    ∃ type, a.used = some type := by
  cases h with
  | kept succeeded hkept => exact ⟨_, rfl⟩
  | found type succeeded hnone => exact ⟨_, rfl⟩
  | notFound e hnone => cases ha

theorem ComesTo.used_eq_none_iff (h : ComesTo known key a known') :
    a.used = none ↔ ∃ e, a.lookedUp = some (.error e) := by
  cases h with
  | kept succeeded hkept => simp
  | found type succeeded hnone => simp
  | notFound e hnone => simp

namespace Coherent

/-- A call looks the type up if and only if nothing is settled under its key. -/
theorem lookedUp_iff (h : Coherent accounts known) (hcall : ComesTo known key a known') :
    a.lookedUp.isSome = true ↔ ¬Settled accounts key := by
  rw [← h.settled key]
  cases hcall with
  | kept succeeded hkept => simp [hkept]
  | found type succeeded hnone => simp [hnone]
  | notFound e hnone => simp [hnone]

/-- A call uses the type that was found last, be it by the call itself. -/
theorem lastFound_of_used (h : Coherent accounts known) (hcall : ComesTo known key a known')
    {type : ObjectType} (hused : a.used = some type) :
    lastFound (accounts ++ [a]) key = some type := by
  rw [lastFound_append hcall.key_eq]
  cases hcall with
  | kept succeeded hkept => exact (h.found key _ hkept).trans hused
  | found type' succeeded hnone => exact hused
  | notFound e hnone => cases hused

theorem step (h : Coherent accounts known) (hcall : ComesTo known key a known') :
    Coherent (accounts ++ [a]) known' where
  settled := by
    intro key'
    by_cases hkey : key' = key
    · subst hkey
      rw [settled_append hcall.key_eq, hcall.get?_self]
      split
      · obtain ⟨type, hused⟩ := hcall.used_of_succeeded ‹_›
        simp [*]
      · simp [*]
    · rw [settled_append_of_ne (hcall.key_eq ▸ Ne.symm hkey), hcall.get?_of_ne hkey, h.settled]
  found := by
    intro key' type htype
    by_cases hkey : key' = key
    · subst hkey
      rw [hcall.get?_self] at htype
      split at htype
      · exact h.lastFound_of_used hcall htype
      · cases htype
    · rw [lastFound_append_of_ne (hcall.key_eq ▸ Ne.symm hkey)]
      exact h.found key' type ((hcall.get?_of_ne hkey).symm.trans htype)

end Coherent

end

/-- The accounts of the calls so far, the types that are known, and what has become of the
cluster. -/
structure Journal (σ : Type) where
  accounts : List Account
  known : KnownTypes
  cluster : σ

namespace Journal

variable {σ : Type} (answer : (r : Api.Call) → σ → Api.Reply r × σ)

/-- Before the first call nothing is known. -/
def begin (s : σ) : Journal σ := ⟨[], Table.empty, s⟩

/-- What a call gives: its account, its result, the types that are known then, and what becomes of
the cluster. -/
def call (j : Journal σ) (c : SizeCall) : (Account × Except Fault c.Result × KnownTypes) × σ :=
  (c.accounted j.known).run answer j.cluster

def next (j : Journal σ) (c : SizeCall) : Journal σ :=
  ⟨j.accounts ++ [(j.call answer c).1.1], (j.call answer c).1.2.2, (j.call answer c).2⟩

/-- A journal after some more calls, one after another. -/
def after (j : Journal σ) (calls : List SizeCall) : Journal σ := calls.foldl (next answer) j

theorem run_accountedUnder (c : SizeCall) (known : KnownTypes)
    (lookedUp : Option (Except ApiFailure ObjectType)) (type : ObjectType) (s : σ) :
    ∃ succeeded reply s', (c.accountedUnder known lookedUp type).run answer s =
      ((⟨c.key, lookedUp, some type, succeeded⟩, reply,
        if succeeded then known else known.erase c.key), s') ∧ reply.isOk = succeeded := by
  rw [SizeCall.accountedUnder, Procedure.run_seq]
  rcases (c.request type).run answer s with ⟨_ | a, s'⟩
  · exact ⟨false, _, s', rfl, rfl⟩
  · exact ⟨true, _, s', rfl, rfl⟩

theorem comesTo_call (j : Journal σ) (c : SizeCall) :
    ComesTo j.known c.key (j.call answer c).1.1 (j.call answer c).1.2.2 ∧
      (j.call answer c).1.2.1.isOk = (j.call answer c).1.1.succeeded := by
  cases hknown : j.known.get? c.key with
  | some type =>
    obtain ⟨succeeded, reply, s', hrun, hok⟩ :=
      run_accountedUnder answer c j.known none type j.cluster
    simp only [call, SizeCall.accounted, hknown, hrun]
    exact ⟨.kept succeeded hknown, hok⟩
  | none =>
    simp only [call, SizeCall.accounted, hknown, Procedure.run_seq]
    rcases (Catalogue.lookUp _ _ _).run answer j.cluster with ⟨e | type, s₁⟩
    · exact ⟨.notFound e hknown, rfl⟩
    · obtain ⟨succeeded, reply, s', hrun, hok⟩ := run_accountedUnder answer c
        (j.known.insert c.key type) (some (.ok type)) type s₁
      simp only [hrun]
      exact ⟨.found type succeeded hknown, hok⟩

variable {answer} {j : Journal σ}

theorem coherent_next (h : Coherent j.accounts j.known) (c : SizeCall) :
    Coherent (j.next answer c).accounts (j.next answer c).known :=
  h.step (comesTo_call _ j c).1

/-- After any calls what is known is what their accounts tell. -/
theorem coherent_after (h : Coherent j.accounts j.known) (calls : List SizeCall) :
    Coherent (j.after answer calls).accounts (j.after answer calls).known := by
  induction calls generalizing j with
  | nil => exact h
  | cons c calls ih => exact ih (coherent_next h c)

/-- Calls under other keys change nothing of what is known under a key. -/
theorem get?_after_of_ne {key : String} {calls : List SizeCall} (h : ∀ c ∈ calls, c.key ≠ key) :
    (j.after answer calls).known.get? key = j.known.get? key := by
  induction calls generalizing j with
  | nil => rfl
  | cons c calls ih =>
    obtain ⟨hc, hcalls⟩ := List.forall_mem_cons.1 h
    exact (ih hcalls).trans ((comesTo_call _ j c).1.get?_of_ne hc.symm)

/-- What holds of a call that comes next in a journal. -/
structure Sparing (answer : (r : Api.Call) → σ → Api.Reply r × σ) (j : Journal σ) (c : SizeCall) :
    Prop where
  /-- The account is all that is added to the call. -/
  performed : c.perform j.known = c.accounted j.known >>= fun r => pure r.2
  succeeded : (j.call answer c).1.1.succeeded = true ↔ ∃ r, (j.call answer c).1.2.1 = .ok r
  /-- The type is looked up if and only if no call under the key has succeeded since the last one
  that has failed. -/
  lookedUp : (j.call answer c).1.1.lookedUp.isSome = true ↔ ¬Settled j.accounts c.key
  /-- The type that is used is the one that was found last under the key, by this call or by an
  earlier one; none is used only if it was looked up in vain. -/
  used : ∀ type, (j.call answer c).1.1.used = some type →
    lastFound (j.next answer c).accounts c.key = some type
  unused : (j.call answer c).1.1.used = none ↔
    ∃ e, (j.call answer c).1.1.lookedUp = some (.error e)
  /-- A call that fails leaves nothing under its key. -/
  forgotten : (j.call answer c).1.1.succeeded = false → (j.next answer c).known.get? c.key = none
  /-- What is known under other keys stays. -/
  others : ∀ key ≠ c.key, (j.next answer c).known.get? key = j.known.get? key
  /-- After a call that fails, the next one under its key looks the type up anew. -/
  renewed : (j.call answer c).1.1.succeeded = false → ∀ between d, d.key = c.key →
    (∀ b ∈ between, b.key ≠ c.key) →
    (((j.next answer c).after answer between).call answer d).1.1.lookedUp.isSome = true

end Journal

end CronScale.Cluster
