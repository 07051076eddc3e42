import Comax.Core.Fields
import Comax.Server.Router

/-!
# What an audit entry says

The handlers write an action and a line of labelled fields. Since the names in the fields
have passed `validateName`, which keeps blanks and `=` out, an entry can be read back.
-/

namespace Comax.Server

open Comax.Core Comax.Store

/-- A name that `validateName` accepts. -/
def AcceptedName (s : Str) : Prop := s ≠ [] ∧ s.length ≤ maxNameLen ∧ ∀ c ∈ s, allowed c = true

/-- What `validateName` has accepted. -/
theorem acceptedName_of_ok {srv : Server} {field : String} {s : Str}
    (h : validateName srv field s = .ok ()) : AcceptedName s := validateName_ok_iff.mp h

/-- The bytes of a name. -/
theorem AcceptedName.bytes {s : Str} (h : AcceptedName s) {c : UInt8} (hc : c ∈ s) :
    c < 0x80 ∧ c ≠ byte ' ' ∧ c ≠ byte '=' ∧ c ≠ byte '%' := by
  have hcode := allowed_iff.mp (h.2.2 c hc)
  have hblank : (byte ' ').toNat = 32 := rfl
  have hequals : (byte '=').toNat = 61 := rfl
  have hpercent : (byte '%').toNat = 37 := rfl
  have hbound : (0x80 : UInt8).toNat = 128 := rfl
  rw [UInt8.lt_iff_toNat_lt, ne_eq, ne_eq, ne_eq, ← UInt8.toNat_inj, ← UInt8.toNat_inj,
    ← UInt8.toNat_inj, hblank, hequals, hpercent, hbound]
  omega

/-- A name may stand in a field. -/
theorem AcceptedName.atomic {s : Str} (h : AcceptedName s) : Atomic s :=
  ⟨fun hm => (h.bytes hm).2.1 rfl, fun hm => (h.bytes hm).2.2.1 rfl⟩

/-! ## Actions -/

/-- The actions that the handlers write. -/
inductive AuditAction where
  | authBootstrap
  | sessionCreate
  | sessionRevoke
  | sessionRevokeByID
  | projectCreate
  | envCreate
  | tokenCreate
  | tokenRevoke
  | webhookCreate
  | webhookDelete
  | webhookEnable
  | webhookDisable
  | secretUpsert
  | secretRollback
  | secretDelete
  deriving DecidableEq

namespace AuditAction

/-- The text of an action. -/
def text : AuditAction → Str
  | authBootstrap => ascii "auth.bootstrap"
  | sessionCreate => ascii "session.create"
  | sessionRevoke => ascii "session.revoke"
  | sessionRevokeByID => ascii "session.revoke_by_id"
  | projectCreate => ascii "project.create"
  | envCreate => ascii "env.create"
  | tokenCreate => ascii "auth.token.create"
  | tokenRevoke => ascii "auth.token.revoke"
  | webhookCreate => ascii "webhook.create"
  | webhookDelete => ascii "webhook.delete"
  | webhookEnable => ascii "webhook.enable"
  | webhookDisable => ascii "webhook.disable"
  | secretUpsert => eventSecretUpsert
  | secretRollback => eventSecretRollback
  | secretDelete => eventSecretDelete

/-- All actions. -/
def all : List AuditAction :=
  [authBootstrap, sessionCreate, sessionRevoke, sessionRevokeByID, projectCreate, envCreate,
    tokenCreate, tokenRevoke, webhookCreate, webhookDelete, webhookEnable, webhookDisable,
    secretUpsert, secretRollback, secretDelete]

/-- The action with a text. -/
def read (s : Str) : Option AuditAction := all.find? fun a => a.text = s

/-- Every action is read back. -/
theorem read_text (a : AuditAction) : read a.text = some a := by cases a <;> decide

end AuditAction

/-! ## Events -/

/-- A change as an audit entry tells it. -/
inductive AuditEvent where
  | bootstrapped (token : Str)
  | sessionCreated (tokenID sessionID : Int)
  | sessionRevoked (tokenID sessionID : Int)
  | sessionRevokedByID (tokenID sessionID : Int)
  | projectCreated (p : Str)
  | envCreated (p e : Str)
  | tokenCreated (token : Str)
  | tokenRevoked (tokenID : Int)
  | webhookCreated (p : Str) (webhookID : Int)
  | webhookDeleted (webhookID : Int)
  | webhookSet (enabled : Bool) (webhookID : Int)
  | secretUpserted (p e k : Str) (version : Int)
  | secretRolledBack (p e k : Str) (fromVersion toVersion : Int)
  | secretDeleted (p e k : Str)
  deriving DecidableEq

namespace AuditEvent

/-- The action of an event. -/
def action : AuditEvent → AuditAction
  | bootstrapped _ => .authBootstrap
  | sessionCreated _ _ => .sessionCreate
  | sessionRevoked _ _ => .sessionRevoke
  | sessionRevokedByID _ _ => .sessionRevokeByID
  | projectCreated _ => .projectCreate
  | envCreated _ _ => .envCreate
  | tokenCreated _ => .tokenCreate
  | tokenRevoked _ => .tokenRevoke
  | webhookCreated _ _ => .webhookCreate
  | webhookDeleted _ => .webhookDelete
  | webhookSet enabled _ => if enabled then .webhookEnable else .webhookDisable
  | secretUpserted _ _ _ _ => .secretUpsert
  | secretRolledBack _ _ _ _ _ => .secretRollback
  | secretDeleted _ _ _ => .secretDelete

/-- The fields of a session. -/
def sessionFields (tokenID sessionID : Int) : List (Str × Str) :=
  [(ascii "token_id", formatInt tokenID), (ascii "session_id", formatInt sessionID)]

/-- The fields of a key. -/
def keyFields (p e k : Str) : List (Str × Str) :=
  [(ascii "project", p), (ascii "env", e), (ascii "key", k)]

/-- The fields of an event. -/
def fields : AuditEvent → List (Str × Str)
  | bootstrapped token | tokenCreated token => [(ascii "token", token)]
  | sessionCreated tokenID sessionID | sessionRevoked tokenID sessionID
  | sessionRevokedByID tokenID sessionID => sessionFields tokenID sessionID
  | projectCreated p => [(ascii "project", p)]
  | envCreated p e => [(ascii "project", p), (ascii "env", e)]
  | tokenRevoked tokenID => [(ascii "token_id", formatInt tokenID)]
  | webhookCreated p webhookID => [(ascii "project", p), (ascii "webhook_id", formatInt webhookID)]
  | webhookDeleted webhookID | webhookSet _ webhookID =>
    [(ascii "webhook_id", formatInt webhookID)]
  | secretUpserted p e k version => keyFields p e k ++ [(ascii "version", formatInt version)]
  | secretRolledBack p e k fromVersion toVersion =>
    keyFields p e k ++ [(ascii "from_version", formatInt fromVersion),
      (ascii "to_version", formatInt toVersion)]
  | secretDeleted p e k => keyFields p e k

/-- The target of an event. -/
def target (ev : AuditEvent) : Str := fieldsText ev.fields

/-- The names in an event. -/
def names : AuditEvent → List Str
  | bootstrapped token | tokenCreated token => [token]
  | projectCreated p | webhookCreated p _ => [p]
  | envCreated p e => [p, e]
  | secretUpserted p e k _ | secretRolledBack p e k _ _ | secretDeleted p e k => [p, e, k]
  | _ => []

/-- All names in the event are accepted. -/
def Accepted (ev : AuditEvent) : Prop := ∀ s ∈ ev.names, AcceptedName s

/-- The event of an action with the given values. -/
def read : AuditAction → List Str → Option AuditEvent
  | .authBootstrap, [token] => some (bootstrapped token)
  | .sessionCreate, [t, s] => do return sessionCreated (← readInt t) (← readInt s)
  | .sessionRevoke, [t, s] => do return sessionRevoked (← readInt t) (← readInt s)
  | .sessionRevokeByID, [t, s] => do return sessionRevokedByID (← readInt t) (← readInt s)
  | .projectCreate, [p] => some (projectCreated p)
  | .envCreate, [p, e] => some (envCreated p e)
  | .tokenCreate, [token] => some (tokenCreated token)
  | .tokenRevoke, [t] => (readInt t).map tokenRevoked
  | .webhookCreate, [p, w] => (readInt w).map (webhookCreated p)
  | .webhookDelete, [w] => (readInt w).map webhookDeleted
  | .webhookEnable, [w] => (readInt w).map (webhookSet true)
  | .webhookDisable, [w] => (readInt w).map (webhookSet false)
  | .secretUpsert, [p, e, k, v] => (readInt v).map (secretUpserted p e k)
  | .secretRollback, [p, e, k, v, w] => do
    return secretRolledBack p e k (← readInt v) (← readInt w)
  | .secretDelete, [p, e, k] => some (secretDeleted p e k)
  | _, _ => none

/-- An event is read back from its action and its values. -/
theorem read_values (ev : AuditEvent) : read ev.action (ev.fields.map Prod.snd) = some ev := by
  cases ev with
  | webhookSet enabled w =>
    have hid := readInt_formatInt w
    cases enabled <;> simp [action, fields, read, hid]
  | _ => simp [action, fields, sessionFields, keyFields, read, readInt_formatInt]

/-- Every event has fields. -/
theorem fields_ne_nil (ev : AuditEvent) : ev.fields ≠ [] := by
  cases ev <;> exact List.cons_ne_nil _ _

/-- The labels of all fields. -/
def labels : List Str :=
  [ascii "project", ascii "env", ascii "key", ascii "token", ascii "token_id",
    ascii "session_id", ascii "webhook_id", ascii "version", ascii "from_version",
    ascii "to_version"]

/-- The fields have known labels. -/
theorem labels_of_fields (ev : AuditEvent) : ev.fields.map Prod.fst ⊆ labels := by
  cases ev <;>
    simp only [fields, sessionFields, keyFields, List.cons_append, List.nil_append, List.map_cons,
      List.map_nil] <;> decide

/-- Their values are names or numbers. -/
theorem values_of_fields (ev : AuditEvent) :
    ∀ v ∈ ev.fields.map Prod.snd, v ∈ ev.names ∨ ∃ n, v = formatInt n := by
  cases ev <;> simp [fields, sessionFields, keyFields, names]

/-- The labels are plain words. -/
theorem bytes_of_labels : ∀ l ∈ labels, ∀ c ∈ l, c < 0x80 ∧ c ≠ byte ' ' ∧ c ≠ byte '=' := by
  have hall : (labels.all fun l => l.all fun c => decide (c < 0x80) && decide (c ≠ byte ' ') &&
      decide (c ≠ byte '=')) = true := by decide
  intro l hl c hc
  have hbyte := List.all_eq_true.mp (List.all_eq_true.mp hall l hl) c hc
  simp only [Bool.and_eq_true, decide_eq_true_eq] at hbyte
  exact ⟨hbyte.1.1, hbyte.1.2, hbyte.2⟩

/-- Accepted names make fields of plain bytes. -/
theorem bytes_of_fields {ev : AuditEvent} (h : ev.Accepted) {f : Str × Str} (hf : f ∈ ev.fields) :
    (∀ c ∈ f.1, c < 0x80 ∧ c ≠ byte ' ' ∧ c ≠ byte '=') ∧
      ∀ c ∈ f.2, c < 0x80 ∧ c ≠ byte ' ' ∧ c ≠ byte '=' := by
  refine ⟨bytes_of_labels _ (ev.labels_of_fields (List.mem_map_of_mem hf)), fun c hc => ?_⟩
  rcases ev.values_of_fields _ (List.mem_map_of_mem hf) with hname | ⟨n, hn⟩
  · have hbytes := (h _ hname).bytes hc
    exact ⟨hbytes.1, hbytes.2.1, hbytes.2.2.1⟩
  · rw [hn] at hc
    exact ⟨formatInt_ascii n c hc, fun he => (atomic_formatInt n).1 (he ▸ hc),
      fun he => (atomic_formatInt n).2 (he ▸ hc)⟩

/-- Accepted names make legible fields. -/
theorem legible {ev : AuditEvent} (h : ev.Accepted) : ∀ f ∈ ev.fields, Legible f := by
  intro f hf
  obtain ⟨hlabel, hvalue⟩ := bytes_of_fields h hf
  exact ⟨⟨fun hm => (hlabel _ hm).2.1 rfl, fun hm => (hlabel _ hm).2.2 rfl⟩,
    ⟨fun hm => (hvalue _ hm).2.1 rfl, fun hm => (hvalue _ hm).2.2 rfl⟩⟩

/-- Accepted names make an ASCII target. -/
theorem target_ascii {ev : AuditEvent} (h : ev.Accepted) : ∀ c ∈ ev.target, c < 0x80 := by
  intro c hc
  have hblank : byte ' ' < 0x80 := by decide
  have hequals : byte '=' < 0x80 := by decide
  rcases mem_fieldsText hc with rfl | ⟨f, hf, hc⟩
  · exact hblank
  · rw [fieldText, List.mem_append, List.mem_cons] at hc
    rcases hc with hc | rfl | hc
    · exact ((bytes_of_fields h hf).1 c hc).1
    · exact hequals
    · exact ((bytes_of_fields h hf).2 c hc).1

end AuditEvent

/-- What an entry says. -/
def eventOf (entry : AuditEntry) : Option AuditEvent :=
  AuditAction.read entry.action >>= fun action =>
    AuditEvent.read action ((readFields entry.target).map Prod.snd)

/-- An entry with the action and the target of an event says it. -/
theorem eventOf_eq {entry : AuditEntry} {ev : AuditEvent} (hev : ev.Accepted)
    (haction : entry.action = ev.action.text) (htarget : entry.target = ev.target) :
    eventOf entry = some ev := by
  rw [eventOf, haction, htarget, AuditAction.read_text, AuditEvent.target,
    readFields_fieldsText ev.fields_ne_nil (AuditEvent.legible hev)]
  exact ev.read_values

end Comax.Server
