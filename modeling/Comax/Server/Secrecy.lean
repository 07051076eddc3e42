import Comax.Server.Rules
import Comax.Store.Blind

/-!
# Secret values stay in ciphertexts

Two runs of the server on requests that differ in the values that they put. The databases
differ in ciphertexts, and the responses in values: a handler that gets hold of a value
seals it, opens it or returns it, and looks at nothing but whether it could.
-/

namespace Comax.Server

open Comax.Core Comax.Store Comax.Crypto

/-- A view without the value of a secret. -/
def Data.blind : Data → Data
  | .secret secretID key _ version updatedAt => .secret secretID key [] version updatedAt
  | data => data

/-- An envelope without the value of a secret. -/
def Envelope.blind : Envelope → Envelope
  | .ok data => .ok data.blind
  | body => body

/-- A response without the value of a secret. -/
def Response.blind (resp : Response) : Response := { resp with body := resp.body.blind }

/-- Responses that differ in the value of a secret. -/
def Response.Twins (resp resp' : Response) : Prop := resp.blind = resp'.blind

/-! ## Handlers that see no ciphertext -/

/-- A handler that does the same on databases that differ in ciphertexts. -/
def Oblivious (C : Str → Str → Prop) {α : Type} (p : Handler α) : Prop :=
  Prog.Paired (Store.Twins C) Response.Twins Eq p p

/-- The statements of a transaction that do the same on such databases. -/
def Heedless (C : Str → Str → Prop) {α : Type} (m : Tx Response α) : Prop :=
  Paired (Session.Twins C) Response.Twins Eq m m

variable {C : Str → Str → Prop} {α β : Type} {srv : Server} {actor : Option ServiceToken}
  {rq : Request}

/-- A value. -/
theorem Oblivious.pure (a : α) : Oblivious C (Pure.pure a) := Prog.Paired.ret rfl

/-- A refusal. -/
theorem Oblivious.exit (resp : Response) : Oblivious C (.exit resp : Handler α) :=
  Prog.Paired.exit rfl

/-- One part after another. -/
theorem Oblivious.bind {p : Handler α} {f : α → Handler β} (hp : Oblivious C p)
    (hf : ∀ a, Oblivious C (f a)) : Oblivious C (p >>= f) := by
  refine Prog.Paired.bind hp ?_
  rintro a _ rfl
  exact hf a

/-- A computation without actions. -/
theorem Oblivious.lift (x : Except Response α) : Oblivious C (Prog.lift x) :=
  Prog.paired_lift (Alike.refl (S := Response.Twins) (fun _ => rfl) (fun _ => rfl) x)

/-- See `Oblivious.lift`. -/
theorem oblivious_check (x : Except Failure α) : Oblivious C (check x) := .lift _

/-- See `Oblivious.lift`. -/
theorem oblivious_need (refuse : Response) (o : Option α) : Oblivious C (need refuse o) := .lift _

/-- A statement outside a transaction. -/
theorem oblivious_autocommit {f : Int → Database → Except StoreError (α × Database)}
    (h : Stmts C Eq f f) : Oblivious C (autocommit f) :=
  (paired_autocommit h).mono fun _ _ h => h.eq

/-- A transaction. -/
theorem Heedless.transaction {onBegin onCommit : Response} {body : Tx Response α}
    (h : Heedless C body) : Oblivious C (transaction onBegin onCommit body) :=
  paired_transaction (S := Response.Twins) rfl rfl h

/-- A body that does nothing. -/
theorem Heedless.pure (a : α) : Heedless C (Pure.pure a) := Paired.pure rfl

/-- A body that ends early. -/
theorem Heedless.throw (resp : Response) : Heedless C (MonadExcept.throw resp : Tx Response α) :=
  Paired.throw rfl

/-- One part of a body after another. -/
theorem Heedless.bind {m : Tx Response α} {f : α → Tx Response β} (hm : Heedless C m)
    (hf : ∀ a, Heedless C (f a)) : Heedless C (m >>= f) := by
  refine Paired.bind hm ?_
  rintro a _ rfl
  exact hf a

/-- A statement of a body whose error is handled. -/
theorem heedless_attempt {f : Int → Database → Except StoreError (α × Database)}
    (h : Stmts C Eq f f) : Heedless C (Tx.attempt f) :=
  Paired.mono (paired_attempt h) fun _ _ h => h.eq

/-- What the handlers do alike on such databases follows from their statements. -/
theorem obliviousRules : OrdinaryRules (fun p => Oblivious C p) (fun m => Heedless C m)
    fun f => Stmts C Eq f f where
  ret := .pure
  exit := .exit
  bind := .bind
  autocommit := oblivious_autocommit
  read := stmts_read
  transaction := Heedless.transaction
  pure := .pure
  throw := .throw
  seq := .bind
  clock := paired_clock
  attempt := heedless_attempt
  audit _ _ _ _ := (elsewhere_auditAppend _ _ _ _).stmts
  projectCreate _ := (elsewhere_projectCreate _).stmts
  envCreate _ _ _ := (elsewhere_envCreate _ _ _).stmts
  sessionCreate _ := (elsewhere_sessionCreate _).stmts
  sessionRevoke _ := (elsewhere_sessionRevoke _).stmts
  sessionRevokeByID _ _ := (elsewhere_sessionRevokeByID _ _).stmts
  webhookCreate _ _ _ _ _ _ := (elsewhere_webhookCreate _ _ _ _ _).stmts
  webhookEnable _ _ := (elsewhere_webhookEnable _ _).stmts
  webhookDelete _ := (elsewhere_webhookDelete _).stmts

/-- The deliveries of a changed secret are other rows. -/
theorem stmts_deliveryEnqueue (id : Int) (event payload : Str) :
    Stmts C Eq (DeliveryRepo.enqueue id event payload) (DeliveryRepo.enqueue id event payload) :=
  (elsewhere_deliveryEnqueue _ _ _).stmts

/-! ## Handlers of secrets -/

/-- No key in use tells two ciphertexts apart by whether it opens them. -/
def Indistinct (gcm : AEAD) (keys : Set Str) (c c' : Str) : Prop :=
  ∀ key ∈ keys, (gcm.open key c).isSome = (gcm.open key c').isSome

/-- Requests that differ in the value that they put. -/
structure Request.Twins (gcm : AEAD) (keys : Set Str) (rq rq' : Request) : Prop where
  /-- All the rest is the same. -/
  same : rq' = { rq with body := { rq.body with value := rq'.body.value } }
  /-- Either both bodies decode or none. -/
  decoded : rq.body.value.isSome = rq'.body.value.isSome
  /-- The master key is one of those in use. -/
  key : ∀ key ∈ rq.inputs.masterKey, key ∈ keys
  /-- The nonce is of the size that `Seal` draws. -/
  nonce : ∀ nonce ∈ rq.inputs.nonce, nonce.length = nonceSize
  /-- After a rotation, the tags of the values do not verify under another key. -/
  authentic : ∀ value, rq.body.value = some value ∨ rq'.body.value = some value →
    ∀ key ∈ rq.inputs.masterKey, ∀ nonce ∈ rq.inputs.nonce, ∀ other ∈ keys, other ≠ key →
      gcm.opened other nonce (gcm.sealed key nonce value) = none

/-- Two values that are sealed alike are opened by the same keys. -/
theorem indistinct_sealed {gcm : AEAD} (hgcm : gcm.Lawful) {keys : Set Str} {key nonce : Str}
    (hkey : key.length = keySize) (hnonce : nonce.length = nonceSize) {value value' : Str}
    (h : ∀ other ∈ keys, other ≠ key → gcm.opened other nonce (gcm.sealed key nonce value) = none)
    (h' : ∀ other ∈ keys, other ≠ key →
      gcm.opened other nonce (gcm.sealed key nonce value') = none) :
    Indistinct gcm keys (nonce ++ gcm.sealed key nonce value)
      (nonce ++ gcm.sealed key nonce value') := by
  intro other hother
  rw [AEAD.open_sealed hgcm hnonce, AEAD.open_sealed hgcm hnonce]
  by_cases heq : other = key
  · rw [heq, hgcm.opens key nonce value hkey hnonce, hgcm.opens key nonce value' hkey hnonce,
      if_pos hkey, if_pos hkey]
    rfl
  · rw [h other hother heq, h' other hother heq]

/-- Values that are both there or both missing. -/
theorem paired_need {R : Database → Database → Prop} {W : α → α → Prop} {refuse : Response}
    {o o' : Option α} (h : Option.Rel W o o') :
    Prog.Paired R Response.Twins W (need refuse o) (need refuse o') := by
  cases h with
  | some h => exact .ret h
  | none => exact Prog.Paired.exit rfl

/-- A value that may be missing, beside itself. -/
theorem rel_self {o : Option α} : Option.Rel (fun a b => a = b ∧ a ∈ o) o o := by
  cases o with
  | none => exact .none
  | some a => exact .some ⟨rfl, rfl⟩

/-- The views of secrets that differ in their ciphertexts, with any values. -/
theorem writeOK_twins {s s' : Secret} (h : s.Twins s') (status : ℕ) (value value' : Str) :
    (writeOK status (secretData s value)).Twins (writeOK status (secretData s' value')) := by
  obtain ⟨hid, -, hkey, hversion, -, hupdated, -⟩ := h.columns
  simp [Response.Twins, Response.blind, Envelope.blind, Data.blind, writeOK, secretData, *]

/-- A new version is written and announced the same whatever its ciphertext. -/
theorem paired_writeVersion {ciphertext ciphertext' : Str} (hC : C ciphertext ciphertext')
    (p : Project) (e : Environment) (key event : Str) {target target' : Secret → Str}
    (htarget : ∀ s s', s.Twins s' → target s = target' s') :
    Paired (Session.Twins C) Response.Twins SecretRepo.UpsertResult.Twins
      (writeVersion actor p e key ciphertext event target)
      (writeVersion actor p e key ciphertext' event target') := by
  refine Paired.bind (paired_stmt (stmts_upsert _ _ _ _) fun _ => rfl) fun up up' hup => ?_
  obtain ⟨hid, -, -, hversion, -⟩ := hup.secret.columns
  rw [← hid, ← hversion, ← htarget _ _ hup.secret]
  refine Paired.bind (paired_stmt (stmts_versionCreate _ _ hC _) fun _ => rfl) fun _ _ _ => ?_
  refine Paired.bind (obliviousRules.announce obliviousRules.audit stmts_deliveryEnqueue
    _ _ _ _ _ _) fun _ _ _ => ?_
  exact .pure hup

variable {keys : Set Str} {rq' : Request}

/-- What twin requests are served with. -/
theorem Request.Twins.inputs (h : rq.Twins srv.gcm keys rq') : rq'.inputs = rq.inputs := by
  rw [h.same]

/-- `handlePutSecret` on values that differ. -/
theorem paired_handlePutSecret (hgcm : srv.gcm.Lawful) (h : rq.Twins srv.gcm keys rq')
    (p e k : Str) : Prog.Paired (Store.Twins (Indistinct srv.gcm keys)) Response.Twins
      Response.Twins (srv.handlePutSecret actor rq p e k)
        (srv.handlePutSecret actor rq' p e k) := by
  refine Prog.Paired.bind (obliviousRules.resolveEnv p e) ?_
  rintro pe _ rfl
  refine Prog.Paired.bind (oblivious_check _) fun _ _ _ => ?_
  have hvalue : Option.Rel (fun value value' => rq.body.value = some value ∧
      rq'.body.value = some value') rq.body.value rq'.body.value := by
    have hdecoded := h.decoded
    cases hv : rq.body.value <;> cases hv' : rq'.body.value <;> rw [hv, hv'] at hdecoded
    · exact .none
    · cases hdecoded
    · cases hdecoded
    · exact .some ⟨rfl, rfl⟩
  refine Prog.Paired.bind (paired_need hvalue) ?_
  rintro value value' ⟨hv, hv'⟩
  rw [h.inputs]
  refine Prog.Paired.bind (paired_need rel_self) ?_
  rintro master _ ⟨rfl, hmem⟩
  have hsealed : Option.Rel (Indistinct srv.gcm keys)
      (rq.inputs.nonce.bind fun nonce => srv.gcm.seal master nonce value)
      (rq.inputs.nonce.bind fun nonce => srv.gcm.seal master nonce value') := by
    cases hn : rq.inputs.nonce with
    | none => exact .none
    | some nonce =>
      simp only [Option.bind_some, AEAD.seal]
      split_ifs with hkey
      · exact .some (indistinct_sealed hgcm hkey (h.nonce nonce hn)
          (h.authentic value (.inl hv) master hmem nonce hn)
          (h.authentic value' (.inr hv') master hmem nonce hn))
      · exact .none
  refine Prog.Paired.bind (paired_need hsealed) fun ct ct' hct => ?_
  refine Prog.Paired.bind (paired_transaction (S := Response.Twins) rfl rfl
    (paired_writeVersion hct _ _ _ _ ?_)) fun up up' hup => ?_
  · intro s s' hs
    obtain ⟨-, -, -, hversion, -⟩ := hs.columns
    rw [hversion]
  · rw [← hup.created]
    exact .ret (writeOK_twins hup.secret _ _ _)

/-- `handleRollbackSecret` on versions whose ciphertexts differ. -/
theorem paired_handleRollbackSecret (h : rq.Twins srv.gcm keys rq') (p e k : Str) :
    Prog.Paired (Store.Twins (Indistinct srv.gcm keys)) Response.Twins Response.Twins
      (srv.handleRollbackSecret actor rq p e k) (srv.handleRollbackSecret actor rq' p e k) := by
  have hversion : rq'.body.targetVersion = rq.body.targetVersion := by rw [h.same]
  unfold handleRollbackSecret
  rw [h.inputs, hversion]
  refine Prog.Paired.bind (obliviousRules.resolveEnv p e) ?_
  rintro pe _ rfl
  refine Prog.Paired.bind (oblivious_check _) fun _ _ _ => ?_
  refine Prog.Paired.bind (oblivious_need _ _) ?_
  rintro targetVersion _ rfl
  split_ifs
  · exact .exit rfl
  refine Prog.Paired.bind (paired_autocommitOr (stmts_byKey _ _) fun _ => rfl)
    fun current current' hcurrent => ?_
  obtain ⟨hid, -, -, hversion, -⟩ := hcurrent.columns
  rw [← hid, ← hversion]
  split_ifs
  · exact .exit rfl
  refine Prog.Paired.bind (paired_autocommitOr (stmts_byVersion _ _) fun _ => rfl)
    fun target target' htarget => ?_
  refine Prog.Paired.bind (paired_need rel_self) ?_
  rintro master _ ⟨rfl, hmem⟩
  have hopen : Option.Rel (fun _ _ => True) (srv.gcm.open master target.ciphertext)
      (srv.gcm.open master target'.ciphertext) := by
    have hsame := htarget.2 master (h.key master hmem)
    cases hx : srv.gcm.open master target.ciphertext <;>
      cases hy : srv.gcm.open master target'.ciphertext <;> rw [hx, hy] at hsame
    · exact .none
    · cases hsame
    · cases hsame
    · exact .some trivial
  refine Prog.Paired.bind (paired_need hopen) fun plain plain' _ => ?_
  refine Prog.Paired.bind (paired_transaction (S := Response.Twins) rfl rfl
    (paired_writeVersion htarget.2 _ _ _ _ ?_)) fun up up' hup => ?_
  · intro _ _ _
    rw [hversion]
  · exact .ret (writeOK_twins hup.secret _ _ _)

/-- `handleDeleteSecret` -/
theorem oblivious_handleDeleteSecret (p e k : Str) :
    Oblivious C (srv.handleDeleteSecret actor p e k) := by
  apply (obliviousRules.resolveEnv p e).bind
  intro pe
  apply (oblivious_check _).bind
  intro _
  refine (Heedless.transaction ?_).bind fun _ => .pure _
  exact obliviousRules.dropSecret obliviousRules.audit stmts_deliveryEnqueue stmts_secretDelete
    _ _ _

/-! ## Runs -/

/-- The routes of the handlers that get hold of a value. -/
def Route.holdsValue : Route → Bool
  | .putSecret _ _ _ | .rollbackSecret _ _ _ => true
  | _ => false

/-- The other handlers do not look at ciphertexts. -/
theorem oblivious_handle {route : Route} (h : route.holdsValue = false) :
    Oblivious C (srv.handle actor rq route) := by
  cases route with
  | putSecret p e k | rollbackSecret p e k => cases h
  | deleteSecret p e k => exact oblivious_handleDeleteSecret p e k
  | _ =>
    exact obliviousRules.handle_tokens (fun _ _ => (elsewhere_tokenBootstrap _ _).stmts)
      (fun _ _ _ => (elsewhere_tokenCreate _ _ _).stmts)
      (fun _ => (elsewhere_tokenRevoke _).stmts) rfl

/-- Nor do they look at the value of the request. -/
theorem Request.Twins.handle (h : rq.Twins srv.gcm keys rq') {route : Route}
    (hroute : route.holdsValue = false) :
    srv.handle actor rq' route = srv.handle actor rq route := by
  rw [h.same]
  cases route with
  | putSecret p e k => cases hroute
  | rollbackSecret p e k => cases hroute
  | _ => rfl

/-- A request is served the same as its twin, on databases that differ in ciphertexts. -/
theorem paired_serve (hgcm : srv.gcm.Lawful) (h : rq.Twins srv.gcm keys rq') :
    Prog.Paired (Store.Twins (Indistinct srv.gcm keys)) Response.Twins Response.Twins
      (srv.serve rq) (srv.serve rq') := by
  have hauth : srv.authMiddleware rq' = srv.authMiddleware rq := by
    rw [h.same]
    rfl
  have hroute : rq'.route = rq.route := by
    rw [h.same]
    rfl
  unfold serve
  rw [hauth, hroute]
  refine Prog.Paired.bind (obliviousRules.authMiddleware fun _ =>
    (elsewhere_tokenTouch _).stmts) ?_
  rintro actor _ rfl
  cases hholds : rq.route.holdsValue with
  | false =>
    rw [h.handle hholds]
    exact (oblivious_handle hholds).mono fun _ _ heq => congrArg Response.blind heq
  | true =>
    cases hr : rq.route with
    | putSecret p e k => exact paired_handlePutSecret hgcm h p e k
    | rollbackSecret p e k => exact paired_handleRollbackSecret h p e k
    | _ =>
      rw [hr] at hholds
      cases hholds

/-- The response of a request that has ended, early or not. -/
def answered (srv : Server) (proc : Process Request Moment Database) : Option Response :=
  ((srv.serve proc.name).resume proc.past).answer

/-- What shows of a state: the database without the ciphertexts of secrets and versions, and the
responses without the values of secrets. -/
def observe (srv : Server) (s : Shared Request Moment Database) :
    Database × (ℕ → Option Response) :=
  (s.state.blind, fun i => ((s.procs i).bind srv.answered).map Response.blind)

/-- Related states show the same. -/
theorem observe_eq (hgcm : srv.gcm.Lawful) {s t : Shared Request Moment Database}
    (h : Shared.Paired (Store.Twins (Indistinct srv.gcm keys)) (Request.Twins srv.gcm keys) s t) :
    srv.observe s = srv.observe t := by
  refine Prod.ext h.state.blind (funext fun i => ?_)
  refine map_eq_of_rel (R := Response.Twins) (fun _ _ h => h) (rel_bind ?_ (h.procs i))
  intro p q hpq
  exact ((paired_serve hgcm hpq.name).resume hpq.past).answer

/-- Two runs of the same turns with requests that differ in the values that they put show the same
after every turn. -/
theorem observe_run (srv : Server) (hgcm : srv.gcm.Lawful) (keys : Set Str)
    (start : Database → Prop) (db : Database) (turns turns' : List (Turn Request Moment))
    (h : List.Forall₂ (Turn.Paired (Request.Twins srv.gcm keys)) turns turns') (n : ℕ) :
    ((srv.system start).run (turns.take n) ⟨db, fun _ => none⟩).map srv.observe =
      ((srv.system start).run (turns'.take n) ⟨db, fun _ => none⟩).map srv.observe := by
  let empty : Shared Request Moment Database := ⟨db, fun _ => none⟩
  have hstart : Shared.Paired (Store.Twins (Indistinct srv.gcm keys)) (Request.Twins srv.gcm keys)
      empty empty := ⟨.refl (fun _ _ _ => rfl) db, fun _ => .none⟩
  exact map_eq_of_rel (fun _ _ h => observe_eq hgcm h) (interleave.paired_run
    (fun _ _ h => paired_serve hgcm h) hstart (List.forall₂_take n h))

/-! ## To evaluate the model with -/

/-- AES-256-GCM on two values under one key and nonce; on others a cipher that adds an empty tag. -/
def sampleGCM : AEAD where
  sealed key nonce plaintext :=
    if key = plainKey ∧ nonce = List.replicate nonceSize 0 ∧ plaintext = ascii "a" then
      [0, 200, 212, 202, 247, 122, 22, 35, 81, 79, 51, 85, 38, 1, 151, 37, 201]
    else if key = plainKey ∧ nonce = List.replicate nonceSize 0 ∧ plaintext = ascii "b" then
      [3, 33, 233, 37, 3, 166, 14, 29, 13, 208, 236, 149, 154, 252, 219, 68, 103]
    else plaintext ++ List.replicate tagSize 0
  opened _ _ ciphertext :=
    if ciphertext = [0, 200, 212, 202, 247, 122, 22, 35, 81, 79, 51, 85, 38, 1, 151, 37, 201] then
      some (ascii "a")
    else if ciphertext =
      [3, 33, 233, 37, 3, 166, 14, 29, 13, 208, 236, 149, 154, 252, 219, 68, 103] then
      some (ascii "b")
    else some (ciphertext.take (ciphertext.length - tagSize))

/-- The sample opens what it seals. -/
theorem sampleGCM_lawful : sampleGCM.Lawful := by
  have htag : ∀ (plaintext : Str) (t : Str), t.length = 17 → t.drop 1 ≠ List.replicate 16 0 →
      plaintext ++ List.replicate tagSize 0 ≠ t := by
    intro plaintext t hlen hdrop heq
    have hone : plaintext.length = 1 := by
      have hsum := congrArg List.length heq
      rw [List.length_append, List.length_replicate, hlen] at hsum
      exact Nat.add_right_cancel hsum
    apply hdrop
    rw [← heq, ← hone, List.drop_left]
    rfl
  constructor
  · intro key nonce plaintext _ _
    simp only [sampleGCM]
    by_cases ha : key = plainKey ∧ nonce = List.replicate nonceSize 0 ∧ plaintext = ascii "a"
    · rw [if_pos ha, if_pos rfl, ha.2.2]
    rw [if_neg ha]
    by_cases hb : key = plainKey ∧ nonce = List.replicate nonceSize 0 ∧ plaintext = ascii "b"
    · rw [if_pos hb, if_neg (by decide), if_pos rfl, hb.2.2]
    rw [if_neg hb, if_neg (htag _ _ rfl (by decide)), if_neg (htag _ _ rfl (by decide)),
      List.length_append, List.length_replicate, Nat.add_sub_cancel, List.take_left]
  · intro key nonce plaintext
    simp only [sampleGCM]
    split_ifs with ha hb
    · rw [ha.2.2]
      rfl
    · rw [hb.2.2]
      rfl
    · rw [List.length_append, List.length_replicate]

/-- A server with that cipher. -/
def sampleServer : Server := { plainServer with gcm := sampleGCM }

/-- The key `k` is put with two values, one after the other, and rolled back to the first. -/
def putTwice (first second : String) : List (Turn Request Moment) :=
  setUp ++
    atOnce 3 (bearerRequest .put keyPath { noFields with value := some (ascii first) }) 5 13 ++
    atOnce 4 (bearerRequest .put keyPath { noFields with value := some (ascii second) }) 5 14 ++
    atOnce 5 (bearerRequest .post (keyPath ++ ["rollback"])
      { noFields with targetVersion := some 1 }) 7 15

/-- Requests with one bearer and key that differ in the value that they put. -/
theorem bearerRequest_twins (gcm : AEAD) (method : Method) (path : List String)
    {body body' : RequestBody} (hsame : body' = { body with value := body'.value })
    (hdecoded : body.value.isSome = body'.value.isSome) :
    (bearerRequest method path body).Twins gcm {plainKey} (bearerRequest method path body') where
  same := congrArg (bearerRequest method path) hsame
  decoded := hdecoded
  key key hkey := (Option.some.inj hkey).symm
  nonce nonce hnonce := by
    rw [← Option.some.inj hnonce]
    rfl
  authentic value _ key hkey nonce _ other hother hne :=
    absurd (hother.trans (Option.some.inj hkey)) hne

/-- Requests that are taken at once. -/
theorem forall₂_atOnce {N : Request → Request → Prop} (h : N rq rq') (i actions : ℕ) (now : Int) :
    List.Forall₂ (Turn.Paired N) (atOnce i rq actions now) (atOnce i rq' actions now) := by
  refine .cons (.arrive i h) (List.forall₂_same.mpr fun turn hturn => ?_)
  rw [List.eq_of_mem_replicate hturn]
  exact .advance i _

/-- The values that are put twice may be exchanged. -/
theorem putTwice_paired (gcm : AEAD) (first second first' second' : String) :
    List.Forall₂ (Turn.Paired (Request.Twins gcm {plainKey})) (putTwice first second)
      (putTwice first' second') := by
  have htwins : ∀ method path body, (bearerRequest method path body).Twins gcm {plainKey}
      (bearerRequest method path body) :=
    fun method path body => bearerRequest_twins gcm method path rfl rfl
  have hput : ∀ value value', (bearerRequest .put keyPath
      { noFields with value := some (ascii value) }).Twins gcm {plainKey}
      (bearerRequest .put keyPath { noFields with value := some (ascii value') }) :=
    fun value value' => bearerRequest_twins gcm .put keyPath rfl rfl
  refine List.rel_append (List.rel_append (List.rel_append (List.rel_append (List.rel_append
    ?_ ?_) ?_) ?_) ?_) ?_
  · exact forall₂_atOnce (htwins _ _ _) _ _ _
  · exact forall₂_atOnce (htwins _ _ _) _ _ _
  · exact forall₂_atOnce (htwins _ _ _) _ _ _
  · exact forall₂_atOnce (hput _ _) _ _ _
  · exact forall₂_atOnce (hput _ _) _ _ _
  · exact forall₂_atOnce (htwins _ _ _) _ _ _

/-- Two runs that put two values in different orders and roll back go through, and show the
same. -/
theorem observe_run_putTwice :
    sampleGCM.Lawful ∧ List.Forall₂ (Turn.Paired (Request.Twins sampleGCM {plainKey}))
      (putTwice "a" "b") (putTwice "b" "a") ∧
    ((sampleServer.system (· = .empty)).run (putTwice "a" "b")
      ⟨.empty, fun _ => none⟩).any (fun s => s.state.secretVersions.rows.length == 3) = true ∧
    ∀ n, ((sampleServer.system (· = .empty)).run ((putTwice "a" "b").take n)
        ⟨.empty, fun _ => none⟩).map sampleServer.observe =
      ((sampleServer.system (· = .empty)).run ((putTwice "b" "a").take n)
        ⟨.empty, fun _ => none⟩).map sampleServer.observe :=
  ⟨sampleGCM_lawful, putTwice_paired _ _ _ _ _, by decide +kernel,
    observe_run sampleServer sampleGCM_lawful {plainKey} (· = .empty) .empty _ _
      (putTwice_paired sampleGCM "a" "b" "b" "a")⟩

end Comax.Server
