import Comax.Server.Evolution
import Comax.Store.Tokens

/-!
# A deployment keeps its admin

Any number of server processes start on one database file, each with a migration, and
serve requests. Their statements and transactions take turns in any order, and any of
them may fail. Only a request of an admin creates or revokes a token, and an admin
stays one; so a migrated deployment that has a token has a live admin.
-/

namespace Comax.Server

open Comax.Core Comax.Store

/-- `autoBootstrap`, at the start of a server process; the inputs draw the token. -/
def autoBootstrap (srv : Server) (rq : Request) : Handler Unit := do
  let n ← autocommitOr storeError (Tx.read fun _ db => .ok db.serviceTokens.rows.length)
  if n > 0 then return ()
  else
    let _ ← srv.handleBootstrap rq
    return ()

/-- What works on the database file. -/
inductive Job where
  | migrate
  | autoBootstrap (rq : Request)
  | serve (rq : Request)

/-- How a job ends. -/
inductive Finish where
  | migrated (r : Except MigrateError Unit)
  | bootstrapped
  | answered (r : Response)

/-- A migration that did not fail. -/
def Finish.hasMigrated : Finish → Bool
  | .migrated (.ok _) => true
  | _ => false

/-- A handler on the file. A statement that needs a missing table or column fails. -/
def onFile {α : Type} (p : Handler α) : Prog Stored Moment Response α :=
  p.within Stored.db Stored.put internalError

/-- The program of a job. -/
def job (srv : Server) : Job → Prog Stored Moment Response Finish
  | .migrate => do return .migrated (← migrate)
  | .autoBootstrap rq => do
    let _ ← onFile (srv.autoBootstrap rq)
    return .bootstrapped
  | .serve rq => do return .answered (← onFile (srv.serve rq))

/-- An empty file. -/
structure Fresh (st : Stored) : Prop where
  tables : st.catalog.tables = []
  columns : st.catalog.columns = []

/-- A file from before tokens had rights. -/
structure PreM3 (st : Stored) : Prop where
  table : .serviceTokens ∈ st.catalog.tables
  isAdmin : .isAdmin ∉ st.catalog.columns
  revokedAt : .revokedAt ∉ st.catalog.columns

/-- A migrated file with a live admin or without a token. -/
structure Migrated (st : Stored) : Prop where
  tables : ∀ t, t ∈ st.catalog.tables
  columns : ∀ c, c ∈ st.catalog.columns
  admin : st.db.serviceTokens.rows = [] ∨ LiveAdmin st.db.serviceTokens

/-- The running deployment. -/
def deployment (srv : Server) : Machine (Shared Job Moment Stored) (Turn Job Moment) :=
  interleave srv.job fun st => Fresh st ∨ PreM3 st ∨ Migrated st

/-- A migration has run to its end without an error. -/
def Completed (srv : Server) (s : Shared Job Moment Stored) : Prop :=
  ∃ i p, s.procs i = some p ∧ (srv.job p.name).resume p.past = .ret (.migrated (.ok ()))

/-- An admin stays an admin. -/
def KeepsAdmin (db db' : Database) : Prop :=
  HasAdmin db.serviceTokens → HasAdmin db'.serviceTokens

/-- One action of a request, read off the tokens. -/
def StepsTokens (db db' : Database) : Prop := TokenStep db.serviceTokens db'.serviceTokens

variable {srv : Server} {rq : Request} {actor : Option ServiceToken} {db : Database}
  {L R : Database → Database → Prop}

theorem KeepsAdmin.refl (db : Database) : KeepsAdmin db db := fun h => h

theorem KeepsAdmin.trans (x y z : Database) (h : KeepsAdmin x y) (h' : KeepsAdmin y z) :
    KeepsAdmin x z := fun hx => h' (h hx)

theorem StepsTokens.refl (db : Database) : StepsTokens db db := .kept rfl

/-- Tokens carried over keep their rights. -/
theorem KeepsAdmin.of_later {db db' : Database} (h : Later db db') : KeepsAdmin db db' := by
  rintro ⟨t, ht, hadmin⟩
  obtain ⟨t', ht', hsame⟩ := h.serviceTokens t ht
  exact ⟨t', ht', hsame.isAdmin.trans hadmin⟩

/-! ## The handlers -/

/-- The statements on other tables leave the tokens alone. -/
theorem sameTokens : Writes fun db db' => db'.serviceTokens = db.serviceTokens :=
  (Ordinary.of_untouched (fun _ _ _ h h' => h'.trans h) fun _ _ h => h.serviceTokens).writes
    (fun _ _ => rfl) (fun _ _ => rfl) fun _ _ => rfl

/-- The audit entry at the end of a transaction on the tokens. -/
theorem wp_appendAudit_tokens {refuse : Response} {action target : Str} {s : Session}
    (h : StepsTokens db s.db) :
    wp (appendAudit refuse actor action target) s (fun _ s' => StepsTokens db s'.db)
      fun _ => True := by
  refine wp_mono (sameTokens.appendAudit refuse action target s) ?_ fun _ he => he
  intro _ s' hs'
  unfold StepsTokens at h ⊢
  rw [hs']
  exact h

/-- A bootstrap inserts the first token, a live admin. -/
theorem every_bootstrap : (srv.handleBootstrap rq).Every StepsTokens := by
  apply (every_need _ _).bind
  intro plain
  refine (every_transaction StepsTokens.refl fun o db => ?_).bind fun _ => trivial
  rw [wp_bind]
  apply Tx.wp_stmt
  intro now r d hboot
  cases r with
  | none => trivial
  | some tok =>
    rcases TokenRepo.bootstrapIfEmpty_eq_ok hboot with ⟨hnone, -⟩ | ⟨hempty, t, -, hins, rfl⟩
    · cases hnone
    · have hrows := (Table.insert_eq_some.mp hins).2
      rw [hempty] at hrows
      rw [wp_bind]
      apply Tx.wp_stmt
      intro now' e d' haudit
      have htokens : d'.serviceTokens = t := sameTokens.audit _ _ _ _ _ _ _ _ haudit
      rw [← htokens] at hrows
      exact .bootstrapped hempty rfl rfl hrows

/-- An admin that passes `requireAdmin` is in the table. -/
theorem meets_requireAdmin
    (hactor : ∀ tok, actor = some tok → tok.isAdmin = true → HasAdmin db.serviceTokens) :
    (requireAdmin actor).Meets L R db fun _ db' => HasAdmin db'.serviceTokens := by
  cases actor with
  | none => trivial
  | some tok =>
    rw [requireAdmin]
    split
    · rename_i hadmin
      exact hactor tok rfl hadmin
    · trivial

/-- A token is created by an admin and is none. -/
theorem meets_createToken
    (hactor : ∀ tok, actor = some tok → tok.isAdmin = true → HasAdmin db.serviceTokens) :
    (srv.handleCreateToken actor rq).Meets KeepsAdmin StepsTokens db fun _ _ => True := by
  apply Prog.Meets.bind
  refine (meets_requireAdmin hactor).mono fun _ db hadmin => ?_
  apply Prog.meets_lift_bind
  intro name _
  apply Prog.meets_lift_bind
  intro _ _
  apply Prog.meets_lift_bind
  intro plain _
  apply Prog.Meets.bind
  refine (meets_transaction StepsTokens.refl fun o db' hl => ?_).mono fun _ _ _ => trivial
  rw [wp_bind]
  apply Tx.wp_stmt
  intro now t d hcreate
  obtain ⟨rfl, ts, hins, rfl⟩ := TokenRepo.create_eq_ok hcreate
  have hstep : StepsTokens db' { db' with serviceTokens := ts } :=
    .created (hl hadmin) rfl (Table.insert_eq_some.mp hins).2
  rw [wp_bind]
  exact wp_appendAudit_tokens hstep

/-- A revocation with its audit entry is a step of the tokens, if it leaves an admin. -/
theorem wp_revoke_tokens {targetID : Int} {s : Session} (hadmin : HasAdmin s.db.serviceTokens)
    (hguard : ∀ t ∈ s.db.serviceTokens.rows, t.id = targetID → t.isAdmin = true →
      t.revokedAt = none → 1 < TokenRepo.countLiveAdmins s.db) :
    wp (do
      let _ ← Tx.stmt storeError (TokenRepo.revoke targetID)
      appendAudit (internal "audit failed") actor (ascii "auth.token.revoke")
        (ascii "token_id=" ++ formatInt targetID)) s
      (fun _ s' => StepsTokens s.db s'.db) fun _ => True := by
  rw [wp_bind]
  apply Tx.wp_stmt
  intro now _ d h
  have hrows : d.serviceTokens.rows = s.db.serviceTokens.rows.map fun t =>
      if t.id = targetID && t.revokedAt = none then { t with revokedAt := some now } else t := by
    rw [TokenRepo.revoke_eq_ok h, Table.rows_update]
  exact wp_appendAudit_tokens (.revoked hadmin hguard hrows)

/-- A token is revoked by an admin, and not the last live one. -/
theorem meets_revokeToken (id : Str)
    (hactor : ∀ tok, actor = some tok → tok.isAdmin = true → HasAdmin db.serviceTokens) :
    (handleRevokeToken actor id).Meets KeepsAdmin StepsTokens db fun _ _ => True := by
  apply Prog.Meets.bind
  refine (meets_requireAdmin hactor).mono fun _ db hadmin => ?_
  apply Prog.meets_lift_bind
  intro targetID _
  apply Prog.Meets.bind
  refine (meets_transaction StepsTokens.refl fun o db' hl => ?_).mono fun _ _ _ => trivial
  rw [wp_bind]
  apply Tx.wp_stmt
  intro now target d hread
  obtain ⟨hfound, rfl⟩ := Tx.read_eq_ok.mp hread
  obtain ⟨hmem, hid⟩ := Table.of_find?_eq_some (found_eq_ok.mp hfound)
  have htarget : ∀ t ∈ d.serviceTokens.rows, t.id = targetID → t = target := fun t ht hid' =>
    d.serviceTokens.eq_of_id_eq ht hmem (hid'.trans (of_decide_eq_true hid).symm)
  split
  · rw [wp_bind]
    apply Tx.wp_stmt
    intro now liveAdmins d' hread
    obtain ⟨hcount, rfl⟩ := Tx.read_eq_ok.mp hread
    cases hcount
    split
    · trivial
    · rename_i hmany
      exact wp_revoke_tokens (hl hadmin) fun _ _ _ _ _ => Nat.lt_of_not_le hmany
  · rename_i hplain
    refine wp_revoke_tokens (hl hadmin) fun t ht hid hadmin hlive => ?_
    rw [htarget t ht hid] at hadmin hlive
    exact absurd (by simp [hadmin, hlive]) hplain

/-! ## Authentication -/

/-- The bump of `last_used_at` leaves the rights alone. -/
theorem respects_touch (id : Int) : Tx.Respects StepsTokens (TokenRepo.touchLastUsed id) := by
  intro now db u db' h
  rw [TokenRepo.touchLastUsed_eq_ok h]
  refine .kept ?_
  rw [Table.rows_update, List.map_map]
  refine List.map_congr_left fun t _ => ?_
  rw [Function.comp]
  split <;> rfl

/-- What the lookup of a bearer returns is in the table. -/
theorem meets_verify {plain : Str} :
    (srv.verify plain).Meets KeepsAdmin StepsTokens db fun r db' =>
      ∀ tok, r = .ok tok → tok ∈ db'.serviceTokens.rows := by
  rw [verify]
  split
  · exact fun tok h => by cases h
  · apply Prog.Meets.bind
    apply meets_read StepsTokens.refl
    · intro now db' found _ hfound
      obtain ⟨hmem, -⟩ := Table.of_find?_eq_some (found_eq_ok.mp hfound)
      dsimp only
      split
      · intro tok h
        cases h
        exact hmem
      · exact fun tok h => by cases h
    · intro e db' _
      cases e <;> exact fun tok h => by cases h

/-- An admin that the bearer arm stamps on a request is in the table. -/
theorem meets_authBearer (header : Str) :
    (srv.authBearer header).Meets KeepsAdmin StepsTokens db fun tok db' =>
      tok.isAdmin = true → HasAdmin db'.serviceTokens := by
  apply Prog.meets_lift_bind
  intro plain _
  apply Prog.Meets.bind
  refine meets_verify.mono fun r db hr => ?_
  apply Prog.meets_lift_bind
  intro tok htok
  have hmem : tok ∈ db.serviceTokens.rows := by
    cases r with
    | error e => cases htok
    | ok tok' =>
      cases htok
      exact hr tok rfl
  have htouch : (autocommit (TokenRepo.touchLastUsed tok.id) : Handler _).Every StepsTokens :=
    every_autocommit StepsTokens.refl (respects_touch tok.id)
  apply Prog.Meets.bind
  refine (htouch.meets_later (htouch.mono fun _ _ h => h.hasAdmin) KeepsAdmin.refl
    KeepsAdmin.trans).mono fun _ db' hl hadmin => ?_
  exact hl ⟨tok, hmem, hadmin⟩

/-- An admin that the session arm stamps on a request is in the table. -/
theorem meets_authSession :
    (srv.authSession rq).Meets KeepsAdmin StepsTokens db fun tok db' =>
      tok.isAdmin = true → HasAdmin db'.serviceTokens := by
  apply Prog.Meets.bind
  apply meets_lookup StepsTokens.refl
  intro now db sess _ _
  split
  · trivial
  · apply Prog.Meets.bind
    apply meets_lookup StepsTokens.refl
    intro _ db' tok _ hfound
    obtain ⟨hmem, -⟩ := Table.of_find?_eq_some (found_eq_ok.mp hfound)
    split
    · exact fun hadmin => ⟨tok, hmem, hadmin⟩
    · trivial

/-- An admin that the middleware stamps on a request is in the table. -/
theorem meets_authMiddleware :
    (srv.authMiddleware rq).Meets KeepsAdmin StepsTokens db fun actor db' =>
      ∀ tok, actor = some tok → tok.isAdmin = true → HasAdmin db'.serviceTokens := by
  have hsome : ∀ {p : Handler ServiceToken},
      p.Meets KeepsAdmin StepsTokens db (fun tok db' =>
        tok.isAdmin = true → HasAdmin db'.serviceTokens) →
      (p >>= fun tok => pure (some tok)).Meets KeepsAdmin StepsTokens db fun actor db' =>
        ∀ tok, actor = some tok → tok.isAdmin = true → HasAdmin db'.serviceTokens := by
    intro p hp
    apply Prog.Meets.bind
    refine hp.mono fun tok db' h tok' hsame => ?_
    cases hsame
    exact h
  rw [authMiddleware]
  split
  · exact fun tok h => by cases h
  · split
    · exact hsome (meets_authBearer _)
    · split
      · exact hsome meets_authSession
      · trivial

/-! ## A request -/

/-- Every action of a request steps the tokens. -/
theorem meets_serve_tokens : (srv.serve rq).Meets KeepsAdmin StepsTokens db fun _ _ => True := by
  apply Prog.Meets.bind
  refine meets_authMiddleware.mono fun actor db hactor => ?_
  cases hroute : rq.route with
  | bootstrap => exact every_bootstrap.meets
  | createToken => exact meets_createToken hactor
  | revokeToken id => exact meets_revokeToken id hactor
  | _ =>
    refine Prog.Every.meets ((sameTokens.handle rfl).mono fun db db' h => .kept ?_)
    rw [h]

/-! ## The deployment -/

/-- One action of a job, read off the tokens. -/
def FileStep (st st' : Stored) : Prop :=
  StepsTokens st.db st'.db ∨ st'.db.serviceTokens = promoteFirst st.db.serviceTokens

variable {st st' : Stored} {K : Stored → Stored → Prop}

namespace FileStep

theorem refl (st : Stored) : FileStep st st := .inl (.refl st.db)

/-- A statement that leaves the rows alone. -/
theorem of_db (h : st'.db = st.db) : FileStep st st' := by
  refine .inl ?_
  rw [h]
  exact .refl st.db

theorem keepsAdmin (h : FileStep st st') : KeepsAdmin st.db st'.db := by
  rcases h with h | h
  · exact h.hasAdmin
  · intro hadmin
    rw [h, promoteFirst_of_hasAdmin hadmin]
    exact hadmin

theorem sound (h : FileStep st st') (hs : Sound st.db.serviceTokens) :
    Sound st'.db.serviceTokens := by
  rcases h with h | h
  · exact h.sound hs
  · rw [h]
    exact sound_promoteFirst hs

theorem ready (h : FileStep st st') (hready : Ready st.db.serviceTokens) :
    Ready st'.db.serviceTokens := by
  rcases h with h | h
  · exact h.ready hready
  · rw [h]
    exact ready_promoteFirst _

end FileStep

/-- A statement of the migration. -/
theorem every_exec {stmt : Stored → Except ExecError Stored}
    (h : ∀ st st', stmt st = .ok st' → FileStep st st') :
    (exec stmt : Prog Stored Moment Response _).Every FileStep := by
  apply Prog.every_act
  intro o st
  split
  · exact .refl st
  · split
    · rename_i st' hst
      exact h st st' hst
    · exact .refl st

/-- Creating the tables leaves the rows alone. -/
theorem every_applySchema (cs : List Create) :
    (applySchema cs : Prog Stored Moment Response _).Every FileStep := by
  induction cs with
  | nil => trivial
  | cons c cs ih =>
    refine (every_exec fun st st' h => ?_).bind fun r => ?_
    · cases h
      exact .of_db (c.db_apply st)
    · cases r with
      | ok _ => exact ih
      | error e => trivial

/-- Adding the columns leaves the rows alone. -/
theorem every_addColumns (cs : List Column) :
    (addColumns cs : Prog Stored Moment Response _).Every FileStep := by
  induction cs with
  | nil => trivial
  | cons c cs ih =>
    refine (every_exec fun st st' h => .of_db (Column.db_add h)).bind fun r => ?_
    rcases r with e | _
    · cases e with
      | duplicateColumn => exact ih
      | other => trivial
    · exact ih

/-- The backfill promotes a token or leaves the tokens alone. -/
theorem every_adminBackfill : (exec adminBackfill : Prog Stored Moment Response _).Every FileStep :=
  every_exec fun st st' h => .inr (by rw [adminBackfill_eq_ok h])

/-- The statements of a migration. -/
theorem every_migrate : (migrate : Prog Stored Moment Response _).Every FileStep := by
  apply (every_applySchema _).bind
  intro r
  cases r with
  | error e => trivial
  | ok _ =>
    apply (every_addColumns _).bind
    intro r
    cases r with
    | error e => trivial
    | ok _ =>
      apply every_adminBackfill.bind
      intro r
      cases r <;> trivial

/-- A backfill that goes through leaves no table of tokens without an admin. -/
theorem meets_adminBackfill : (exec adminBackfill : Prog Stored Moment Response _).Meets K FileStep
    st fun r st' => r = .ok () → Ready st'.db.serviceTokens := by
  apply Prog.meets_act
  intro o st _
  refine ⟨every_adminBackfill.1 o st, fun r hr hok => ?_⟩
  cases hok
  split at hr
  · cases hr
  · split at hr
    · rename_i hfail _ st' hst
      simp only [hfail, Bool.false_eq_true, if_false, adminBackfill_eq_ok hst]
      exact ready_promoteFirst _
    · cases hr

/-- A migration that completes leaves no table of tokens without an admin. -/
theorem meets_migrate : (migrate : Prog Stored Moment Response _).Meets K FileStep st fun r st' =>
    r = .ok () → Ready st'.db.serviceTokens := by
  apply Prog.Meets.bind
  refine (every_applySchema _).meets.mono fun r st _ => ?_
  cases r with
  | error e => exact fun h => by cases h
  | ok _ =>
    apply Prog.Meets.bind
    refine (every_addColumns _).meets.mono fun r st _ => ?_
    cases r with
    | error e => exact fun h => by cases h
    | ok _ =>
      apply Prog.Meets.bind
      refine meets_adminBackfill.mono fun r st h => ?_
      cases r with
      | error e => exact fun h => by cases h
      | ok _ => exact fun _ => h rfl

/-- A handler on the file does what it does on the database. -/
theorem meets_onFile {α : Type} {p : Handler α}
    (h : p.Meets KeepsAdmin StepsTokens st.db fun _ _ => True) :
    (onFile p).Meets (fun x y => KeepsAdmin x.db y.db) (fun x y => StepsTokens x.db y.db) st
      fun _ _ => True :=
  h.within (fun _ _ _ => Stored.db_put) StepsTokens.refl

/-- The start of a server process bootstraps as a request does. -/
theorem every_autoBootstrap : (srv.autoBootstrap rq).Every StepsTokens := by
  apply (every_lookup StepsTokens.refl).bind
  intro n
  split
  · trivial
  · exact every_bootstrap.bind fun _ => trivial

/-- Every action of a job other than a migration steps the tokens, and it does not end like a
completed migration. -/
theorem meets_request {j : Job} (hj : j ≠ .migrate) :
    (srv.job j).Meets (fun x y => KeepsAdmin x.db y.db) (fun x y => StepsTokens x.db y.db) st
      fun f _ => f ≠ .migrated (.ok ()) := by
  cases j with
  | migrate => exact absurd rfl hj
  | autoBootstrap rq =>
    apply Prog.Meets.bind
    exact (meets_onFile every_autoBootstrap.meets).mono fun _ _ _ h => by cases h
  | serve rq =>
    apply Prog.Meets.bind
    exact (meets_onFile meets_serve_tokens).mono fun _ _ _ h => by cases h

/-- What the actions of a job do, and what a completed migration leaves behind. -/
theorem meets_job (j : Job) (st : Stored) :
    (srv.job j).Meets (fun x y => KeepsAdmin x.db y.db) FileStep st fun f st' =>
      f = .migrated (.ok ()) → Ready st'.db.serviceTokens := by
  by_cases hj : j = .migrate
  · rw [hj]
    apply Prog.Meets.bind
    refine meets_migrate.mono fun r st' h hr => ?_
    cases hr
    exact h rfl
  · exact ((meets_request hj).imp fun _ _ => .inl).mono fun f st' hne hf => absurd hf hne

/-- Every job keeps an admin. -/
theorem every_job (j : Job) : (srv.job j).Every fun x y => KeepsAdmin x.db y.db := by
  have hfile : ∀ {α : Type} {p : Handler α}, p.Every StepsTokens →
      (onFile p).Every fun x y => KeepsAdmin x.db y.db := fun h =>
    (h.mono fun _ _ h => h.hasAdmin).within (fun _ _ _ => Stored.db_put) KeepsAdmin.refl
  cases j with
  | migrate => exact (every_migrate.mono fun _ _ h => h.keepsAdmin).bind fun _ => trivial
  | autoBootstrap rq => exact (hfile every_autoBootstrap).bind fun _ => trivial
  | serve rq =>
    have hserve : (srv.serve rq).Every KeepsAdmin :=
      (Later.serve srv rq).mono fun _ _ => KeepsAdmin.of_later
    exact (hserve.within (fun _ _ _ => Stored.db_put) KeepsAdmin.refl).bind fun _ => trivial

section

variable {s s' s₀ : Shared Job Moment Stored} (h : (deployment srv).Reachable s)
include h

/-- An action of a job in a run. -/
theorem fileStep_of_next {l : Turn Job Moment} (hn : (deployment srv).next l s = some s') :
    FileStep s.state s'.state := by
  cases l with
  | arrive i name =>
    obtain ⟨-, rfl⟩ := interleave.next_arrive hn
    exact .refl _
  | advance i o =>
    obtain ⟨p, β, t, k, hp, -, -⟩ := interleave.next_advance hn
    exact interleave.advance_meets every_job (fun _ => KeepsAdmin.refl _)
      (fun _ _ _ => KeepsAdmin.trans _ _ _) h hp (meets_job p.name) hn

/-- What holds of the tokens at any time. -/
theorem sound_of_reachable : Sound s.state.db.serviceTokens := by
  refine h.invariant (I := fun s => Sound s.state.db.serviceTokens) ?_ ?_
  · rintro s ⟨hfresh | hpre | hmigrated, -⟩
    · exact sound_of_nil (s.state.holds.tables .serviceTokens (by rw [hfresh.tables]; simp))
    · refine ⟨?_, fun _ => s.state.holds.columns .revokedAt hpre.revokedAt⟩
      rintro ⟨t, ht, hadmin⟩
      rw [s.state.holds.columns .isAdmin hpre.isAdmin t ht] at hadmin
      cases hadmin
    · rcases hmigrated.admin with hempty | hlive
      · exact sound_of_nil hempty
      · exact hlive.sound
  · intro s l s' hr ih _ hn
    exact (fileStep_of_next hr hn).sound ih

/-- Once a migration has completed, the tokens are ready. -/
theorem ready_of_completed : Completed srv s → Ready s.state.db.serviceTokens := by
  refine h.invariant (I := fun s => Completed srv s → Ready s.state.db.serviceTokens) ?_ ?_
  · rintro s hs ⟨i, p, hp, -⟩
    rw [hs.2 i] at hp
    cases hp
  · rintro s l s' hr ih _ hn ⟨i, q, hq, hret⟩
    rcases interleave.returns_meets every_job (fun _ => KeepsAdmin.refl _)
      (fun _ _ _ => KeepsAdmin.trans _ _ _) meets_job hr hn hq hret with hsame | hready
    · exact (fileStep_of_next hr hn).ready (ih ⟨i, q, hsame, hret⟩)
    · exact hready rfl

omit h

/-- Tokens that are ready stay so. -/
theorem ready_of_leads (h₀ : (deployment srv).Reachable s₀)
    (hready : Ready s₀.state.db.serviceTokens)
    (hl : (deployment srv).Leads (fun _ _ => True) s₀ s) : Ready s.state.db.serviceTokens := by
  refine hl.preorder (R := fun s s' => Ready s.state.db.serviceTokens →
    Ready s'.state.db.serviceTokens) (fun _ h => h) ?_ ?_ h₀ hready
  · intro s₁ s₂ s₃ h h' hs
    exact h' (h hs)
  · intro s l s' hr _ hn
    exact (fileStep_of_next hr hn).ready

/-- From every start, in every order of migrations, bootstraps and requests, whatever fails: a
migrated deployment that has a token has a live admin, and no action of a request escalates a
token. -/
theorem admin_continuity (srv : Server) {s₀ s : Shared Job Moment Stored}
    (hstart : (deployment srv).start s₀)
    (hl : (deployment srv).Leads (fun _ _ => True) s₀ s) :
    (Migrated s₀.state ∨ Completed srv s → s.state.db.serviceTokens.rows ≠ [] →
        LiveAdmin s.state.db.serviceTokens) ∧
      ∀ i o p s', s.procs i = some p → p.name ≠ .migrate →
        (deployment srv).next (.advance i o) s = some s' →
        NoEscalation s.state.db.serviceTokens s'.state.db.serviceTokens := by
  have h₀ : (deployment srv).Reachable s₀ := .start hstart
  have h : (deployment srv).Reachable s := Machine.Reach.leads h₀ hl
  refine ⟨fun hmigrated hne => ?_, fun i o p s' hp hj hn => ?_⟩
  · have hready : Ready s.state.db.serviceTokens := by
      rcases hmigrated with hmigrated | hcompleted
      · exact ready_of_leads h₀ (hmigrated.admin.imp_right LiveAdmin.hasAdmin) hl
      · exact ready_of_completed h hcompleted
    exact (sound_of_reachable h).live (hready.resolve_left hne)
  · have hstep : StepsTokens s.state.db s'.state.db :=
      interleave.advance_meets every_job (fun _ => KeepsAdmin.refl _)
        (fun _ _ _ => KeepsAdmin.trans _ _ _) h hp (fun _ => meets_request hj) hn
    exact hstep.noEscalation

end

/-- A file of the first release, with one token. -/
def firstRelease : Stored where
  catalog := ⟨[.projects, .environments, .secrets, .secretVersions, .serviceTokens, .auditLog], []⟩
  db := { Database.empty with
    serviceTokens := ⟨[⟨1, ascii "ci", ascii "t", false, 5, none, none⟩], by decide⟩ }
  holds := by decide

/-- The file is migrated, and its token issues another one. -/
def upgrade : List (Turn Job Moment) :=
  let rq := bearerRequest .post ["api", "v1", "tokens"] { noFields with name := some (ascii "new") }
  .arrive 0 .migrate :: List.replicate 19 (.advance 0 (.calm 9)) ++
    .arrive 1 (.serve { rq with inputs.token := some (ascii "u") }) ::
      List.replicate 3 (.advance 1 (.calm 10))

/-- The migration has made the token an admin, and the request has created another one. -/
theorem admin_continuity_upgrade : ∃ s,
    (deployment plainServer).run upgrade ⟨firstRelease, fun _ => none⟩ = some s ∧
      s.state.db.serviceTokens.rows.length = 2 ∧ LiveAdmin s.state.db.serviceTokens := by
  have hrun : ((deployment plainServer).run upgrade ⟨firstRelease, fun _ => none⟩).any (fun s =>
      (s.procs 0).any (fun p =>
        ((plainServer.job p.name).resume p.past).returned.any Finish.hasMigrated) &&
      s.state.db.serviceTokens.rows.length = 2) = true := by
    decide +kernel
  obtain ⟨s, hs, htest⟩ := (Option.any_eq_true _ _).mp hrun
  rw [Bool.and_eq_true, decide_eq_true_eq] at htest
  obtain ⟨hended, htwo⟩ := htest
  have hcompleted : Completed plainServer s := by
    obtain ⟨p, hp, hended⟩ := (Option.any_eq_true _ _).mp hended
    obtain ⟨r, hret, hended⟩ := (Option.any_eq_true _ _).mp hended
    cases r with
    | migrated r =>
      cases r with
      | ok u => exact ⟨0, p, hp, Prog.returned_eq_some.mp hret⟩
      | error e => cases hended
    | bootstrapped => cases hended
    | answered r => cases hended
  have hstart : (deployment plainServer).start ⟨firstRelease, fun _ => none⟩ :=
    ⟨.inr (.inl ⟨by decide, by decide, by decide⟩), fun _ => rfl⟩
  refine ⟨s, hs, htwo, ?_⟩
  refine (admin_continuity plainServer hstart (.of_run (Machine.along_true _ _) hs)).1
    (.inr hcompleted) fun hempty => ?_
  rw [hempty] at htwo
  cases htwo

end Comax.Server
