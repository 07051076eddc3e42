import Comax.Server.Evolution

/-!
# The authentication gate

What a request has shown when the middleware lets it through, and that a revoked
token lets no later request through. The second fact needs nothing about sessions:
both arms read the row of the token after the request has arrived.
-/

namespace Comax.Server

open Comax.Core Comax.Store

/-- A path under `/api/` that is not one of the two public ones. -/
structure Guarded (rq : Request) : Prop where
  api : ascii "/api/" <+: rq.path
  bootstrap : rq.path ≠ ascii "/api/v1/bootstrap"
  session : rq.path ≠ ascii "/api/v1/dashboard/session"

/-- A lookup found the token unrevoked. -/
def LiveAt (tok : ServiceToken) (x : Moment × Database) : Prop :=
  tok ∈ x.2.serviceTokens.rows ∧ tok.revokedAt = none

/-- The request carries the token in its `Authorization` header. -/
structure ByBearer (srv : Server) (rq : Request) (tok : ServiceToken) (x : Moment × Database) :
    Prop where
  header : rq.authorization ≠ []
  bearer : ∃ plain, parseBearer rq.authorization = .ok plain ∧ srv.hash plain = tok.tokenHash
  live : LiveAt tok x

/-- The cookie of the request names a live session of the token, looked up at `x`, and the
token was looked up at `y`. -/
structure BySession (srv : Server) (rq : Request) (tok : ServiceToken)
    (x y : Moment × Database) : Prop where
  header : rq.authorization = []
  session : ∃ sess ∈ x.2.dashboardSessions.rows, sess.sessionHash = srv.hash rq.cookie ∧
    sess.revokedAt = none ∧ x.1.now 0 < sess.expiresAt ∧ sess.tokenID = tok.id ∧
    (rq.method ∈ [.post, .put, .patch, .delete] → srv.hash rq.csrfToken = sess.csrfHash)
  live : LiveAt tok y

/-- What a request has shown that passed the middleware with the databases it met. -/
inductive Admitted (srv : Server) (rq : Request) (tok : ServiceToken) :
    List (Moment × Database) → Prop
  | bearer {x y} (h : ByBearer srv rq tok x) : Admitted srv rq tok [x, y]
  | session {x y} (h : BySession srv rq tok x y) : Admitted srv rq tok [x, y]

/-- The middleware has let a request through to its handler, with the token it stamped. -/
def Passed (srv : Server) (p : Process Request Moment Database) (actor : Option ServiceToken) :
    Prop :=
  ∃ met, met <+: p.past ∧ (srv.authMiddleware p.name).Ends met actor

/-- A check that goes through meets nothing. -/
theorem ends_check {α : Type} {m : Except Failure α} {xs : List (Moment × Database)} {a : α}
    (h : (check m).Ends xs a) : xs = [] ∧ m = .ok a := by
  obtain ⟨hxs, hm⟩ := h.of_lift
  refine ⟨hxs, ?_⟩
  cases m with
  | ok b =>
    cases hm
    rfl
  | error e => cases hm

/-- A verified token is unrevoked at the lookup and has the hash of the bearer. -/
theorem ends_verify {srv : Server} {plain : Str} {xs : List (Moment × Database)}
    {tok : ServiceToken} (h : (srv.verify plain).Ends xs (.ok tok)) :
    ∃ x, xs = [x] ∧ srv.hash plain = tok.tokenHash ∧ LiveAt tok x := by
  unfold verify at h
  split at h
  · cases h
  · obtain ⟨ys, zs, r, rfl, hact, hend⟩ := h.of_bind
    obtain ⟨x, rfl, hx⟩ := hact.of_act
    split at hend
    · cases hend
    · cases hend
    · rename_i found
      split at hend
      · cases hend
        have hfind := found_eq_ok.mp (single_read hx)
        obtain ⟨hmem, hprop⟩ := Table.of_find?_eq_some hfind
        simp only [Bool.and_eq_true, decide_eq_true_eq] at hprop
        exact ⟨x, rfl, hprop.1.symm, hmem, hprop.2⟩
      · cases hend

/-- What the bearer arm admits. -/
theorem ends_authBearer {srv : Server} {header : Str} {xs : List (Moment × Database)}
    {tok : ServiceToken} (h : (srv.authBearer header).Ends xs tok) :
    ∃ x y, xs = [x, y] ∧
      (∃ plain, parseBearer header = .ok plain ∧ srv.hash plain = tok.tokenHash) ∧
      LiveAt tok x := by
  obtain ⟨xs₁, rest₁, plain, rfl, hparse, h₁⟩ := h.of_bind
  obtain ⟨xs₂, rest₂, r, rfl, hverify, h₂⟩ := h₁.of_bind
  obtain ⟨xs₃, rest₃, found, rfl, hcheck, h₃⟩ := h₂.of_bind
  obtain ⟨xs₄, rest₄, _, rfl, htouch, h₄⟩ := h₃.of_bind
  cases h₄
  obtain ⟨rfl, hplain⟩ := ends_check hparse
  obtain ⟨rfl, rfl⟩ := ends_check hcheck
  obtain ⟨x, rfl, hhash, hlive⟩ := ends_verify hverify
  obtain ⟨y, rfl, -⟩ := htouch.of_act
  exact ⟨x, y, rfl, ⟨plain, hplain, hhash⟩, hlive⟩

/-- What the session arm admits. -/
theorem ends_authSession {srv : Server} {rq : Request} {xs : List (Moment × Database)}
    {tok : ServiceToken} (h : (srv.authSession rq).Ends xs tok) :
    ∃ x y, xs = [x, y] ∧
      (∃ sess ∈ x.2.dashboardSessions.rows, sess.sessionHash = srv.hash rq.cookie ∧
        sess.revokedAt = none ∧ x.1.now 0 < sess.expiresAt ∧ sess.tokenID = tok.id ∧
        (rq.method ∈ [.post, .put, .patch, .delete] → srv.hash rq.csrfToken = sess.csrfHash)) ∧
      LiveAt tok y := by
  obtain ⟨xs₁, rest₁, sess, rfl, hsess, h₁⟩ := h.of_bind
  obtain ⟨x, rfl, hx⟩ := ends_lookup hsess
  obtain ⟨hmem, hprop⟩ := Table.of_find?_eq_some (found_eq_ok.mp hx)
  simp only [Bool.and_eq_true, decide_eq_true_eq] at hprop
  split at h₁
  · cases h₁
  · rename_i hcsrf
    obtain ⟨xs₂, rest₂, found, rfl, htok, h₂⟩ := h₁.of_bind
    obtain ⟨y, rfl, hy⟩ := ends_lookup htok
    obtain ⟨htmem, hid⟩ := Table.of_find?_eq_some (found_eq_ok.mp hy)
    split at h₂
    · rename_i hlive
      cases h₂
      refine ⟨x, y, rfl, ⟨sess, hmem, hprop.1.1, hprop.1.2, hprop.2,
        (of_decide_eq_true hid).symm, fun hmut => ?_⟩, htmem, hlive⟩
      have hmutating : isMutating rq.method = true := by
        simp only [List.mem_cons, List.not_mem_nil, or_false] at hmut
        rcases hmut with hm | hm | hm | hm <;> rw [hm] <;> rfl
      simp only [hmutating, Bool.true_and, Bool.not_eq_true', Bool.not_eq_false, verifyCSRF,
        Bool.and_eq_true, decide_eq_true_eq] at hcsrf
      exact hcsrf.2
    · cases h₂

/-- The middleware lets a request through on a public path, without a token, or with an admitted
token. -/
theorem ends_authMiddleware {srv : Server} {rq : Request} {xs : List (Moment × Database)}
    {actor : Option ServiceToken} (h : (srv.authMiddleware rq).Ends xs actor) :
    (isPublicPath rq.path = true ∧ actor = none) ∨
      ∃ tok, actor = some tok ∧ Admitted srv rq tok xs := by
  unfold authMiddleware at h
  split at h
  · rename_i hpublic
    cases h
    exact .inl ⟨hpublic, rfl⟩
  · split at h
    · rename_i hheader
      obtain ⟨ys, zs, tok, rfl, harm, hend⟩ := h.of_bind
      cases hend
      obtain ⟨x, y, rfl, hbearer, hlive⟩ := ends_authBearer harm
      exact .inr ⟨tok, rfl, .bearer ⟨hheader, hbearer, hlive⟩⟩
    · rename_i hheader
      split at h
      · obtain ⟨ys, zs, tok, rfl, harm, hend⟩ := h.of_bind
        cases hend
        obtain ⟨x, y, rfl, hsess, hlive⟩ := ends_authSession harm
        exact .inr ⟨tok, rfl, .session ⟨not_not.mp hheader, hsess, hlive⟩⟩
      · cases h

/-- A guarded path is not public. -/
theorem Guarded.not_public {rq : Request} (h : Guarded rq) : isPublicPath rq.path = false := by
  simp only [isPublicPath, Bool.or_eq_false_iff, Bool.not_eq_false', decide_eq_false_iff_not,
    List.isPrefixOf_iff_prefix]
  exact ⟨⟨h.api, h.bootstrap⟩, h.session⟩

/-- An admitted token was unrevoked in a database that the request met. -/
theorem Admitted.exists_live {srv : Server} {rq : Request} {tok : ServiceToken}
    {xs : List (Moment × Database)} (h : Admitted srv rq tok xs) : ∃ x ∈ xs, LiveAt tok x := by
  cases h with
  | bearer h => exact ⟨_, List.mem_cons_self, h.live⟩
  | session h => exact ⟨_, List.mem_cons_of_mem _ List.mem_cons_self, h.live⟩

variable {srv : Server} {start : Database → Prop} {s s' : Shared Request Moment Database}
  {p : Process Request Moment Database}

/-- A guarded request passes only with an admitted token. -/
theorem Passed.admitted {actor : Option ServiceToken} (hguard : Guarded p.name)
    (h : srv.Passed p actor) :
    ∃ tok met, actor = some tok ∧ met <+: p.past ∧ Admitted srv p.name tok met := by
  obtain ⟨met, hmet, hends⟩ := h
  rcases ends_authMiddleware hends with ⟨hpublic, -⟩ | ⟨tok, hactor, hadm⟩
  · rw [hguard.not_public] at hpublic
    cases hpublic
  · exact ⟨tok, met, hactor, hmet, hadm⟩

/-- A stamped token was unrevoked in a database that the request met. -/
theorem Passed.exists_live {tok : ServiceToken} (h : srv.Passed p (some tok)) :
    ∃ x ∈ p.past, LiveAt tok x := by
  obtain ⟨met, hmet, hends⟩ := h
  rcases ends_authMiddleware hends with ⟨-, hactor⟩ | ⟨found, hactor, hadm⟩
  · cases hactor
  · cases hactor
    obtain ⟨x, hx, hlive⟩ := hadm.exists_live
    exact ⟨x, hmet.subset hx, hlive⟩

/-- A token that is revoked when a request arrives is not stamped on it. -/
theorem not_stamped_of_revoked (hl : (srv.system start).Leads (fun _ _ => True) s s')
    {t tok : ServiceToken} (ht : t ∈ s.state.serviceTokens.rows) (hrev : t.revokedAt ≠ none) {i : ℕ}
    (hi : s.procs i = none) (hp : s'.procs i = some p) (hpass : srv.Passed p (some tok)) :
    tok.id ≠ t.id := by
  intro hid
  obtain ⟨x, hx, hmem, hlive⟩ := hpass.exists_live
  have hlater : Later s.state x.2 :=
    interleave.past_of_leads (Later.serve srv) Later.refl Later.trans hl hi p hp x hx
  exact hlater.revoked ht hrev hmem hid hlive

/-- An action of a request belongs to the middleware unless the request has passed it. -/
theorem passed_of_action {β : Type} {t : Moment → Database → Except Response β × Database}
    {k : β → Handler Response} (h : (srv.serve p.name).resume p.past = .atomic t k) :
    (∃ k', (srv.authMiddleware p.name).resume p.past = .atomic t k') ∨
      ∃ actor, srv.Passed p actor := by
  rcases Prog.resume_bind_eq_atomic h with hauth | ⟨met, rest, actor, hpast, hends, -⟩
  · exact .inl hauth
  · exact .inr ⟨actor, met, ⟨rest, hpast.symm⟩, hends⟩

/-- A request has passed the middleware when its handler has served it. -/
theorem passed_of_served {resp : Response} (h : srv.served p = some resp) :
    ∃ actor, srv.Passed p actor := by
  obtain ⟨met, rest, hpast, hends⟩ := Prog.Ends.of_resume (Prog.returned_eq_some.mp h)
  obtain ⟨auth, handled, actor, rfl, hauth, -⟩ := hends.of_bind
  refine ⟨actor, auth, ⟨handled ++ rest, ?_⟩, hauth⟩
  rw [hpast, List.append_assoc]

/-- A committed `Revoke` leaves the token revoked. -/
theorem revoked_of_revoke {id now : Int} {db db' : Database} {u : Unit}
    (h : TokenRepo.revoke id now db = .ok (u, db')) :
    ∀ t ∈ db'.serviceTokens.rows, t.id = id → t.revokedAt ≠ none := by
  rw [TokenRepo.revoke_eq_ok h]
  intro t ht hid
  obtain ⟨r, -, rfl⟩ := List.mem_map.mp ht
  split
  · exact Option.some_ne_none now
  · rename_i hkeep
    rw [if_neg hkeep] at hid
    simpa [hid] using hkeep

/-- In every run of the server, a request on a guarded path acts beyond the middleware, or is
served, only after it has passed, and it passes only with an unrevoked token that its bearer or its
session names. A request that arrives when a token has been revoked never passes as that token. -/
theorem authentication_gate (srv : Server) (start : Database → Prop) :
    (∀ s, (srv.system start).Reachable s → ∀ i p, s.procs i = some p → Guarded p.name →
      (∀ (β : Type) (t : Moment → Database → Except Response β × Database)
        (k : β → Handler Response), (srv.serve p.name).resume p.past = .atomic t k →
        (∃ k', (srv.authMiddleware p.name).resume p.past = .atomic t k') ∨
          ∃ actor, srv.Passed p actor) ∧
      (∀ resp, srv.served p = some resp → ∃ actor, srv.Passed p actor) ∧
      ∀ actor, srv.Passed p actor →
        ∃ tok met, actor = some tok ∧ met <+: p.past ∧ Admitted srv p.name tok met) ∧
    (∀ id now db u db', TokenRepo.revoke id now db = .ok (u, db') →
      ∀ t ∈ db'.serviceTokens.rows, t.id = id → t.revokedAt ≠ none) ∧
    ∀ s, (srv.system start).Reachable s → ∀ t ∈ s.state.serviceTokens.rows, t.revokedAt ≠ none →
      ∀ s', (srv.system start).Leads (fun _ _ => True) s s' → ∀ i p, s.procs i = none →
        s'.procs i = some p → ∀ tok, srv.Passed p (some tok) → tok.id ≠ t.id := by
  refine ⟨?_, ?_, ?_⟩
  · intro s _ i p _ hguard
    exact ⟨fun _ _ _ h => passed_of_action h, fun _ h => passed_of_served h,
      fun _ h => h.admitted hguard⟩
  · exact fun _ _ _ _ _ h => revoked_of_revoke h
  · intro s _ t ht hrev s' hl i p hi hp tok hpass
    exact not_stamped_of_revoked hl ht hrev hi hp hpass

set_option maxRecDepth 4000 in
/-- The creation of the project `p` is admitted. -/
theorem authentication_gate_setUp :
    ∃ s p, (plainServer.system (· = .empty)).run setUp ⟨.empty, fun _ => none⟩ = some s ∧
      s.procs 1 = some p ∧ Guarded p.name ∧
      ∃ tok met, met <+: p.past ∧ Admitted plainServer p.name tok met := by
  have hrun : ((plainServer.system (· = .empty)).run setUp ⟨.empty, fun _ => none⟩).any
      (fun s => (s.procs 1).any fun p => (ascii "/api/").isPrefixOf p.name.path &&
        (p.name.path ≠ ascii "/api/v1/bootstrap" &&
          p.name.path ≠ ascii "/api/v1/dashboard/session") &&
        (plainServer.served p).isSome) = true := by
    decide +kernel
  obtain ⟨s, hs, hreach, hproc⟩ := exists_reachable hrun
  obtain ⟨p, hp, hproc⟩ := (Option.any_eq_true _ _).mp hproc
  simp only [Bool.and_eq_true, decide_eq_true_eq, List.isPrefixOf_iff_prefix] at hproc
  obtain ⟨⟨hapi, hbootstrap, hsession⟩, hserved⟩ := hproc
  obtain ⟨resp, hresp⟩ := Option.isSome_iff_exists.mp hserved
  have hguard : Guarded p.name := ⟨hapi, hbootstrap, hsession⟩
  obtain ⟨-, hpassed, hadmitted⟩ :=
    (authentication_gate plainServer (· = .empty)).1 s hreach 1 p hp hguard
  obtain ⟨actor, hpass⟩ := hpassed resp hresp
  obtain ⟨tok, met, -, hmet, hadm⟩ := hadmitted actor hpass
  exact ⟨s, p, hs, hp, hguard, tok, met, hmet, hadm⟩

end Comax.Server
