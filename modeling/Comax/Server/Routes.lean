import Comax.Core.Mux
import Comax.Server.Router

/-!
# The whole route table

All patterns that the mux registers, with the handler of each.
-/

namespace Comax.Server

open Comax.Core

/-- The registered handlers. -/
inductive Endpoint where
  | handleHealth
  | handleBootstrap
  | handleCreateDashboardSession
  | handleRevokeDashboardSession
  | handleListDashboardSessions
  | handleRevokeDashboardSessionByID
  | handleListProjects
  | handleCreateProject
  | handleCreateToken
  | handleListTokens
  | handleRevokeToken
  | handleCreateWebhook
  | handleListWebhooks
  | handleSetWebhookEnabled
  | handleDeleteWebhook
  | handleListDeliveries
  | handleListEnvs
  | handleCreateEnv
  | handleDiffEnvs
  | handleListSecrets
  | handleGetSecret
  | handlePutSecret
  | handleDeleteSecret
  | handleRollbackSecret
  | handleGetVersion
  | handleListVersions
  | handleListAudit
  | handleSPA
  deriving DecidableEq

/-- The parts of a pattern below `/api/v1`; an empty text stands for a wildcard. -/
def api (parts : List String) : List Part :=
  .lit (ascii "api") :: .lit (ascii "v1") ::
    parts.map fun p => if p = "" then .wild else .lit (ascii p)

/-- The patterns of `Handler`. -/
def patterns : List (Pattern Method Endpoint) := [
  ⟨some .get, [.lit (ascii "healthz")], .handleHealth⟩,
  ⟨some .post, api ["bootstrap"], .handleBootstrap⟩,
  ⟨some .post, api ["dashboard", "session"], .handleCreateDashboardSession⟩,
  ⟨some .delete, api ["dashboard", "session"], .handleRevokeDashboardSession⟩,
  ⟨some .get, api ["dashboard", "sessions"], .handleListDashboardSessions⟩,
  ⟨some .delete, api ["dashboard", "sessions", ""], .handleRevokeDashboardSessionByID⟩,
  ⟨some .get, api ["projects"], .handleListProjects⟩,
  ⟨some .post, api ["projects"], .handleCreateProject⟩,
  ⟨some .post, api ["tokens"], .handleCreateToken⟩,
  ⟨some .get, api ["tokens"], .handleListTokens⟩,
  ⟨some .delete, api ["tokens", ""], .handleRevokeToken⟩,
  ⟨some .post, api ["webhooks"], .handleCreateWebhook⟩,
  ⟨some .get, api ["webhooks"], .handleListWebhooks⟩,
  ⟨some .patch, api ["webhooks", ""], .handleSetWebhookEnabled⟩,
  ⟨some .delete, api ["webhooks", ""], .handleDeleteWebhook⟩,
  ⟨some .get, api ["webhooks", "", "deliveries"], .handleListDeliveries⟩,
  ⟨some .get, api ["projects", "", "envs"], .handleListEnvs⟩,
  ⟨some .post, api ["projects", "", "envs"], .handleCreateEnv⟩,
  ⟨some .get, api ["projects", "", "envs", "", "diff"], .handleDiffEnvs⟩,
  ⟨some .get, api ["projects", "", "envs", "", "secrets"], .handleListSecrets⟩,
  ⟨some .get, api ["projects", "", "envs", "", "secrets", ""], .handleGetSecret⟩,
  ⟨some .put, api ["projects", "", "envs", "", "secrets", ""], .handlePutSecret⟩,
  ⟨some .delete, api ["projects", "", "envs", "", "secrets", ""], .handleDeleteSecret⟩,
  ⟨some .post, api ["projects", "", "envs", "", "secrets", "", "rollback"], .handleRollbackSecret⟩,
  ⟨some .get, api ["projects", "", "envs", "", "secrets", "", "versions", ""], .handleGetVersion⟩,
  ⟨some .get, api ["projects", "", "envs", "", "versions"], .handleListVersions⟩,
  ⟨some .get, api ["audit"], .handleListAudit⟩,
  ⟨none, [.rest], .handleSPA⟩]

/-- `GET` patterns serve `HEAD` requests. -/
def standIn : Method → Option Method
  | .head => some .get
  | _ => none

/-- The handler of a route that writes. -/
def Route.endpoint : Route → Endpoint
  | .bootstrap => .handleBootstrap
  | .createSession => .handleCreateDashboardSession
  | .revokeSession => .handleRevokeDashboardSession
  | .revokeSessionByID _ => .handleRevokeDashboardSessionByID
  | .createProject => .handleCreateProject
  | .createToken => .handleCreateToken
  | .revokeToken _ => .handleRevokeToken
  | .createWebhook => .handleCreateWebhook
  | .setWebhookEnabled _ => .handleSetWebhookEnabled
  | .deleteWebhook _ => .handleDeleteWebhook
  | .createEnv _ => .handleCreateEnv
  | .putSecret _ _ _ => .handlePutSecret
  | .deleteSecret _ _ _ => .handleDeleteSecret
  | .rollbackSecret _ _ _ => .handleRollbackSecret
  | .other => .handleSPA

/-- The path values of a route that writes. -/
def Route.values : Route → List Str
  | .revokeSessionByID id | .revokeToken id | .setWebhookEnabled id | .deleteWebhook id => [id]
  | .createEnv p => [p]
  | .putSecret p e k | .deleteSecret p e k | .rollbackSecret p e k => [p, e, k]
  | _ => []

/-- The table has the routes below `/api/v1` that write. -/
theorem search_of_apiRoute {method : Method} {segs : List Str} (hempty : [] ∉ segs) :
    apiRoute method segs = .other ∨
      search (((branch patterns (some method)).filterMap (follow (.lit (ascii "api")))).filterMap
        (follow (.lit (ascii "v1")))) segs =
          some ((apiRoute method segs).endpoint, (apiRoute method segs).values) := by
  have hne : ∀ s ∈ segs, s ≠ [] := fun s hs he => hempty (he ▸ hs)
  fun_cases apiRoute method segs
  any_goals exact .inl rfl
  case case1 | case2 | case3 | case4 => exact .inr rfl
  case case6 a b h =>
    obtain ⟨rfl, rfl⟩ := h
    exact .inr rfl
  case case8 a b h =>
    obtain ⟨rfl, rfl⟩ := h
    exact .inr rfl
  case case9 b _ => exact .inr (search_lit (search_wild (hne b (by simp)) rfl rfl))
  case case10 b _ _ => exact .inr (search_lit (search_wild (hne b (by simp)) rfl rfl))
  case case12 b => exact .inr (search_lit (search_wild (hne b (by simp)) rfl rfl))
  case case14 a b c h =>
    obtain ⟨rfl, rfl⟩ := h
    exact .inr (search_lit (search_lit (search_wild (hne c (by simp)) rfl rfl)))
  case case16 a p b h =>
    obtain ⟨rfl, rfl⟩ := h
    exact .inr (search_lit (search_wild (hne p (by simp)) rfl (search_lit rfl)))
  case case18 a p b e c k h =>
    obtain ⟨rfl, rfl, rfl⟩ := h
    exact .inr (search_lit (search_wild (hne p (by simp)) rfl (search_lit
      (search_wild (hne e (by simp)) rfl (search_lit (search_wild (hne k (by simp)) rfl rfl))))))
  case case20 a p b e c k h =>
    obtain ⟨rfl, rfl, rfl⟩ := h
    exact .inr (search_lit (search_wild (hne p (by simp)) rfl (search_lit
      (search_wild (hne e (by simp)) rfl (search_lit (search_wild (hne k (by simp)) rfl rfl))))))
  case case22 a p b e c k d h =>
    obtain ⟨rfl, rfl, rfl, rfl⟩ := h
    exact .inr (search_lit (search_wild (hne p (by simp)) rfl (search_lit
      (search_wild (hne e (by simp)) rfl (search_lit
        (search_wild (hne k (by simp)) rfl (search_lit rfl)))))))

/-- The table has the routes that write. -/
theorem lookup_of_mux (method : Method) (segs : List Str) : mux method segs = .other ∨
    lookup patterns standIn method segs =
      some ((mux method segs).endpoint, (mux method segs).values) := by
  fun_cases mux method segs
  any_goals exact .inl rfl
  case case2 a b rest h hempty =>
    obtain ⟨rfl, rfl⟩ := h
    have hrest : [] ∉ rest := fun hm =>
      hempty (List.mem_cons_of_mem _ (List.mem_cons_of_mem _ hm))
    refine (search_of_apiRoute hrest).imp id fun h => ?_
    exact lookup_of_search (search_lit (search_lit h))

/-- `Handler`, up to the choice of the handler. -/
def muxPath (method : Method) (path : Str) : Dispatch Endpoint :=
  dispatch patterns standIn method path

end Comax.Server
