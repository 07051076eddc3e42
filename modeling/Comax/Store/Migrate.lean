import Comax.Store.Session
import Mathlib.Data.Fintype.Basic

/-!
# Migration

`Migrate` brings the tables of any earlier release up to the schema: it creates what is
missing, adds the columns of later releases, and makes the first token an admin when
there is none. Its statements run one after another outside a transaction. The rows of
a table read the default of a column that the table does not have yet, and the stored
database carries the proof.
-/

namespace Comax.Store

open Comax.Core

/-- The tables of the schema. -/
inductive TableName where
  | projects
  | environments
  | secrets
  | secretVersions
  | serviceTokens
  | auditLog
  | dashboardSessions
  | webhooks
  | webhookDeliveries
  deriving DecidableEq

/-- The columns that tables of earlier releases do not have. -/
inductive Column where
  | deletedAt
  | isAdmin
  | revokedAt
  deriving DecidableEq

instance : Fintype TableName where
  elems := {.projects, .environments, .secrets, .secretVersions, .serviceTokens, .auditLog,
    .dashboardSessions, .webhooks, .webhookDeliveries}
  complete t := by cases t <;> decide

instance : Fintype Column where
  elems := {.deletedAt, .isAdmin, .revokedAt}
  complete c := by cases c <;> decide

/-- The table of a column. -/
def Column.table : Column → TableName
  | .deletedAt => .secrets
  | .isAdmin | .revokedAt => .serviceTokens

/-- A table without rows. -/
def Database.Vacant (db : Database) : TableName → Prop
  | .projects => db.projects.rows = []
  | .environments => db.environments.rows = []
  | .secrets => db.secrets.rows = []
  | .secretVersions => db.secretVersions.rows = []
  | .serviceTokens => db.serviceTokens.rows = []
  | .auditLog => db.auditLog.rows = []
  | .dashboardSessions => db.dashboardSessions.rows = []
  | .webhooks => db.webhooks.rows = []
  | .webhookDeliveries => db.webhookDeliveries.rows = []

/-- Every row reads the default of a column. -/
def Database.Unset (db : Database) : Column → Prop
  | .deletedAt => ∀ s ∈ db.secrets.rows, s.deletedAt = none
  | .isAdmin => ∀ t ∈ db.serviceTokens.rows, t.isAdmin = false
  | .revokedAt => ∀ t ∈ db.serviceTokens.rows, t.revokedAt = none

instance (db : Database) (t : TableName) : Decidable (db.Vacant t) := by
  cases t <;> exact inferInstanceAs (Decidable (_ = []))

instance (db : Database) (c : Column) : Decidable (db.Unset c) := by
  cases c <;> exact inferInstanceAs (Decidable (∀ _ ∈ _, _))

/-- The tables that exist, and those of the later columns that exist. -/
structure Catalog where
  tables : List TableName
  columns : List Column
  deriving DecidableEq

/-- A missing table has no rows, and a missing column reads its default. -/
structure Catalog.Holds (c : Catalog) (db : Database) : Prop where
  tables : ∀ t, t ∉ c.tables → db.Vacant t
  columns : ∀ col, col ∉ c.columns → db.Unset col

instance (c : Catalog) (db : Database) : Decidable (c.Holds db) :=
  decidable_of_iff ((∀ t, t ∉ c.tables → db.Vacant t) ∧ ∀ col, col ∉ c.columns → db.Unset col)
    ⟨fun h => ⟨h.1, h.2⟩, fun h => ⟨h.tables, h.columns⟩⟩

/-- A database file. -/
structure Stored where
  catalog : Catalog
  db : Database
  holds : catalog.Holds db

/-- Other contents under the same catalog; `none` when a row needs what is missing. -/
def Stored.put (st : Stored) (db : Database) : Option Stored :=
  if h : st.catalog.Holds db then some ⟨st.catalog, db, h⟩ else none

/-- What a statement of the migration reports. -/
inductive ExecError where
  | duplicateColumn
  | other
  deriving DecidableEq

/-- The error of `Migrate`, by the statement it stopped at. -/
inductive MigrateError where
  | applySchema (e : ExecError)
  | additiveColumn (c : Column) (e : ExecError)
  | adminBackfill (e : ExecError)
  deriving DecidableEq

/-- The statements of the schema. -/
inductive Create where
  | table (t : TableName)
  | index (name : String)
  deriving DecidableEq

/-- `schemaSQL` -/
def schemaSQL : List Create :=
  [.table .projects, .table .environments, .table .secrets, .index "idx_secrets_env_key",
    .table .secretVersions, .index "idx_versions_secret", .table .serviceTokens, .table .auditLog,
    .index "idx_audit_created", .table .dashboardSessions, .index "idx_sessions_token",
    .table .webhooks, .index "idx_webhooks_project", .table .webhookDeliveries,
    .index "idx_deliveries_due"]

/-- `additiveColumns` -/
def additiveColumns : List Column := [.deletedAt, .isAdmin, .revokedAt]

/-- `CREATE TABLE IF NOT EXISTS`, with all columns of the table, and `CREATE INDEX IF NOT EXISTS`,
which leaves the rows alone. -/
def Create.apply : Create → Stored → Stored
  | .index _, st => st
  | .table t, st =>
    if t ∈ st.catalog.tables then st
    else ⟨⟨t :: st.catalog.tables, additiveColumns.filter (·.table = t) ++ st.catalog.columns⟩,
      st.db,
      fun u hu => st.holds.tables u fun h => hu (List.mem_cons_of_mem _ h),
      fun c hc => st.holds.columns c fun h => hc (List.mem_append_right _ h)⟩

/-- `ALTER TABLE … ADD COLUMN`; the rows present take the default. -/
def Column.add (c : Column) (st : Stored) : Except ExecError Stored :=
  if c.table ∉ st.catalog.tables then .error .other
  else if c ∈ st.catalog.columns then .error .duplicateColumn
  else .ok ⟨⟨st.catalog.tables, c :: st.catalog.columns⟩, st.db, st.holds.tables,
    fun d hd => st.holds.columns d fun h => hd (List.mem_cons_of_mem _ h)⟩

/-- The rows after `adminBackfill`: the smallest id is an admin when there was none. -/
def promoteFirst (ts : Table ServiceToken) : Table ServiceToken :=
  ts.update (fun t => decide (some t.id = (ts.rows.map (·.id)).min?) && !ts.rows.any (·.isAdmin))
    (fun t => { t with isAdmin := true }) fun _ => ⟨rfl, rfl⟩

/-- `adminBackfill`, which names a column that must exist. -/
def adminBackfill (st : Stored) : Except ExecError Stored :=
  if .isAdmin ∈ st.catalog.columns then
    match st.put { st.db with serviceTokens := promoteFirst st.db.serviceTokens } with
    | some st' => .ok st'
    | none => .error .other
  else .error .other

variable {ρ : Type}

/-- A statement of the migration, outside a transaction. -/
def exec (stmt : Stored → Except ExecError Stored) :
    Prog Stored Moment ρ (Except ExecError Unit) :=
  .act fun o st =>
    if o.fails 0 then (.ok (.error .other), st)
    else
      match stmt st with
      | .ok st' => (.ok (.ok ()), st')
      | .error e => (.ok (.error e), st)

/-- The first statement of `Migrate`, which the driver splits. -/
def applySchema : List Create → Prog Stored Moment ρ (Except MigrateError Unit)
  | [] => return .ok ()
  | c :: cs => do
    match ← exec fun st => .ok (c.apply st) with
    | .ok () => applySchema cs
    | .error e => return .error (.applySchema e)

/-- The loop of `Migrate`. -/
def addColumns : List Column → Prog Stored Moment ρ (Except MigrateError Unit)
  | [] => return .ok ()
  | c :: cs => do
    match ← exec c.add with
    | .ok () | .error .duplicateColumn => addColumns cs
    | .error e => return .error (.additiveColumn c e)

/-- `Migrate` -/
def migrate : Prog Stored Moment ρ (Except MigrateError Unit) := do
  match ← applySchema schemaSQL with
  | .error e => return .error e
  | .ok () =>
    match ← addColumns additiveColumns with
    | .error e => return .error e
    | .ok () =>
      match ← exec adminBackfill with
      | .error e => return .error (.adminBackfill e)
      | .ok () => return .ok ()

/-! ## What a migration does -/

theorem Stored.db_put {st st' : Stored} {db : Database} (h : st.put db = some st') :
    st'.db = db := by
  unfold Stored.put at h
  split at h
  · cases h
    rfl
  · cases h

@[simp] theorem Create.db_apply (c : Create) (st : Stored) : (c.apply st).db = st.db := by
  cases c with
  | index name => rfl
  | table t =>
    rw [Create.apply]
    split <;> rfl

theorem Column.db_add {c : Column} {st st' : Stored} (h : c.add st = .ok st') :
    st'.db = st.db := by
  unfold Column.add at h
  split at h
  · cases h
  · split at h
    · cases h
    · cases h
      rfl

/-- A backfill that goes through rewrites the tokens only. -/
theorem adminBackfill_eq_ok {st st' : Stored} (h : adminBackfill st = .ok st') :
    st'.db = { st.db with serviceTokens := promoteFirst st.db.serviceTokens } := by
  unfold adminBackfill at h
  split at h
  · split at h
    · rename_i hput
      cases h
      exact Stored.db_put hput
    · cases h
  · cases h

end Comax.Store
