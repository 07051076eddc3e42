import Comax.Store.Repos

/-!
# Reading the audit log

`AuditRepo.List` narrows the rows by a filter, orders them by `created_at DESC, id DESC` and
takes the first ones.
-/

namespace Comax.Store

open Comax.Core

/-- `AuditFilter` -/
structure AuditFilter where
  project : Str
  env : Str
  action : Str
  actorToken : Option Int
  beforeID : Int

/-- The clause `target LIKE '%label=value%'`, which an empty value leaves out. -/
def targetClause (label value target : Str) : Bool :=
  value = [] || like (byte '%' :: (label ++ (value ++ [byte '%']))) target

/-- The `WHERE` clause of `List`. -/
def AuditFilter.accepts (f : AuditFilter) (e : AuditEntry) : Bool :=
  targetClause (ascii "project=") f.project e.target &&
    targetClause (ascii "env=") f.env e.target &&
    (f.action = [] || e.action = f.action) &&
    (f.actorToken.isNone || e.actorToken = f.actorToken) && (f.beforeID ≤ 0 || e.id < f.beforeID)

/-- `ORDER BY created_at DESC, id DESC` -/
def Newer (a b : AuditEntry) : Prop :=
  b.createdAt < a.createdAt ∨ a.createdAt = b.createdAt ∧ b.id ≤ a.id

instance : DecidableRel Newer := fun _ _ => inferInstanceAs (Decidable (_ ∨ _))

instance : IsTrans AuditEntry Newer := ⟨fun a b c hab hbc => by unfold Newer at *; omega⟩

instance : Std.Total Newer := ⟨fun a b => by unfold Newer; omega⟩

namespace AuditRepo

/-- `AuditRepo.List` -/
def list (f : AuditFilter) (limit : ℕ) (db : Database) : Except StoreError (List AuditEntry) :=
  .ok (((db.auditLog.rows.filter f.accepts).insertionSort Newer).take limit)

end AuditRepo

end Comax.Store
