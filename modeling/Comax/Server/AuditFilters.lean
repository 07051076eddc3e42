import Comax.Server.AuditPages

/-!
# Filters of the audit log

A filter is documented to take the rows whose target contains the searched texts. The search puts
the names into `LIKE` patterns as they are, where `_` stands for any character and letters match
in either case.
-/

namespace Comax.Server

open Comax.Core Comax.Store

/-- The documented clause: the target contains the text literally. -/
def literalClause (label value target : Str) : Bool :=
  value = [] || decide (label ++ value <:+: target)

/-- The clauses on the other columns. -/
def otherClauses (f : AuditFilter) (e : AuditEntry) : Bool :=
  (f.action = [] || e.action = f.action) &&
    (f.actorToken.isNone || e.actorToken = f.actorToken) && (f.beforeID ≤ 0 || e.id < f.beforeID)

/-- The documented filter. -/
def describes (f : AuditFilter) (e : AuditEntry) : Bool :=
  literalClause (ascii "project=") f.project e.target &&
    literalClause (ascii "env=") f.env e.target && otherClauses f e

/-- A searched text, or one that resembles it, is in the target. -/
def ResemblesClause (label value target : Str) : Prop :=
  value = [] ∨ Resembles (label ++ value) target

section Clauses

variable {srv : Server} {field : String} {label value target : Str}

/-- The bytes of an accepted name. -/
theorem bytes_of_optionalName (h : optionalName srv field value = .ok ()) :
    ∀ c ∈ value, c < 0x80 ∧ c ≠ byte '%' := by
  intro c hc
  have hne : value ≠ [] := List.ne_nil_of_mem hc
  rw [optionalName, if_neg hne] at h
  have hvalid : validateName srv field value = .ok () := by
    cases hv : validateName srv field value with
    | ok u => rfl
    | error e =>
      rw [hv] at h
      cases h
  have hcode := allowed_iff.mp ((validateName_ok_iff.mp hvalid).2.2 c hc)
  have hpercent : (byte '%').toNat = 37 := rfl
  rw [UInt8.lt_iff_toNat_lt, ne_eq, ← UInt8.toNat_inj, hpercent]
  have hbound : (0x80 : UInt8).toNat = 128 := rfl
  omega

/-- The bytes of a closed text. -/
theorem bytes_of_all {l : Str}
    (h : l.all (fun c => decide (c < 0x80) && decide (c ≠ byte '%')) = true) :
    ∀ c ∈ l, c < 0x80 ∧ c ≠ byte '%' := by
  intro c hc
  have hc' := List.all_eq_true.mp h c hc
  rwa [Bool.and_eq_true, decide_eq_true_eq, decide_eq_true_eq] at hc'

variable (hvalue : ∀ c ∈ value, c < 0x80 ∧ c ≠ byte '%')
  (hlabel : ∀ c ∈ label, c < 0x80 ∧ c ≠ byte '%')

include hvalue hlabel

/-- The clause of the query takes the targets that resemble the searched text. -/
theorem targetClause_iff : targetClause label value target = true ↔
    ResemblesClause label value target := by
  have hlit : ∀ c ∈ label ++ value, c ≠ byte '%' := fun c hc =>
    (List.mem_append.mp hc).elim (fun h => (hlabel c h).2) fun h => (hvalue c h).2
  rw [targetClause, ResemblesClause, Bool.or_eq_true, decide_eq_true_eq, ← List.append_assoc,
    like_contains hlit]

/-- It takes the targets that contain it. -/
theorem targetClause_of_literalClause (h : literalClause label value target = true) :
    targetClause label value target = true := by
  rw [targetClause_iff hvalue hlabel]
  rw [literalClause, Bool.or_eq_true, decide_eq_true_eq, decide_eq_true_eq] at h
  refine h.imp id (resembles_of_contains fun c hc => ?_)
  exact (List.mem_append.mp hc).elim (fun h => (hlabel c h).1) fun h => (hvalue c h).1

end Clauses

/-- The list of the documented rows, newest first. -/
def described (f : AuditFilter) (db : Database) : List AuditEntry :=
  (db.auditLog.rows.filter (describes f)).insertionSort Newer

/-- With room for all rows, `List` returns the documented ones exactly when each row that passes the
other filters and has texts in its target that resemble the searched ones contains those
literally. A text resembles another when it has as many characters and they agree, in either
case of an ASCII letter, wherever the other has no underscore. -/
theorem list_eq_described_iff (srv : Server) {f : AuditFilter} {limit : ℕ} {db : Database}
    (hproject : optionalName srv "project" f.project = .ok ())
    (henv : optionalName srv "env" f.env = .ok ()) (hlimit : db.auditLog.rows.length ≤ limit) :
    AuditRepo.list f limit db = .ok (described f db) ↔
      ∀ e ∈ db.auditLog.rows, otherClauses f e = true →
        ResemblesClause (ascii "project=") f.project e.target →
        ResemblesClause (ascii "env=") f.env e.target →
          literalClause (ascii "project=") f.project e.target = true ∧
            literalClause (ascii "env=") f.env e.target = true := by
  have hprojects := bytes_of_optionalName hproject
  have henvs := bytes_of_optionalName henv
  have hlabels := bytes_of_all (show (ascii "project=").all _ = true by decide)
  have hlabels' := bytes_of_all (show (ascii "env=").all _ = true by decide)
  have hlist : AuditRepo.list f limit db =
      .ok ((db.auditLog.rows.filter f.accepts).insertionSort Newer) := by
    rw [AuditRepo.list, List.take_of_length_le]
    rw [List.length_insertionSort]
    exact (List.length_filter_le _ _).trans hlimit
  have haccepts : ∀ e, f.accepts e = true ↔ ResemblesClause (ascii "project=") f.project e.target ∧
      ResemblesClause (ascii "env=") f.env e.target ∧ otherClauses f e = true := by
    intro e
    rw [← targetClause_iff hprojects hlabels, ← targetClause_iff henvs hlabels',
      AuditFilter.accepts, otherClauses]
    simp only [Bool.and_eq_true, and_assoc]
  have hdescribes : ∀ e, describes f e = true ↔
      literalClause (ascii "project=") f.project e.target = true ∧
        literalClause (ascii "env=") f.env e.target = true ∧ otherClauses f e = true := by
    intro e
    rw [describes, Bool.and_eq_true, Bool.and_eq_true, and_assoc]
  rw [hlist, described, Except.ok.injEq]
  constructor
  · intro heq e he hother hp hv
    have hmem : e ∈ (db.auditLog.rows.filter f.accepts).insertionSort Newer := by
      rw [List.mem_insertionSort, List.mem_filter]
      exact ⟨he, (haccepts e).mpr ⟨hp, hv, hother⟩⟩
    rw [heq, List.mem_insertionSort, List.mem_filter, hdescribes] at hmem
    exact ⟨hmem.2.1, hmem.2.2.1⟩
  · intro hall
    congr 1
    refine List.filter_congr fun e he => ?_
    rw [Bool.eq_iff_iff, haccepts, hdescribes]
    constructor
    · rintro ⟨hp, hv, hother⟩
      obtain ⟨hp', hv'⟩ := hall e he hother hp hv
      exact ⟨hp', hv', hother⟩
    · rintro ⟨hp, hv, hother⟩
      exact ⟨(targetClause_iff hprojects hlabels).mp
          (targetClause_of_literalClause hprojects hlabels hp),
        (targetClause_iff henvs hlabels').mp
          (targetClause_of_literalClause henvs hlabels' hv), hother⟩

/-- An entry about a target. -/
def upserted (target : String) : AuditEntry :=
  ⟨1, none, ascii "secret.upsert", ascii target, [], 100⟩

/-- The log with one entry. -/
def logged (target : String) : Database :=
  { Database.empty with auditLog := ⟨[upserted target], List.pairwise_singleton _ _⟩ }

/-- The filter for a project. -/
def ofProject (project : String) : AuditFilter := ⟨ascii project, [], [], none, 0⟩

/-- The filter for `my_app` on a log with one entry of another project. -/
theorem list_eq_described_iff_underscore :
    AuditRepo.list (ofProject "my_app") 1 (logged "project=other env=dev") =
        .ok (described (ofProject "my_app") (logged "project=other env=dev")) ↔
      ∀ e ∈ (logged "project=other env=dev").auditLog.rows,
        otherClauses (ofProject "my_app") e = true →
        ResemblesClause (ascii "project=") (ofProject "my_app").project e.target →
        ResemblesClause (ascii "env=") (ofProject "my_app").env e.target →
          literalClause (ascii "project=") (ofProject "my_app").project e.target = true ∧
            literalClause (ascii "env=") (ofProject "my_app").env e.target = true :=
  list_eq_described_iff plainServer (by rfl) (by rfl) (by decide)

/-- The filter for `my_app` takes an entry of `myXapp`, and the one for `app` an entry of `APP`. -/
theorem list_ne_described :
    validateName plainServer "project" (ascii "my_app") = .ok () ∧
    AuditRepo.list (ofProject "my_app") 1 (logged "project=myXapp env=dev") =
      .ok [upserted "project=myXapp env=dev"] ∧
    described (ofProject "my_app") (logged "project=myXapp env=dev") = [] ∧
    AuditRepo.list (ofProject "app") 1 (logged "project=APP env=dev") =
      .ok [upserted "project=APP env=dev"] ∧
    described (ofProject "app") (logged "project=APP env=dev") = [] := by
  refine ⟨by rfl, ?_, ?_, ?_, ?_⟩ <;> decide +kernel

end Comax.Server
