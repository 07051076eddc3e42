import Comax.Server.AuditFilters
import Comax.Server.Chronicle

/-!
# What a search of the audit log finds

The entries that the handlers write have legible targets, so a filter without underscores
takes exactly those whose fields begin with the names in it, in either case of the letters.
-/

namespace Comax.Server

open Comax.Core Comax.Store

/-- A field of the event begins with a searched name, in either case of its letters. -/
def FieldBegins (ev : AuditEvent) (label value : Str) : Prop :=
  value = [] ∨ ∃ v, (label, v) ∈ ev.fields ∧ value.map foldCase <+: v.map foldCase

section

variable {srv : Server} {field : String} {label value : Str} {ev : AuditEvent}

/-- A name that is searched for may stand in a field. -/
theorem atomic_of_optionalName (h : optionalName srv field value = .ok ()) : Atomic value := by
  by_cases hne : value = []
  · rw [hne]
    exact ⟨List.not_mem_nil, List.not_mem_nil⟩
  · rw [optionalName, if_neg hne] at h
    cases hv : validateName srv field value with
    | ok u => exact (acceptedName_of_ok hv).atomic
    | error e =>
      rw [hv] at h
      cases h

/-- The searched labels end no other label. -/
theorem label_of_suffix (hlabel : label ∈ [ascii "project", ascii "env"]) {f : Str × Str}
    (hf : f ∈ ev.fields) (h : label.map foldCase <:+ f.1.map foldCase) : f.1 = label := by
  have hall : ([ascii "project", ascii "env"].all fun l => AuditEvent.labels.all fun m =>
      !(l.map foldCase).isSuffixOf (m.map foldCase) || m == l) = true := by
    decide
  have hmem := ev.labels_of_fields (List.mem_map_of_mem hf)
  have hlabels := List.all_eq_true.mp (List.all_eq_true.mp hall label hlabel) f.1 hmem
  rw [List.isSuffixOf_iff_suffix.mpr h] at hlabels
  simpa using hlabels

/-- The bytes of the searched labels. -/
theorem bytes_of_searched (hlabel : label ∈ [ascii "project", ascii "env"]) :
    Atomic label ∧ byte '_' ∉ label ++ [byte '='] ∧
      ∀ c ∈ label ++ [byte '='], c < 0x80 ∧ c ≠ byte '%' := by
  simp only [List.mem_cons, List.not_mem_nil, or_false] at hlabel
  rcases hlabel with rfl | rfl
  · exact ⟨⟨by decide, by decide⟩, by decide, bytes_of_all (by decide)⟩
  · exact ⟨⟨by decide, by decide⟩, by decide, bytes_of_all (by decide)⟩

/-- A clause of the query takes the entries with such a field. -/
theorem targetClause_iff_fieldBegins (hev : ev.Accepted)
    (hlabel : label ∈ [ascii "project", ascii "env"])
    (hvalue : optionalName srv field value = .ok ()) (hwild : byte '_' ∉ value) :
    targetClause (label ++ [byte '=']) value ev.target = true ↔ FieldBegins ev label value := by
  obtain ⟨hatomic, hplain, hbytes⟩ := bytes_of_searched hlabel
  have htext : label ++ [byte '='] ++ value = label ++ byte '=' :: value := by simp
  have hnone : byte '_' ∉ label ++ byte '=' :: value := by
    rw [← htext, List.mem_append]
    exact fun h => h.elim hplain hwild
  rw [targetClause_iff (bytes_of_optionalName hvalue) hbytes, ResemblesClause, htext, FieldBegins,
    AuditEvent.target, resembles_fieldsText (AuditEvent.legible hev) (AuditEvent.target_ascii hev)
      hatomic (atomic_of_optionalName hvalue) hnone]
  refine or_congr_right ⟨?_, ?_⟩
  · rintro ⟨⟨l, v⟩, hf, hsuffix, hprefix⟩
    have hsame : l = label := label_of_suffix hlabel hf hsuffix
    exact ⟨v, hsame ▸ hf, hprefix⟩
  · rintro ⟨v, hf, hprefix⟩
    exact ⟨(label, v), hf, List.suffix_refl _, hprefix⟩

end

/-- In every run of the server from an empty database, a filter with accepted names without
underscores takes an entry of the log exactly when the project and the environment of the change
that the entry tells begin with those names, in either case of their letters, and the entry
passes the other clauses. -/
theorem search_finds_events (srv : Server) {s : Shared Request Moment Database}
    (h : (srv.system (· = .empty)).Reachable s) {f : AuditFilter}
    (hproject : optionalName srv "project" f.project = .ok ())
    (henv : optionalName srv "env" f.env = .ok ()) (hplain : byte '_' ∉ f.project ++ f.env)
    {entry : AuditEntry} (hentry : entry ∈ s.state.auditLog.rows) :
    ∃ ev, eventOf entry = some ev ∧ (f.accepts entry = true ↔
      FieldBegins ev (ascii "project") f.project ∧ FieldBegins ev (ascii "env") f.env ∧
        otherClauses f entry = true) := by
  obtain ⟨ev, htold⟩ := (chronicled srv h).told entry hentry
  obtain ⟨hwildProject, hwildEnv⟩ := not_or.mp (mt List.mem_append.mpr hplain)
  refine ⟨ev, eventOf_eq htold.accepted htold.action htold.target, ?_⟩
  rw [← targetClause_iff_fieldBegins htold.accepted (by simp) hproject hwildProject,
    ← targetClause_iff_fieldBegins htold.accepted (by simp) henv hwildEnv, ← htold.target,
    AuditFilter.accepts, otherClauses]
  simp only [Bool.and_eq_true, and_assoc]
  rfl

set_option maxRecDepth 4000 in
/-- A search for `P` takes five of six entries, all those about `p`. -/
theorem search_finds_events_putDeletePut :
    ∃ s, (plainServer.system (· = .empty)).run putDeletePut ⟨.empty, fun _ => none⟩ = some s ∧
      s.state.auditLog.rows.map (ofProject "P").accepts = [false, true, true, true, true, true] ∧
      ∀ entry ∈ s.state.auditLog.rows, ∃ ev, eventOf entry = some ev ∧
        ((ofProject "P").accepts entry = true ↔ FieldBegins ev (ascii "project") (ascii "P") ∧
          FieldBegins ev (ascii "env") [] ∧ otherClauses (ofProject "P") entry = true) := by
  have hrun : ((plainServer.system (· = .empty)).run putDeletePut ⟨.empty, fun _ => none⟩).any
      (fun s => s.state.auditLog.rows.map (ofProject "P").accepts =
        [false, true, true, true, true, true]) = true := by
    decide +kernel
  obtain ⟨s, hs, hreach, htaken⟩ := exists_reachable hrun
  exact ⟨s, hs, of_decide_eq_true htaken, fun entry hentry =>
    search_finds_events plainServer hreach (by rfl) (by rfl) (by decide) hentry⟩

end Comax.Server
