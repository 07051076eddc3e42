import Comax.Core.Crash
import Comax.Store.Migrate
import Comax.Store.Tokens

/-!
# Migrations that stop and start again

A migration may stop between any two of its statements, and any of them may fail. The
next one goes on from what the last one left. No attempt changes a row, except that the
first token becomes an admin, so it does not matter how many attempts an upgrade takes.
-/

namespace Comax.Store

open Comax.Core

/-- The contents of a file after the backfill. -/
def Database.promoted (db : Database) : Database :=
  { db with serviceTokens := promoteFirst db.serviceTokens }

/-- Every table and every column exists. -/
structure Stored.Complete (st : Stored) : Prop where
  tables : ∀ t, t ∈ st.catalog.tables
  columns : ∀ c, c ∈ st.catalog.columns

/-- Everything that exists stays. -/
structure Catalog.Within (c c' : Catalog) : Prop where
  tables : c.tables ⊆ c'.tables
  columns : c.columns ⊆ c'.columns

/-- The second backfill has nothing to do. -/
theorem promoteFirst_idem (ts : Table ServiceToken) :
    promoteFirst (promoteFirst ts) = promoteFirst ts := by
  rcases ready_promoteFirst ts with h | h
  · exact promoteFirst_of_nil h
  · exact promoteFirst_of_hasAdmin h

theorem Database.promoted_idem (db : Database) : db.promoted.promoted = db.promoted := by
  rw [promoted, promoted, promoteFirst_idem]

/-- A complete catalog takes any rows. -/
theorem Stored.Complete.put {st : Stored} (h : st.Complete) (db : Database) :
    ∃ st', st.put db = some st' ∧ st'.catalog = st.catalog ∧ st'.db = db := by
  have hholds : st.catalog.Holds db :=
    ⟨fun t ht => absurd (h.tables t) ht, fun c hc => absurd (h.columns c) hc⟩
  exact ⟨⟨st.catalog, db, hholds⟩, dif_pos hholds, rfl, rfl⟩

/-- Files with the same catalog and the same rows are the same. -/
theorem Stored.ext {st st' : Stored} (hcatalog : st.catalog = st'.catalog)
    (hdb : st.db = st'.db) : st = st' := by
  cases st
  cases st'
  cases hcatalog
  cases hdb
  rfl

namespace Catalog.Within

variable {c c' c'' : Catalog}

theorem refl (c : Catalog) : c.Within c := ⟨List.Subset.refl _, List.Subset.refl _⟩

theorem trans (h : c.Within c') (h' : c'.Within c'') : c.Within c'' :=
  ⟨List.Subset.trans h.tables h'.tables, List.Subset.trans h.columns h'.columns⟩

end Catalog.Within

/-- What a part of the migration leaves of a file: its rows, and the file itself when there is
nothing left to create. -/
structure Extended (st st' : Stored) : Prop where
  db : st'.db = st.db
  within : st.catalog.Within st'.catalog
  complete : st.Complete → st' = st

namespace Extended

variable {st st' st'' : Stored}

theorem refl (st : Stored) : Extended st st := ⟨rfl, .refl _, fun _ => rfl⟩

theorem trans (h : Extended st st') (h' : Extended st' st'') : Extended st st'' where
  db := h'.db.trans h.db
  within := h.within.trans h'.within
  complete hst := by
    obtain rfl := h.complete hst
    exact h'.complete hst

/-- A statement of the schema. -/
theorem create (c : Create) (st : Stored) : Extended st (c.apply st) := by
  refine ⟨c.db_apply st, ?_, fun h => ?_⟩
  · cases c with
    | index name => exact .refl _
    | table t =>
      rw [Create.apply]
      split
      · exact .refl _
      · exact ⟨List.subset_cons_self _ _, List.subset_append_right _ _⟩
  · cases c with
    | index name => rfl
    | table t => exact if_pos (h.tables t)

/-- A column that was missing. -/
theorem add {c : Column} (h : c.add st = .ok st') : Extended st st' := by
  have hdb := Column.db_add h
  unfold Column.add at h
  split at h
  · cases h
  · split at h
    · cases h
    · rename_i hmissing
      cases h
      exact ⟨hdb, ⟨List.Subset.refl _, List.subset_cons_self _ _⟩,
        fun hst => absurd (hst.columns c) hmissing⟩

end Extended

/-- What an attempt leaves of a file: its rows, of which the backfill may have made one an admin,
and the file itself when it was complete and its rows were as the backfill leaves them. -/
structure Advanced (st st' : Stored) : Prop where
  db : st'.db = st.db ∨ st'.db = st.db.promoted
  within : st.catalog.Within st'.catalog
  complete : st.Complete → st.db.promoted = st.db → st' = st

namespace Advanced

variable {st st' st'' : Stored}

theorem refl (st : Stored) : Advanced st st := ⟨.inl rfl, .refl _, fun _ _ => rfl⟩

theorem of_extended (h : Extended st st') : Advanced st st' :=
  ⟨.inl h.db, h.within, fun hst _ => h.complete hst⟩

theorem trans (h : Advanced st st') (h' : Advanced st' st'') : Advanced st st'' where
  db := by
    rcases h.db with hdb | hdb <;> rcases h'.db with hdb' | hdb'
    · exact .inl (hdb'.trans hdb)
    · exact .inr (by rw [hdb', hdb])
    · exact .inr (hdb'.trans hdb)
    · exact .inr (by rw [hdb', hdb, Database.promoted_idem])
  within := h.within.trans h'.within
  complete hst hdb := by
    obtain rfl := h.complete hst hdb
    exact h'.complete hst hdb

/-- The backfill. -/
theorem backfill (h : adminBackfill st = .ok st') : Advanced st st' := by
  have hdb := adminBackfill_eq_ok h
  unfold adminBackfill at h
  split at h
  · split at h
    · rename_i s hput
      cases h
      unfold Stored.put at hput
      split at hput
      · cases hput
        exact ⟨.inr hdb, .refl _, fun _ hsame => Stored.ext rfl (hdb.trans hsame)⟩
      · cases hput
    · cases h
  · cases h

end Advanced

/-- No call to the driver fails. -/
def Undisturbed (os : ℕ → Moment) : Prop := ∀ n, (os n).fails 0 = false

/-! ## One attempt -/

section

variable {ρ : Type} {st₀ st : Stored} {os : ℕ → Moment} {α : Type}

/-- A statement of the migration and what follows it. -/
theorem along_exec {P E : Stored → Prop} {stmt : Stored → Except ExecError Stored}
    {k : Except ExecError Unit → Prog Stored Moment ρ α}
    {Q : α → (ℕ → Moment) → Stored → Prop} (hst : P st)
    (hok : ∀ st', stmt st = .ok st' → (k (.ok ())).Along P E (fun n => os (n + 1)) st' Q)
    (herror : ∀ e, stmt st = .error e ∨ e = .other ∧ ¬ Undisturbed os →
      (k (.error e)).Along P E (fun n => os (n + 1)) st Q) :
    (exec stmt >>= k).Along P E os st Q := by
  change (Prog.atomic _ k).Along P E os st Q
  rw [Prog.Along]
  refine ⟨hst, ?_⟩
  cases hfails : (os 0).fails 0 with
  | true =>
    simp only [if_true]
    exact herror _ (.inr ⟨rfl, fun h => absurd ((h 0).symm.trans hfails) Bool.false_ne_true⟩)
  | false =>
    simp only [Bool.false_eq_true, if_false]
    cases hstmt : stmt st with
    | ok st' => exact hok st' hstmt
    | error e => exact herror e (.inl hstmt)

/-- The schema: every table exists when it has gone through, and it goes through undisturbed. -/
theorem along_applySchema (cs : List Create) (h : Advanced st₀ st) :
    (applySchema cs : Prog Stored Moment ρ _).Along (Advanced st₀) (fun _ => False) os st
      fun r os' st' => Advanced st₀ st' ∧ (r = .ok () → Extended st st' ∧
        ∀ t, .table t ∈ cs → t ∈ st'.catalog.tables) ∧
        (Undisturbed os → r = .ok () ∧ Undisturbed os') := by
  induction cs generalizing st os with
  | nil =>
    exact ⟨h, h, fun _ => ⟨.refl st, fun t ht => absurd ht List.not_mem_nil⟩, fun ho => ⟨rfl, ho⟩⟩
  | cons c cs ih =>
    refine along_exec h (fun st' hstmt => ?_) fun e he => ?_
    · cases hstmt
      have hext := Extended.create c st
      refine (ih (h.trans (.of_extended hext))).mono ?_
      rintro r os' st' ⟨hadv, hok, hundisturbed⟩
      refine ⟨hadv, fun hr => ?_, fun ho => hundisturbed fun n => ho (n + 1)⟩
      obtain ⟨hext', htables⟩ := hok hr
      refine ⟨hext.trans hext', fun t ht => ?_⟩
      rcases List.mem_cons.mp ht with rfl | ht
      · refine hext'.within.tables ?_
        rw [Create.apply]
        split
        · assumption
        · exact List.mem_cons_self
      · exact htables t ht
    · refine ⟨h, h, fun hr => (by cases hr), fun ho => ?_⟩
      rcases he with he | ⟨-, he⟩
      · cases he
      · exact absurd ho he

/-- The columns, once their tables exist. -/
theorem along_addColumns (cs : List Column) (h : Advanced st₀ st)
    (htables : ∀ t, t ∈ st.catalog.tables) :
    (addColumns cs : Prog Stored Moment ρ _).Along (Advanced st₀) (fun _ => False) os st
      fun r os' st' => Advanced st₀ st' ∧ (r = .ok () → Extended st st' ∧
        ∀ c ∈ cs, c ∈ st'.catalog.columns) ∧
        (Undisturbed os → r = .ok () ∧ Undisturbed os') := by
  induction cs generalizing st os with
  | nil =>
    exact ⟨h, h, fun _ => ⟨.refl st, fun c hc => absurd hc List.not_mem_nil⟩, fun ho => ⟨rfl, ho⟩⟩
  | cons c cs ih =>
    have hrest : ∀ {st'}, Extended st st' → c ∈ st'.catalog.columns →
        (addColumns cs : Prog Stored Moment ρ _).Along (Advanced st₀) (fun _ => False)
          (fun n => os (n + 1)) st' fun r os' st'' => Advanced st₀ st'' ∧
            (r = .ok () → Extended st st'' ∧ ∀ d ∈ c :: cs, d ∈ st''.catalog.columns) ∧
            (Undisturbed os → r = .ok () ∧ Undisturbed os') := by
      intro st' hext hc
      refine (ih (h.trans (.of_extended hext)) fun t => hext.within.tables (htables t)).mono ?_
      rintro r os' st'' ⟨hadv, hok, hundisturbed⟩
      refine ⟨hadv, fun hr => ?_, fun ho => hundisturbed fun n => ho (n + 1)⟩
      obtain ⟨hext', hcolumns⟩ := hok hr
      refine ⟨hext.trans hext', fun d hd => ?_⟩
      rcases List.mem_cons.mp hd with rfl | hd
      · exact hext'.within.columns hc
      · exact hcolumns d hd
    refine along_exec h (fun st' hstmt => ?_) fun e he => ?_
    · refine hrest (.add hstmt) ?_
      unfold Column.add at hstmt
      split at hstmt
      · cases hstmt
      · split at hstmt
        · cases hstmt
        · cases hstmt
          exact List.mem_cons_self
    · cases e with
      | duplicateColumn =>
        refine hrest (.refl st) ?_
        rcases he with he | ⟨he, -⟩
        · unfold Column.add at he
          split at he
          · cases he
          · split at he
            · assumption
            · cases he
        · cases he
      | other =>
        refine ⟨h, h, fun hr => (by cases hr), fun ho => ?_⟩
        rcases he with he | ⟨-, he⟩
        · unfold Column.add at he
          split at he
          · rename_i hmissing
            exact absurd (htables c.table) hmissing
          · split at he <;> cases he
        · exact absurd ho he

/-- One attempt: wherever it stops the file has advanced, when it goes through the file is complete
and its rows are those after the backfill, and it goes through undisturbed. -/
theorem along_migrate (st : Stored) (os : ℕ → Moment) :
    (migrate : Prog Stored Moment ρ _).Along (Advanced st) (fun _ => False) os st
      fun r _ st' => (r = .ok () → st'.Complete ∧ st'.db = st.db.promoted) ∧
        (Undisturbed os → r = .ok ()) := by
  unfold migrate
  rw [Prog.along_bind]
  refine (along_applySchema schemaSQL (.refl st)).mono ?_
  rintro (e | ⟨⟨⟩⟩) os₁ st₁ ⟨h₁, hok₁, hun₁⟩
  · exact ⟨h₁, fun hr => (by cases hr), fun ho => by cases (hun₁ ho).1⟩
  obtain ⟨hext₁, htables⟩ := hok₁ rfl
  have hall : ∀ t, t ∈ st₁.catalog.tables := fun t => htables t (by cases t <;> decide)
  dsimp only
  rw [Prog.along_bind]
  refine (along_addColumns additiveColumns h₁ hall).mono ?_
  rintro (e | ⟨⟨⟩⟩) os₂ st₂ ⟨h₂, hok₂, hun₂⟩
  · exact ⟨h₂, fun hr => (by cases hr), fun ho => by cases (hun₂ (hun₁ ho).2).1⟩
  obtain ⟨hext₂, hcolumns⟩ := hok₂ rfl
  have hcomplete : st₂.Complete :=
    ⟨fun t => hext₂.within.tables (hall t), fun c => hcolumns c (by cases c <;> decide)⟩
  have hdb : st₂.db = st.db := hext₂.db.trans hext₁.db
  dsimp only
  refine along_exec h₂ (fun st₃ hstmt => ?_) fun e he => ?_
  · refine ⟨h₂.trans (.backfill hstmt), fun _ => ?_, fun _ => rfl⟩
    have hadv := Advanced.backfill hstmt
    refine ⟨⟨fun t => hadv.within.tables (hcomplete.tables t),
      fun c => hadv.within.columns (hcomplete.columns c)⟩, ?_⟩
    rw [adminBackfill_eq_ok hstmt, hdb, Database.promoted]
  · refine ⟨h₂, fun hr => (by cases hr), fun ho => ?_⟩
    rcases he with he | ⟨-, he⟩
    · obtain ⟨st', hput, -, -⟩ := hcomplete.put { st₂.db with
        serviceTokens := promoteFirst st₂.db.serviceTokens }
      rw [adminBackfill, if_pos (hcomplete.columns _), hput] at he
      cases he
    · exact absurd (hun₂ (hun₁ ho).2).2 he

end

/-! ## Any number of attempts -/

/-- The states of a file after any number of attempts, each stopped anywhere. -/
inductive Attempted (ρ : Type) (st : Stored) : Stored → Prop
  | start : Attempted ρ st st
  | attempt {st' st'' : Stored} {os : ℕ → Moment} (h : Attempted ρ st st')
      (hstop : st'' ∈ (migrate : Prog Stored Moment ρ _).states os st') : Attempted ρ st st''

/-- Attempts advance the file. -/
theorem Attempted.advanced {ρ : Type} {st st' : Stored} (h : Attempted ρ st st') :
    Advanced st st' := by
  induction h with
  | start => exact .refl st
  | @attempt st' st'' os _ hstop ih => exact ih.trans ((along_migrate st' os).of_mem_states hstop)

/-- However often a migration has stopped, at whatever statement: no row is lost or changed, except
that the first token may have become an admin; the next undisturbed attempt goes through; one that
goes through has created everything and made the first token an admin if none was; and what it
leaves, every further attempt leaves as it is. -/
theorem migrate_resumes {ρ : Type} {st st' : Stored} (h : Attempted ρ st st')
    (os : ℕ → Moment) :
    (st'.db = st.db ∨ st'.db = st.db.promoted) ∧ st.catalog.Within st'.catalog ∧
    (Undisturbed os → ∃ st'', (migrate : Prog Stored Moment ρ _).outcome os st' =
      (.ok (.ok ()), st'')) ∧
    ∀ st'', (migrate : Prog Stored Moment ρ _).outcome os st' = (.ok (.ok ()), st'') →
      st''.Complete ∧ st''.db = st.db.promoted ∧
        ∀ st₃, Attempted ρ st'' st₃ → st₃ = st'' := by
  have hadv := h.advanced
  have halong := along_migrate (ρ := ρ) st' os
  refine ⟨hadv.db, hadv.within, fun ho => ?_, fun st'' hout => ?_⟩
  · cases hout : (migrate : Prog Stored Moment ρ _).outcome os st' with
    | mk r st'' =>
      cases r with
      | error e =>
        have := (Prog.along_iff.mp (halong.mono fun _ _ _ _ => trivial)).2 e st'' hout
        exact this.elim
      | ok r =>
        obtain ⟨_, -, hun⟩ := halong.outcome_ok hout
        exact ⟨st'', by rw [hun ho]⟩
  · obtain ⟨_, hdone, -⟩ := halong.outcome_ok hout
    obtain ⟨hcomplete, hdb⟩ := hdone rfl
    have hdb' : st''.db = st.db.promoted := by
      rcases hadv.db with h' | h' <;> rw [hdb, h']
      exact Database.promoted_idem _
    refine ⟨hcomplete, hdb', fun st₃ h₃ => h₃.advanced.complete hcomplete ?_⟩
    rw [hdb', Database.promoted_idem]

/-- A file of an earlier release, with one token. -/
def earlierFile : Stored where
  catalog := ⟨[.projects, .environments, .secrets, .secretVersions, .serviceTokens, .auditLog], []⟩
  db := { Database.empty with
    serviceTokens := ⟨[⟨1, ascii "ci", ascii "t", false, 6, none, none⟩], by decide⟩ }
  holds := by decide

/-- What an attempt leaves of it whose eleventh statement fails. -/
def interruptedFile : Stored :=
  ((migrate : Prog Stored Moment Empty _).outcome
    (fun n => ⟨fun _ => 9, fun _ => decide (n = 10)⟩) earlierFile).2

/-- The interrupted file lacks columns, and the next attempt completes it. -/
theorem migrate_resumes_interrupted : interruptedFile.catalog.columns = [] ∧
    ∃ st, (migrate : Prog Stored Moment Empty _).outcome (fun _ => .calm 9) interruptedFile =
      (.ok (.ok ()), st) ∧ st.Complete ∧ st.db = earlierFile.db.promoted := by
  have hattempted : Attempted Empty earlierFile interruptedFile :=
    .attempt .start (Prog.outcome_mem_states _ _ _)
  obtain ⟨-, -, hcalm, hdone⟩ := migrate_resumes hattempted fun _ => .calm 9
  obtain ⟨st, hout⟩ := hcalm fun _ => rfl
  exact ⟨by decide +kernel, st, hout, (hdone st hout).1, (hdone st hout).2.1⟩

end Comax.Store
