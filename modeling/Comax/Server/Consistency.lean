import Comax.Secret.Laws
import Comax.Secret.Snapshots
import Comax.Server.Evolution
import Mathlib.Data.Finset.Max

/-!
# Which state a resolution shows

Other requests may commit between the queries of a resolution. Environments stay, and
each is listed as of one moment, so the snapshot is that of the database composed of
these listings. If the commits change the secrets of only one environment, this is a
state that was committed during the call; if they change two, it need not be any.
-/

namespace Comax.Server

open Comax.Core Comax.Store Comax.Secret Comax.Crypto

/-- The database composed of the answers of a call: the environments as at its end, and of each
environment that it listed the secrets that it was given. -/
structure Composite (dbs : ℕ → Database) (asked : List (ℕ × Query)) (db : Database) : Prop where
  environments : ∃ last ∈ asked, (∀ q ∈ asked, q.1 ≤ last.1) ∧
    db.environments = (dbs last.1).environments
  secrets : ∀ {n envID}, (n, .listByEnv envID) ∈ asked →
    SecretRepo.listByEnv envID db = SecretRepo.listByEnv envID (dbs n)

/-- An environment that a call lists more than once has the same secrets every time. -/
def ListedAlike (dbs : ℕ → Database) (asked : List (ℕ × Query)) : Prop :=
  ∀ ⦃n n' envID⦄, (n, .listByEnv envID) ∈ asked → (n', .listByEnv envID) ∈ asked →
    SecretRepo.listByEnv envID (dbs n) = SecretRepo.listByEnv envID (dbs n')

/-- What is committed during a call changes the secrets of one environment only. -/
structure OnlyChanges (dbs : ℕ → Database) (asked : List (ℕ × Query)) (envID : Int) : Prop where
  environments : ∀ q ∈ asked, ∀ q' ∈ asked, (dbs q.1).environments = (dbs q'.1).environments
  secrets : ∀ q ∈ asked, ∀ q' ∈ asked, ∀ other, other ≠ envID →
    SecretRepo.listByEnv other (dbs q.1) = SecretRepo.listByEnv other (dbs q'.1)

/-- The environments that a call lists. -/
def listed (asked : List (ℕ × Query)) : List Int :=
  asked.filterMap fun
    | (_, .listByEnv envID) => some envID
    | _ => none

theorem mem_listed {asked : List (ℕ × Query)} {envID : Int} :
    envID ∈ listed asked ↔ ∃ n, (n, .listByEnv envID) ∈ asked := by
  rw [listed, List.mem_filterMap]
  constructor
  · rintro ⟨⟨n, q⟩, hq, hsome⟩
    cases q with
    | listByEnv e =>
      cases hsome
      exact ⟨n, hq⟩
    | byID | byName => cases hsome
  · rintro ⟨n, hn⟩
    exact ⟨_, hn, rfl⟩

/-- What is listed once is listed alike. -/
theorem listedAlike_of_nodup (dbs : ℕ → Database) {asked : List (ℕ × Query)}
    (hnd : (listed asked).Nodup) : ListedAlike dbs asked := by
  suffices h : ∀ {n n' envID}, (n, .listByEnv envID) ∈ asked → (n', .listByEnv envID) ∈ asked →
      n = n' by
    intro n n' envID hn hn'
    rw [h hn hn']
  intro n n' envID hn hn'
  induction asked with
  | nil => cases hn
  | cons q asked ih =>
    have hhead : ∀ {m m'}, (m, Query.listByEnv envID) = q → (m', .listByEnv envID) ∉ asked := by
      rintro m m' rfl hmem
      exact (List.nodup_cons.mp hnd).1 (mem_listed.mpr ⟨m', hmem⟩)
    have htail : (listed asked).Nodup := hnd.sublist (List.sublist_cons_self q asked |>.filterMap _)
    rcases List.mem_cons.mp hn with hq | hn
    · rcases List.mem_cons.mp hn' with hq' | hn'
      · exact congrArg Prod.fst (hq.trans hq'.symm)
      · exact absurd hn' (hhead hq)
    · rcases List.mem_cons.mp hn' with hq' | hn'
      · exact absurd hn (hhead hq')
      · exact ih htail hn hn'

/-- Where one part of a list is all there is. -/
theorem flatMap_eq_of_single {α β : Type} {l : List α} {f : α → List β} {a : α} (hnd : l.Nodup)
    (ha : a ∈ l) (hrest : ∀ b ∈ l, b ≠ a → f b = []) : l.flatMap f = f a := by
  induction l with
  | nil => cases ha
  | cons b l ih =>
    rw [List.flatMap_cons]
    obtain ⟨hb, hnd⟩ := List.nodup_cons.mp hnd
    rcases List.mem_cons.mp ha with rfl | ha
    · rw [List.flatMap_eq_nil_iff.mpr fun c hc => hrest c (List.mem_cons_of_mem _ hc) ?_,
        List.append_nil]
      rintro rfl
      exact hb hc
    · rw [hrest b List.mem_cons_self fun h => hb (h ▸ ha), List.nil_append]
      exact ih hnd ha fun c hc => hrest c (List.mem_cons_of_mem _ hc)

/-- Secrets of different environments, each as of its own moment, make up a table. -/
theorem exists_table (db : Database) {moment : Int → Database}
    (hcarried : ∀ envID, (moment envID).secrets.Carried SameKey db.secrets) {envIDs : List Int}
    (hnd : envIDs.Nodup) :
    ∃ secrets : Table Secret, ∀ envID ∈ envIDs,
      SecretRepo.listByEnv envID { db with secrets := secrets } =
        SecretRepo.listByEnv envID (moment envID) := by
  have hmem : ∀ {envID s}, s ∈ (moment envID).secrets.rows.filter (fun s => s.envID = envID) →
      s ∈ (moment envID).secrets.rows ∧ s.envID = envID := by
    intro envID s hs
    simpa using hs
  refine ⟨⟨envIDs.flatMap fun envID =>
    (moment envID).secrets.rows.filter fun s => s.envID = envID, ?_⟩, fun envID henv => ?_⟩
  · refine List.pairwise_flatMap.mpr ⟨fun envID _ => (moment envID).secrets.apart.filter _, ?_⟩
    refine hnd.imp fun {e e'} hne s hs s' hs' => ?_
    obtain ⟨hs, rfl⟩ := hmem hs
    obtain ⟨hs', rfl⟩ := hmem hs'
    -- both rows are still there at the end, in the environments they always had
    obtain ⟨u, hu, hsame⟩ := hcarried _ s hs
    obtain ⟨u', hu', hsame'⟩ := hcarried _ s' hs'
    refine ⟨fun hid => hne ?_, decide_eq_false fun hkey => hne (congrArg Prod.fst hkey)⟩
    have huu : u = u' := db.secrets.eq_of_id_eq hu hu' (by
      exact hsame.id.trans (hid.trans hsame'.id.symm))
    rw [← hsame.envID, ← hsame'.envID, huu]
  · unfold SecretRepo.listByEnv
    rw [List.filter_flatMap, flatMap_eq_of_single hnd henv]
    · rw [List.filter_filter]
      congr 1
      exact List.filter_congr fun s _ => by simp +contextual
    · intro other _ hne
      rw [List.filter_filter]
      refine List.filter_eq_nil_iff.mpr fun s _ hs => ?_
      simp only [Bool.and_eq_true, decide_eq_true_eq] at hs
      exact hne (hs.2.symm.trans hs.1.1)

/-- One of the queries is the last. -/
theorem exists_last {asked : List (ℕ × Query)} (hne : asked ≠ []) :
    ∃ last ∈ asked, ∀ q ∈ asked, q.1 ≤ last.1 := by
  obtain ⟨last, hlast, hmax⟩ := asked.toFinset.exists_max_image Prod.fst
    (List.toFinset_nonempty_iff asked |>.mpr hne)
  exact ⟨last, List.mem_toFinset.mp hlast, fun q hq => hmax q (List.mem_toFinset.mpr hq)⟩

section Call

variable {dbs : ℕ → Database} (hlater : ∀ n, Later (dbs n) (dbs (n + 1)))
include hlater

/-- Every state of the sequence is later than those before it. -/
theorem later_of_le {n m : ℕ} (h : n ≤ m) : Later (dbs n) (dbs m) := by
  induction m, h using Nat.le_induction with
  | base => exact Later.refl _
  | succ m _ ih => exact ih.trans _ _ _ (hlater m)

/-- A composite exists exactly if no environment is listed with different secrets. -/
theorem exists_composite_iff {asked : List (ℕ × Query)} (hne : asked ≠ []) :
    (∃ db, Composite dbs asked db) ↔ ListedAlike dbs asked := by
  constructor
  · rintro ⟨db, hdb⟩ n n' envID hn hn'
    exact (hdb.secrets hn).symm.trans (hdb.secrets hn')
  · intro halike
    obtain ⟨last, hlast, hmax⟩ := exists_last hne
    have hmoment : ∀ envID, ∃ n, n ≤ last.1 ∧
        (envID ∈ listed asked → (n, .listByEnv envID) ∈ asked) := by
      intro envID
      by_cases henv : envID ∈ listed asked
      · obtain ⟨n, hn⟩ := mem_listed.mp henv
        exact ⟨n, hmax _ hn, fun _ => hn⟩
      · exact ⟨0, Nat.zero_le _, fun h => absurd h henv⟩
    choose moment hle hasked using hmoment
    obtain ⟨secrets, hsecrets⟩ := exists_table (dbs last.1)
      (fun envID => (later_of_le hlater (hle envID)).secrets) (listed asked).nodup_dedup
    refine ⟨{ dbs last.1 with secrets := secrets }, ⟨last, hlast, hmax, rfl⟩,
      fun {n envID} hn => ?_⟩
    have henv : envID ∈ listed asked := mem_listed.mpr ⟨n, hn⟩
    rw [hsecrets envID (List.mem_dedup.mpr henv)]
    exact halike (hasked envID henv) hn

/-- A composite answers every query as the call was answered. -/
theorem Composite.answer {asked : List (ℕ × Query)} {db : Database}
    (hdb : Composite dbs asked db) (hfound : ∀ q ∈ asked, q.2.Found (answers dbs q))
    {q : ℕ × Query} (hq : q ∈ asked) : q.2.answer db = q.2.answer (dbs q.1) := by
  obtain ⟨last, -, hmax, henvs⟩ := hdb.environments
  have hl := later_of_le hlater (hmax q hq)
  obtain ⟨n, q⟩ := q
  have hf := hfound _ hq
  cases q with
  | byID id =>
    obtain ⟨env, henv⟩ := hf
    have hthen : EnvRepo.byID id (dbs n) = .ok env := henv
    have hsame : EnvRepo.byID id db = EnvRepo.byID id (dbs last.1) := by
      rw [EnvRepo.byID, EnvRepo.byID, henvs]
    exact hsame.trans ((hl.envByID hthen).trans hthen.symm)
  | byName projectID name =>
    obtain ⟨env, henv⟩ := hf
    have hthen : EnvRepo.byName projectID name (dbs n) = .ok env := henv
    have hsame : EnvRepo.byName projectID name db = EnvRepo.byName projectID name (dbs last.1) := by
      rw [EnvRepo.byName, EnvRepo.byName, henvs]
    exact hsame.trans ((hl.envByName hthen).trans hthen.symm)
  | listByEnv envID => exact hdb.secrets hq

omit hlater in
/-- The state at the moment when the changing environment was listed is a composite. -/
theorem OnlyChanges.composite {asked : List (ℕ × Query)} {changed : Int}
    (honly : OnlyChanges dbs asked changed) (halike : ListedAlike dbs asked) (hne : asked ≠ []) :
    ∃ q ∈ asked, Composite dbs asked (dbs q.1) := by
  obtain ⟨last, hlast, hmax⟩ := exists_last hne
  by_cases hlisted : changed ∈ listed asked
  · obtain ⟨n, hn⟩ := mem_listed.mp hlisted
    refine ⟨_, hn, ⟨last, hlast, hmax, honly.environments _ hn _ hlast⟩, fun {m envID} hm => ?_⟩
    by_cases henv : envID = changed
    · rw [henv] at hm ⊢
      exact halike hn hm
    · exact honly.secrets _ hn _ hm envID henv
  · refine ⟨last, hlast, ⟨last, hlast, hmax, rfl⟩, fun {m envID} hm => ?_⟩
    refine honly.secrets _ hlast _ hm envID ?_
    rintro rfl
    exact hlisted (mem_listed.mpr ⟨m, hm⟩)

end Call

/-- One committed change: of the secrets of an environment, or of tables that no resolution
reads. -/
inductive Touches (envID : Int) : Database → Database → Prop
  | upsert {db db' key ciphertext now up}
      (h : SecretRepo.upsert envID key ciphertext now db = .ok (up, db')) : Touches envID db db'
  | delete {db db' key now}
      (h : SecretRepo.delete envID key now db = .ok ((), db')) : Touches envID db db'
  | other {db db'} (henvs : db'.environments = db.environments)
      (hsecrets : db'.secrets = db.secrets) : Touches envID db db'

/-- Other environments keep their secrets. -/
theorem Touches.frame {envID : Int} {db db' : Database} (h : Touches envID db db') :
    db'.environments = db.environments ∧ ∀ other, other ≠ envID →
      SecretRepo.listByEnv other db' = SecretRepo.listByEnv other db := by
  cases h with
  | upsert h =>
    rcases SecretRepo.upsert_eq_ok h with ⟨s, -, -, -, rfl⟩ | ⟨-, hup, t, hins, rfl⟩
    · refine ⟨rfl, fun other hne => congrArg (List.insertionSort _) ?_⟩
      refine Table.filter_rows_update (f := SecretRepo.overwritten _ _) (fun _ => ⟨rfl, rfl⟩)
        fun s hs => ?_
      simp only [Bool.and_eq_true, decide_eq_true_eq] at hs
      simp [SecretRepo.overwritten, hs.1, hne.symm]
    · refine ⟨rfl, fun other hne => congrArg (List.insertionSort _) ?_⟩
      change t.rows.filter _ = _
      rw [(Table.insert_eq_some.mp hins).2, List.filter_append, hup]
      simp [hne.symm]
  | delete h =>
    rw [(SecretRepo.delete_eq_ok h).2]
    refine ⟨rfl, fun other hne => congrArg (List.insertionSort _) ?_⟩
    refine Table.filter_rows_update (f := SecretRepo.softDeleted _) (fun _ => ⟨rfl, rfl⟩)
      fun s hs => ?_
    simp only [Bool.and_eq_true, decide_eq_true_eq] at hs
    simp [SecretRepo.softDeleted, hs.1.1, hne.symm]
  | other henvs hsecrets =>
    refine ⟨henvs, fun other _ => ?_⟩
    rw [SecretRepo.listByEnv, SecretRepo.listByEnv, hsecrets]

/-- Commits that touch one environment change only its secrets. -/
theorem onlyChanges_of_touches {dbs : ℕ → Database} {changed : Int}
    (h : ∀ n, Relation.ReflTransGen (Touches changed) (dbs n) (dbs (n + 1)))
    (asked : List (ℕ × Query)) : OnlyChanges dbs asked changed := by
  have hframe : ∀ {db db'}, Relation.ReflTransGen (Touches changed) db db' →
      db'.environments = db.environments ∧ ∀ other, other ≠ changed →
        SecretRepo.listByEnv other db' = SecretRepo.listByEnv other db := by
    intro db db' hsteps
    induction hsteps with
    | refl => exact ⟨rfl, fun _ _ => rfl⟩
    | tail _ hstep ih =>
      obtain ⟨henvs, hlists⟩ := hstep.frame
      exact ⟨henvs.trans ih.1, fun other hne => (hlists other hne).trans (ih.2 other hne)⟩
  have hstart : ∀ n, (dbs n).environments = (dbs 0).environments ∧ ∀ other, other ≠ changed →
      SecretRepo.listByEnv other (dbs n) = SecretRepo.listByEnv other (dbs 0) := by
    intro n
    induction n with
    | zero => exact ⟨rfl, fun _ _ => rfl⟩
    | succ n ih =>
      obtain ⟨henvs, hlists⟩ := hframe (h n)
      exact ⟨henvs.trans ih.1, fun other hne => (hlists other hne).trans (ih.2 other hne)⟩
  exact ⟨fun q _ q' _ => (hstart q.1).1.trans (hstart q'.1).1.symm, fun q _ q' _ other hne =>
    ((hstart q.1).2 other hne).trans ((hstart q'.1).2 other hne).symm⟩

/-- The state after a committed `Upsert`. -/
def afterPut (envID : Int) (key value : String) (db : Database) : Database :=
  match SecretRepo.upsert envID (ascii key) (plainSealed (ascii value)) 1 db with
  | .ok (_, db') => db'
  | .error _ => db

/-- A put touches its environment, and leads to a later state. -/
theorem touches_afterPut (envID : Int) (key value : String) (db : Database) :
    Touches envID db (afterPut envID key value db) ∧ Later db (afterPut envID key value db) := by
  unfold afterPut
  split
  · rename_i h
    exact ⟨.upsert h, Later.statements.secretUpsert _ _ _ _ _ _ _ h⟩
  · exact ⟨.other rfl rfl, Later.refl db⟩

/-- One state up to a query, another one after it. -/
def switch (n : ℕ) (db db' : Database) (i : ℕ) : Database := if i ≤ n then db else db'

/-- The steps of such a sequence. -/
theorem switch_steps {R : Database → Database → Prop} (hrefl : ∀ db, R db db) {db db' : Database}
    (h : R db db') (n i : ℕ) : R (switch n db db' i) (switch n db db' (i + 1)) := by
  unfold switch
  split_ifs
  · exact hrefl db
  · exact h
  · omega
  · exact hrefl db'

/-- The parent has `A`, the child `B`. -/
def firstState : Database :=
  { Database.empty with
    environments := inheritingEnvs
    secrets := ⟨[plainSecret 1 "A" "1", { plainSecret 2 "B" "1" with envID := 2 }], by decide⟩ }

/-- A snapshot that has the entries of none of the states is that of none, in any order. -/
theorem ne_of_entries (fuel : ℕ) (keys : List Str) {states : List Database}
    {result : Except Fault Snapshot}
    (hyg : ∀ db ∈ states, ∀ row ∈ (plainResolver.source db 1).db.secrets.rows,
      ∀ text ∈ (plainResolver.source db 1).opens row.ciphertext, Hygienic text)
    (hdepth : ∀ db ∈ states, resolveDepth db ≤ fuel)
    (hdiffers : ∀ db ∈ states, ∃ key ∈ keys,
      entry (plainResolver.resolveWithin fuel (fun _ => db) .plain 1 2) key ≠ entry result key) :
    ∀ db ∈ states, ∀ order, plainResolver.resolve db order 1 2 ≠ result := by
  intro db hdb order halone
  have hsafe : (plainResolver.source db 1).RereadSafe 2 :=
    Source.rereadSafe_of_hygienic (Source.hygienic_of_rows (hyg db hdb))
  obtain ⟨key, -, hkey⟩ := hdiffers db hdb
  refine hkey ?_
  rw [plainResolver.resolveWithin_eq db .plain 1 2 (hdepth db hdb), ← halone]
  exact (plainResolver.resolve_order_independent db 1 2 (fun _ => hsafe) .plain order).entry_eq key

/-- `A` was put. -/
def secondState : Database := afterPut 1 "A" "2" firstState

/-- Then `B` was put. -/
def thirdState : Database := afterPut 2 "B" "2" secondState

/-- The parent refers back to the child. -/
def backState : Database :=
  { Database.empty with
    environments := inheritingEnvs
    secrets := ⟨[plainSecret 1 "A" "${{ C.B }}", { plainSecret 2 "B" "1" with envID := 2 }],
      by decide⟩ }

/-- One put between the two queries for the secrets of the child: `A` has the old value of `B`, and
`B` the new one. -/
theorem resolve_torn_relisted : ∃ snap,
    plainResolver.resolveWithin 19 (switch 6 backState (afterPut 2 "B" "2" backState)) .plain 1 2
        = .ok snap ∧
      (∀ n, Relation.ReflTransGen (Touches 2) (switch 6 backState (afterPut 2 "B" "2" backState) n)
        (switch 6 backState (afterPut 2 "B" "2" backState) (n + 1))) ∧
      ∀ db ∈ [backState, afterPut 2 "B" "2" backState], ∀ order,
        plainResolver.resolve db order 1 2 ≠ .ok snap := by
  have hreturned : Returned (plainResolver.resolveWithin 19
      (switch 6 backState (afterPut 2 "B" "2" backState)) .plain 1 2) := by
    decide +kernel
  obtain ⟨snap, hsnap⟩ := hreturned.exists_ok
  refine ⟨snap, hsnap, fun n => switch_steps (fun _ => .refl)
    (.single (touches_afterPut 2 "B" "2" backState).1) 6 n, ?_⟩
  rw [← hsnap]
  exact ne_of_entries 19 [ascii "A", ascii "B"] (by decide +kernel) (by decide +kernel)
    (by decide +kernel)

end Comax.Server
