import Comax.Core.Hoare
import Comax.Core.Program
import Comax.Store.Repos

/-!
# Statements and transactions

A connection issues statements one after another. The outside decides, for each
operation of an action, what the clock reads and whether the operation fails.
Write transactions are serialised, so a transaction is one atomic action; it applies
all its statements when `COMMIT` succeeds and none otherwise. A statement outside a
transaction is an action of its own.
-/

namespace Comax.Store

open Comax.Core

/-- What the outside decides for the operations of one action, by their position. -/
structure Moment where
  /-- What the clock reads. -/
  now : ℕ → Int
  /-- Whether the driver reports a failure. -/
  fails : ℕ → Bool

/-- The clock stands still and nothing fails. -/
def Moment.calm (now : Int) : Moment := ⟨fun _ => now, fun _ => false⟩

/-- A connection in the middle of an action. -/
structure Session where
  moment : Moment
  /-- The operations so far. -/
  ops : ℕ
  /-- The database as the connection sees it. -/
  db : Database

/-- Work on a connection that may end early with a result in `ρ`. -/
abbrev Tx (ρ : Type) := StateT Session (Except ρ)

namespace Tx

variable {ρ α : Type}

/-- `time.Now().Unix()` -/
def clock : Tx ρ Int := fun s => .ok (s.moment.now s.ops, { s with ops := s.ops + 1 })

/-- Issue a statement and return what it reports. -/
def attempt (f : Int → Database → Except StoreError (α × Database)) : Tx ρ (Except StoreError α) :=
  fun s =>
    if s.moment.fails s.ops then .ok (.error .other, { s with ops := s.ops + 1 })
    else
      match f (s.moment.now s.ops) s.db with
      | .ok (a, db) => .ok (.ok a, { s with ops := s.ops + 1, db })
      | .error e => .ok (.error e, { s with ops := s.ops + 1 })

/-- Issue a statement and end early when it reports an error. -/
def stmt (refuse : StoreError → ρ) (f : Int → Database → Except StoreError (α × Database)) :
    Tx ρ α := do
  match ← attempt f with
  | .ok a => pure a
  | .error e => throw (refuse e)

/-- A statement that reads. -/
def read (f : Int → Database → Except StoreError α) :
    Int → Database → Except StoreError (α × Database) :=
  fun now db => (f now db).map (·, db)

@[simp] theorem read_eq_ok {f : Int → Database → Except StoreError α} {now : Int}
    {db db' : Database} {a : α} : read f now db = .ok (a, db') ↔ f now db = .ok a ∧ db' = db := by
  unfold read
  cases f now db <;> simp [Except.map, eq_comm]

/-- Reading the clock counts as an operation. -/
@[simp] theorem wp_clock {s : Session} {Q : Int → Session → Prop} {E : ρ → Prop} :
    wp (clock : Tx ρ Int) s Q E ↔ Q (s.moment.now s.ops) { s with ops := s.ops + 1 } := Iff.rfl

/-- A statement either changes the database as it says or leaves it alone. -/
theorem wp_attempt {f : Int → Database → Except StoreError (α × Database)} {s : Session}
    {Q : Except StoreError α → Session → Prop} {E : ρ → Prop}
    (hok : ∀ now a db, f now s.db = .ok (a, db) → Q (.ok a) { s with ops := s.ops + 1, db })
    (herr : ∀ e, Q (.error e) { s with ops := s.ops + 1 }) : wp (attempt f) s Q E := by
  unfold wp attempt
  split
  · rename_i h
    split at h
    · cases h
      exact herr _
    · split at h
      · rename_i hf
        cases h
        exact hok _ _ _ hf
      · cases h
        exact herr _
  · rename_i h
    split at h
    · cases h
    · split at h <;> cases h

/-- A statement that ends early on an error has gone through otherwise. -/
theorem wp_stmt {refuse : StoreError → ρ} {f : Int → Database → Except StoreError (α × Database)}
    {s : Session} {Q : α → Session → Prop}
    (hok : ∀ now a db, f now s.db = .ok (a, db) → Q a { s with ops := s.ops + 1, db }) :
    wp (stmt refuse f) s Q fun _ => True := by
  unfold stmt
  rw [wp_bind]
  exact wp_attempt hok fun _ => trivial

/-- A statement, exactly. -/
theorem wp_attempt_iff {f : Int → Database → Except StoreError (α × Database)} {s : Session}
    {Q : Except StoreError α → Session → Prop} {E : ρ → Prop} :
    wp (attempt f) s Q E ↔
      if s.moment.fails s.ops then Q (.error .other) { s with ops := s.ops + 1 }
      else
        match f (s.moment.now s.ops) s.db with
        | .ok (a, db) => Q (.ok a) { s with ops := s.ops + 1, db }
        | .error e => Q (.error e) { s with ops := s.ops + 1 } := by
  by_cases hfail : s.moment.fails s.ops = true
  · simp only [wp, attempt, hfail, if_true]
  · simp only [wp, attempt, hfail]
    cases f (s.moment.now s.ops) s.db with
    | ok r => exact Iff.rfl
    | error e => exact Iff.rfl

/-- A statement that ends early on an error, exactly. -/
theorem wp_stmt_iff {refuse : StoreError → ρ}
    {f : Int → Database → Except StoreError (α × Database)} {s : Session}
    {Q : α → Session → Prop} {E : ρ → Prop} :
    wp (stmt refuse f) s Q E ↔
      if s.moment.fails s.ops then E (refuse .other)
      else
        match f (s.moment.now s.ops) s.db with
        | .ok (a, db) => Q a { s with ops := s.ops + 1, db }
        | .error e => E (refuse e) := by
  rw [stmt, wp_bind, wp_attempt_iff]
  split
  · exact Iff.rfl
  · cases f (s.moment.now s.ops) s.db with
    | ok r => exact Iff.rfl
    | error e => exact Iff.rfl

/-- A statement relates the database before it to the one after it. -/
def Respects (R : Database → Database → Prop)
    (f : Int → Database → Except StoreError (α × Database)) : Prop :=
  ∀ now db a db', f now db = .ok (a, db') → R db db'

/-- Every run of the body relates the database before it to the one after it. -/
def Keeps (R : Database → Database → Prop) (body : Tx ρ α) : Prop :=
  ∀ s, wp body s (fun _ s' => R s.db s'.db) fun _ => True

section

variable {β : Type} {R : Database → Database → Prop}

/-- A body that does nothing. -/
theorem keeps_pure (hrefl : ∀ db, R db db) (a : α) : Keeps R (pure a : Tx ρ α) :=
  fun s => hrefl s.db

/-- A body that ends early. -/
theorem keeps_throw (r : ρ) : Keeps R (throw r : Tx ρ α) := fun _ => trivial

/-- Reading the clock. -/
theorem keeps_clock (hrefl : ∀ db, R db db) : Keeps R (clock : Tx ρ Int) := fun s => hrefl s.db

/-- One body after another. -/
theorem Keeps.bind (htrans : ∀ x y z, R x y → R y z → R x z) {m : Tx ρ α} {k : α → Tx ρ β}
    (hm : Keeps R m) (hk : ∀ a, Keeps R (k a)) : Keeps R (m >>= k) := by
  intro s
  rw [wp_bind]
  exact wp_mono (hm s) (fun a s' hs => wp_mono (hk a s') (fun _ _ hs' => htrans _ _ _ hs hs')
    fun _ he => he) fun _ he => he

/-- A statement that reads. -/
theorem respects_read (hrefl : ∀ db, R db db) (f : Int → Database → Except StoreError α) :
    Respects R (read f) := by
  intro now db a db' h
  rw [(read_eq_ok.mp h).2]
  exact hrefl db

/-- A statement whose error is handled by the caller. -/
theorem keeps_attempt (hrefl : ∀ db, R db db)
    {f : Int → Database → Except StoreError (α × Database)} (hf : Respects R f) :
    Keeps R (attempt f : Tx ρ _) :=
  fun s => wp_attempt (fun now a db h => hf now s.db a db h) fun _ => hrefl s.db

/-- A statement that ends the body when it reports an error. -/
theorem keeps_stmt {refuse : StoreError → ρ}
    {f : Int → Database → Except StoreError (α × Database)} (hf : Respects R f) :
    Keeps R (stmt refuse f) :=
  fun s => wp_stmt fun now a db h => hf now s.db a db h

end

end Tx

variable {ρ α : Type}

/-- The effect of `BEGIN`, the statements of a body and `COMMIT`. An early end rolls back. -/
def committed (onBegin onCommit : ρ) (body : Tx ρ α) (o : Moment) (db : Database) :
    Except ρ α × Database :=
  if o.fails 0 then (.error onBegin, db)
  else
    match body ⟨o, 1, db⟩ with
    | .error r => (.error r, db)
    | .ok (a, s) => if s.moment.fails s.ops then (.error onCommit, db) else (.ok a, s.db)

/-- A transaction. -/
def transaction (onBegin onCommit : ρ) (body : Tx ρ α) : Prog Database Moment ρ α :=
  .act (committed onBegin onCommit body)

/-- The effect of a statement outside a transaction. -/
def single (f : Int → Database → Except StoreError (α × Database)) (o : Moment) (db : Database) :
    Except ρ (Except StoreError α) × Database :=
  match (Tx.attempt f : Tx ρ _) ⟨o, 0, db⟩ with
  | .error r => (.error r, db)
  | .ok (a, s) => (.ok a, s.db)

/-- A statement outside a transaction. -/
def autocommit (f : Int → Database → Except StoreError (α × Database)) :
    Prog Database Moment ρ (Except StoreError α) :=
  .act (single f)

/-- A statement outside a transaction that ends the program when it reports an error. -/
def autocommitOr (refuse : StoreError → ρ)
    (f : Int → Database → Except StoreError (α × Database)) : Prog Database Moment ρ α := do
  match ← autocommit f with
  | .ok a => pure a
  | .error e => .exit (refuse e)

/-- A transaction either leaves no trace or applies all of its body. -/
theorem committed_cases (onBegin onCommit : ρ) (body : Tx ρ α) (o : Moment) (db : Database) :
    (∃ r, committed onBegin onCommit body o db = (.error r, db)) ∨
      ∃ a s, body ⟨o, 1, db⟩ = .ok (a, s) ∧
        committed onBegin onCommit body o db = (.ok a, s.db) := by
  unfold committed
  split
  · exact .inl ⟨onBegin, rfl⟩
  · cases hb : body ⟨o, 1, db⟩ with
    | error r => exact .inl ⟨r, rfl⟩
    | ok as =>
      obtain ⟨a, s⟩ := as
      by_cases hc : s.moment.fails s.ops
      · exact .inl ⟨onCommit, if_pos hc⟩
      · exact .inr ⟨a, s, rfl, if_neg hc⟩

/-- A transaction leaves the database as it is unless it begins, ends its body in another one
and commits. -/
theorem committed_eq_iff (onBegin onCommit : ρ) (body : Tx ρ α) (o : Moment) (db : Database) :
    (committed onBegin onCommit body o db).2 = db ↔ o.fails 0 = true ∨
      wp body ⟨o, 1, db⟩ (fun _ s => s.moment.fails s.ops = true ∨ s.db = db) fun _ => True := by
  unfold committed wp
  by_cases hbegin : o.fails 0 = true
  · simp [hbegin]
  · cases hbody : body ⟨o, 1, db⟩ with
    | error r => simp [hbegin]
    | ok r =>
      by_cases hcommit : r.2.moment.fails r.2.ops = true
      · simp [hbegin, hcommit]
      · simp [hbegin, hcommit]

variable {R : Database → Database → Prop}

/-- A transaction relates the databases before and after it when its body does. -/
theorem every_transaction (hrefl : ∀ db, R db db) {onBegin onCommit : ρ} {body : Tx ρ α}
    (hbody : ∀ o db, wp body ⟨o, 1, db⟩ (fun _ s => R db s.db) fun _ => True) :
    (transaction onBegin onCommit body).Every R := by
  apply Prog.every_act
  intro o db
  rcases committed_cases onBegin onCommit body o db with ⟨r, h⟩ | ⟨a, s, hb, h⟩
  · rw [h]
    exact hrefl db
  · rw [h]
    exact wp_ok (Q := fun _ s => R db s.db) (hbody o db) hb

/-- A lone statement relates the databases before and after it when it does in a transaction. -/
theorem every_autocommit (hrefl : ∀ db, R db db)
    {f : Int → Database → Except StoreError (α × Database)} (hf : Tx.Respects R f) :
    (autocommit f : Prog Database Moment ρ _).Every R := by
  apply Prog.every_act
  intro o db
  have hkeeps : Tx.Keeps R (Tx.attempt f : Tx ρ _) := Tx.keeps_attempt hrefl hf
  unfold single
  cases hb : (Tx.attempt f : Tx ρ _) ⟨o, 0, db⟩ with
  | error r => exact hrefl db
  | ok as => exact wp_ok (Q := fun _ s => R db s.db) (hkeeps ⟨o, 0, db⟩) hb

/-- See `every_autocommit`. -/
theorem every_autocommitOr (hrefl : ∀ db, R db db) {refuse : StoreError → ρ}
    {f : Int → Database → Except StoreError (α × Database)} (hf : Tx.Respects R f) :
    (autocommitOr refuse f).Every R := by
  refine (every_autocommit hrefl hf).bind fun r => ?_
  cases r <;> trivial

/-- A lookup outside a transaction changes nothing. -/
theorem every_lookup (hrefl : ∀ db, R db db) {refuse : StoreError → ρ}
    {f : Int → Database → Except StoreError α} : (autocommitOr refuse (Tx.read f)).Every R :=
  every_autocommitOr hrefl (Tx.respects_read hrefl f)

/-- A lookup leaves the database as it is. -/
theorem single_read_state (f : Int → Database → Except StoreError α) (o : Moment) (db : Database) :
    (single (Tx.read f) o db : Except ρ _ × _).2 = db := by
  have hevery : (autocommit (Tx.read f) : Prog Database Moment ρ _).Every Eq :=
    every_autocommit (fun _ => rfl) (Tx.respects_read (fun _ => rfl) f)
  exact (hevery.1 o db).symm

/-- A lookup that goes through finds its answer in the database it meets. -/
theorem single_read {f : Int → Database → Except StoreError α} {o : Moment} {db : Database} {a : α}
    (h : (single (Tx.read f) o db : Except ρ _ × _).1 = .ok (.ok a)) : f (o.now 0) db = .ok a := by
  unfold single Tx.attempt at h
  by_cases hf : o.fails 0
  · simp [hf] at h
  · cases hr : Tx.read f (o.now 0) db with
    | error e => simp [hf, hr] at h
    | ok r =>
      simp only [hf, hr] at h
      cases h
      exact (Tx.read_eq_ok.mp hr).1

/-- A lookup that returns found its answer in the database it met. -/
theorem ends_lookup {refuse : StoreError → ρ} {f : Int → Database → Except StoreError α}
    {xs : List (Moment × Database)} {a : α} (h : (autocommitOr refuse (Tx.read f)).Ends xs a) :
    ∃ x, xs = [x] ∧ f (x.1.now 0) x.2 = .ok a := by
  obtain ⟨ys, zs, r, rfl, hact, hend⟩ := h.of_bind
  obtain ⟨x, rfl, hx⟩ := hact.of_act
  cases r with
  | error e => cases hend
  | ok b =>
    cases hend
    exact ⟨x, rfl, single_read hx⟩

section

variable {refuse : StoreError → ρ} {f : Int → Database → Except StoreError α} {o : Moment}
  {db : Database} (hfail : o.fails 0 = false)
include hfail

/-- A lookup whose statement is not reported to fail, run on its own. -/
theorem alone_lookup : (autocommitOr refuse (Tx.read f)).alone o db =
    ((f (o.now 0) db).mapError refuse, db) := by
  have hsingle : (autocommit (Tx.read f) : Prog Database Moment ρ _).alone o db =
      (.ok (f (o.now 0) db), db) := by
    rw [autocommit, Prog.alone_act]
    cases hf : f (o.now 0) db <;> simp [single, Tx.attempt, Tx.read, hfail, hf, Except.map]
  refine (Prog.alone_bind hsingle _).trans ?_
  cases f (o.now 0) db <;> rfl

/-- A lookup that finds what it looks for, run on its own. -/
theorem alone_lookup_ok {a : α} (h : f (o.now 0) db = .ok a) :
    (autocommitOr refuse (Tx.read f)).alone o db = (.ok a, db) := by
  rw [alone_lookup hfail, h]
  rfl

/-- A lookup that misses, run on its own. -/
theorem alone_lookup_error {e : StoreError} (h : f (o.now 0) db = .error e) :
    (autocommitOr refuse (Tx.read f)).alone o db = (.error (refuse e), db) := by
  rw [alone_lookup hfail, h]
  rfl

end

variable {L : Database → Database → Prop} {db : Database}

/-- A lookup reports what it finds in a later database, or an error. -/
theorem meets_read (hrefl : ∀ db, R db db) {f : Int → Database → Except StoreError α}
    {Q : Except StoreError α → Database → Prop}
    (hok : ∀ now db' a, L db db' → f now db' = .ok a → Q (.ok a) db')
    (herror : ∀ e db', L db db' → Q (.error e) db') :
    (autocommit (Tx.read f) : Prog Database Moment ρ _).Meets L R db Q := by
  apply Prog.meets_act
  intro o db' hl
  rw [single_read_state]
  refine ⟨hrefl db', fun r hr => ?_⟩
  cases r with
  | ok a => exact hok _ db' a hl (single_read hr)
  | error e => exact herror e db' hl

/-- A lookup finds its answer in a later database. -/
theorem meets_lookup (hrefl : ∀ db, R db db) {refuse : StoreError → ρ}
    {f : Int → Database → Except StoreError α} {Q : α → Database → Prop}
    (h : ∀ now db' a, L db db' → f now db' = .ok a → Q a db') :
    (autocommitOr refuse (Tx.read f)).Meets L R db Q :=
  Prog.Meets.bind (meets_read hrefl h fun _ _ _ => trivial)

/-- A transaction runs its body on a later database. -/
theorem meets_transaction (hrefl : ∀ db, R db db) {onBegin onCommit : ρ} {body : Tx ρ α}
    (h : ∀ o db', L db db' → wp body ⟨o, 1, db'⟩ (fun _ s => R db' s.db) fun _ => True) :
    (transaction onBegin onCommit body).Meets L R db fun _ _ => True := by
  apply Prog.meets_act
  intro o db' hl
  refine ⟨?_, fun _ _ => trivial⟩
  rcases committed_cases onBegin onCommit body o db' with ⟨r, hc⟩ | ⟨a, s, hb, hc⟩
  · rw [hc]
    exact hrefl db'
  · rw [hc]
    exact wp_ok (Q := fun _ s => R db' s.db) (h o db' hl) hb

variable {Q : α → Database → Prop} {E : Database → Prop}

/-- A lone statement either changes the database as it says or leaves it alone. -/
theorem leaves_autocommit {f : Int → Database → Except StoreError (α × Database)}
    {Q : Except StoreError α → Database → Prop}
    (hok : ∀ now a db', f now db = .ok (a, db') → Q (.ok a) db') (herror : ∀ e, Q (.error e) db) :
    (autocommit f : Prog Database Moment ρ _).Leaves db Q E := by
  intro o
  have hattempt : wp (Tx.attempt f : Tx ρ _) ⟨o, 0, db⟩ (fun r s => Q r s.db) fun _ => False :=
    Tx.wp_attempt (fun now a db' h => hok now a db' h) herror
  unfold single
  cases hb : (Tx.attempt f : Tx ρ _) ⟨o, 0, db⟩ with
  | error r => exact (wp_error hattempt hb).elim
  | ok as =>
    refine ⟨fun b hr => ?_, fun r hr => by cases hr⟩
    cases hr
    exact wp_ok (Q := fun r s => Q r s.db) hattempt hb

/-- A lookup finds its answer or ends the program. -/
theorem leaves_lookup {refuse : StoreError → ρ} {f : Int → Database → Except StoreError α}
    (hE : E db) (h : ∀ now a, f now db = .ok a → Q a db) :
    (autocommitOr refuse (Tx.read f)).Leaves db Q E := by
  apply Prog.Leaves.bind
  apply leaves_autocommit
  · intro now a db' hread
    obtain ⟨hread, rfl⟩ := Tx.read_eq_ok.mp hread
    exact h now a hread
  · exact fun e => hE

/-- A transaction leaves the database alone or applies all of its body. -/
theorem leaves_transaction {onBegin onCommit : ρ} {body : Tx ρ α} (hE : E db)
    (h : ∀ o, wp body ⟨o, 1, db⟩ (fun a s => Q a s.db) fun _ => True) :
    (transaction onBegin onCommit body).Leaves db Q E := by
  intro o
  rcases committed_cases onBegin onCommit body o db with ⟨r, hc⟩ | ⟨a, s, hb, hc⟩
  · rw [hc]
    exact ⟨fun b hr => (by cases hr), fun _ _ => hE⟩
  · rw [hc]
    refine ⟨fun b hr => ?_, fun r hr => by cases hr⟩
    cases hr
    exact wp_ok (Q := fun a s => Q a s.db) (h o) hb

end Comax.Store
