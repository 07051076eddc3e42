import Comax.Core.Cursor
import Comax.Server.Router
import Comax.Store.AuditLog

/-!
# Pages of the audit log

`handleListAudit` answers with the newest rows and, after a full page, with the identifier of
its last row; the next request asks for the rows below it. The order is by time and then by
identifier, the cursor is the identifier alone.
-/

namespace Comax.Server

open Comax.Core Comax.Store

/-- The query parameters of `handleListAudit`, empty when absent. -/
structure AuditQuery where
  project : Str
  env : Str
  action : Str
  actor : Str
  before : Str
  limit : Str

/-- The answer: the views, which hold all fields of their entries, and the `auditMeta`. -/
structure AuditPage where
  views : List AuditEntry
  /-- `next_before`, which is left out when it is zero. -/
  nextBefore : Int
  limit : ℕ
  deriving DecidableEq

/-- `auditDefaultLimit` -/
def auditDefaultLimit : Int := 50

/-- `auditMaxLimit` -/
def auditMaxLimit : ℕ := 200

/-- A parameter that is a positive integer when it is given. -/
def positive (name text : Str) : Except Response (Option Int) :=
  if text = [] then .ok none
  else
    match parseInt64 text with
    | none => .error (badRequest (name ++ ascii " must be a positive integer"))
    | some v =>
      if v ≤ 0 then .error (badRequest (name ++ ascii " must be a positive integer"))
      else .ok (some v)

/-- A parameter that is a name when it is given. -/
def optionalName (srv : Server) (field : String) (value : Str) : Except Response Unit :=
  if value = [] then .ok () else (validateName srv field value).mapError httpError

/-- The checks of `handleListAudit`: the filter and the limit of a query. -/
def AuditQuery.filter (srv : Server) (q : AuditQuery) : Except Response (AuditFilter × ℕ) := do
  optionalName srv "project" q.project
  optionalName srv "env" q.env
  let actor ← positive (ascii "actor") q.actor
  let before ← positive (ascii "before") q.before
  let limit ← positive (ascii "limit") q.limit
  return (⟨q.project, q.env, q.action, actor, before.getD 0⟩,
    min (limit.getD auditDefaultLimit).toNat auditMaxLimit)

/-- The page of some entries. -/
def AuditPage.of (entries : List AuditEntry) (limit : ℕ) : AuditPage :=
  ⟨entries,
    if entries.length = limit then (entries.getLast?.map AuditEntry.id).getD 0 else 0, limit⟩

/-- `handleListAudit` -/
def handleListAudit (srv : Server) (q : AuditQuery) : Handler AuditPage := do
  let (filter, limit) ← Prog.lift (q.filter srv)
  let entries ← autocommitOr storeError (Tx.read fun _ => AuditRepo.list filter limit)
  return AuditPage.of entries limit

/-- The answer to a query while nothing else happens and no statement fails. -/
def auditPage (srv : Server) (q : AuditQuery) (db : Database) : Except Response AuditPage :=
  ((handleListAudit srv q).alone (.calm 0) db).1

/-- Following `next_before` from a query until it is absent, and the rows on the way. -/
inductive Walk (srv : Server) (db : Database) : AuditQuery → List AuditEntry → Prop
  | last {q : AuditQuery} {page : AuditPage} (h : auditPage srv q db = .ok page)
      (hlast : page.nextBefore = 0) : Walk srv db q page.views
  | next {q : AuditQuery} {page : AuditPage} {rest : List AuditEntry}
      (h : auditPage srv q db = .ok page) (hnext : page.nextBefore ≠ 0)
      (hrest : Walk srv db { q with before := formatInt page.nextBefore } rest) :
      Walk srv db q (page.views ++ rest)

/-- The audit logs that calls of `Append` write, at any times. SQLite has no row past the largest
64-bit identifier. -/
inductive Appended : Database → Prop
  | start {db : Database} (h : db.auditLog.rows = []) : Appended db
  | append {db db' : Database} {e : AuditEntry} {actorToken : Option Int}
      {action target metadata : Str} {now : Int} (hdb : Appended db)
      (h : AuditRepo.append actorToken action target metadata now db = .ok (e, db'))
      (hid : e.id < 2 ^ 63) : Appended db'

/-- The rows that match a filter, newest first. -/
def matching (f : AuditFilter) (db : Database) : List AuditEntry :=
  (db.auditLog.rows.filter f.accepts).insertionSort Newer

/-- Identifiers are positive 64-bit integers and ascend. -/
theorem Appended.ids {db : Database} (h : Appended db) :
    (∀ e ∈ db.auditLog.rows, 0 < e.id ∧ e.id < 2 ^ 63) ∧
      db.auditLog.rows.Pairwise fun a b => a.id < b.id := by
  induction h with
  | start h =>
    rw [h]
    exact ⟨by simp, List.Pairwise.nil⟩
  | @append db db' e actorToken action target metadata now _ h hid ih =>
    obtain ⟨hbounds, hascend⟩ := ih
    obtain ⟨he, t, hins, rfl⟩ := AuditRepo.append_eq_ok h
    obtain ⟨-, hrows⟩ := Table.insert_eq_some.mp hins
    have hnext : e.id = db.auditLog.nextId := by rw [he]
    have hlarger : ∀ x ∈ db.auditLog.rows, x.id < e.id := fun x hx =>
      hnext ▸ db.auditLog.lt_nextId hx
    have hpos : 0 < e.id := by
      cases hr : db.auditLog.rows with
      | nil =>
        rw [hnext, Table.nextId, hr]
        decide
      | cons x rows =>
        have hx : x ∈ db.auditLog.rows := hr ▸ List.mem_cons_self
        exact (hbounds x hx).1.trans (hlarger x hx)
    simp only [hrows]
    refine ⟨fun x hx => ?_, List.pairwise_append.mpr
      ⟨hascend, List.pairwise_singleton _ _, fun x hx y hy => ?_⟩⟩
    · rcases List.mem_append.mp hx with hx | hx
      · exact hbounds x hx
      · rw [List.mem_singleton.mp hx]
        exact ⟨hpos, hid⟩
    · rw [List.mem_singleton.mp hy]
      exact hlarger x hx

section Query

variable {srv : Server} {q : AuditQuery} {f : AuditFilter} {limit : ℕ}

/-- The answer to an accepted query. -/
theorem auditPage_eq (hq : q.filter srv = .ok (f, limit)) (db : Database) :
    auditPage srv q db = .ok (AuditPage.of ((matching f db).take limit) limit) := by
  have hlift :
      (Prog.lift (q.filter srv) : Handler _).alone (.calm 0) db = (.ok (f, limit), db) := by
    rw [Prog.alone_lift, hq]
  rw [auditPage, handleListAudit, Prog.alone_bind hlift]
  simp only
  rw [Prog.alone_bind (alone_lookup_ok rfl rfl)]
  rfl

/-- A parameter that is accepted is positive. -/
theorem positive_eq_ok {name text : Str} {v : Option Int} (h : positive name text = .ok v) :
    ∀ n ∈ v, 0 < n := by
  rw [positive] at h
  split_ifs at h
  · cases h
    simp
  · cases hv : parseInt64 text with
    | none =>
      rw [hv] at h
      cases h
    | some n =>
      simp only [hv] at h
      split_ifs at h with hn
      cases h
      simpa using hn

/-- The limit of an accepted query is positive. -/
theorem limit_pos (hq : q.filter srv = .ok (f, limit)) : 0 < limit := by
  unfold AuditQuery.filter at hq
  obtain ⟨_, -, hq⟩ := bind_eq_ok.mp hq
  obtain ⟨_, -, hq⟩ := bind_eq_ok.mp hq
  obtain ⟨actor, -, hq⟩ := bind_eq_ok.mp hq
  obtain ⟨before, -, hq⟩ := bind_eq_ok.mp hq
  obtain ⟨v, hv, hq⟩ := bind_eq_ok.mp hq
  cases hq
  have hpos : 0 < v.getD auditDefaultLimit := by
    cases v with
    | none => decide
    | some n => exact positive_eq_ok hv n rfl
  simp only [auditMaxLimit]
  omega

/-- The next query has the same filter, below the cursor. -/
theorem filter_next (hq : q.filter srv = .ok (f, limit)) {b : Int} (hpos : 0 < b)
    (hlt : b < 2 ^ 63) :
    ({ q with before := formatInt b } : AuditQuery).filter srv =
      .ok ({ f with beforeID := b }, limit) := by
  have hne : formatInt b ≠ [] := by
    intro he
    have := parseInt64_formatInt hpos hlt
    rw [he] at this
    cases this
  have hbefore : positive (ascii "before") (formatInt b) = .ok (some b) := by
    rw [positive, if_neg hne, parseInt64_formatInt hpos hlt]
    simp only
    rw [if_neg (not_le.mpr hpos)]
  unfold AuditQuery.filter at hq ⊢
  obtain ⟨_, hproject, hq⟩ := bind_eq_ok.mp hq
  obtain ⟨_, henv, hq⟩ := bind_eq_ok.mp hq
  obtain ⟨actor, hactor, hq⟩ := bind_eq_ok.mp hq
  obtain ⟨before, -, hq⟩ := bind_eq_ok.mp hq
  obtain ⟨v, hv, hq⟩ := bind_eq_ok.mp hq
  cases hq
  simp only [hproject, henv, hactor, hbefore, hv]
  rfl

end Query

/-- A row that matches is accepted. -/
theorem mem_matching {f : AuditFilter} {db : Database} {e : AuditEntry} (h : e ∈ matching f db) :
    e ∈ db.auditLog.rows ∧ f.accepts e = true :=
  List.mem_filter.mp ((List.perm_insertionSort _ _).mem_iff.mp h)

/-- The rows that match a filter below a cursor are those below it of the rows that match. -/
theorem matching_below {f : AuditFilter} {db : Database} {b : Int} (hpos : 0 < b)
    (hb : f.beforeID ≤ 0 ∨ b ≤ f.beforeID) :
    matching { f with beforeID := b } db = (matching f db).filter fun e => e.id < b := by
  have hfilter : db.auditLog.rows.filter ({ f with beforeID := b } : AuditFilter).accepts =
      (db.auditLog.rows.filter f.accepts).filter fun e => e.id < b := by
    rw [List.filter_filter]
    refine List.filter_congr fun e _ => ?_
    have hcursor : (decide (b ≤ 0) || decide (e.id < b)) =
        (decide (e.id < b) && (decide (f.beforeID ≤ 0) || decide (e.id < f.beforeID))) := by
      rw [Bool.eq_iff_iff]
      simp only [Bool.or_eq_true, Bool.and_eq_true, decide_eq_true_eq]
      omega
    simp only [AuditFilter.accepts, hcursor]
    exact Bool.and_left_comm _ _ _
  have hperm : (matching { f with beforeID := b } db).Perm
      ((matching f db).filter fun e => e.id < b) := by
    rw [matching, hfilter, matching]
    exact (List.perm_insertionSort _ _).trans ((List.perm_insertionSort _ _).symm.filter _)
  refine hperm.eq_of_pairwise (fun x y hx hy hxy hyx => ?_) (List.pairwise_insertionSort _ _)
    ((List.pairwise_insertionSort _ _).filter _)
  have hid : x.id = y.id := by
    unfold Newer at hxy hyx
    omega
  exact db.auditLog.eq_of_id_eq (mem_matching hx).1 (mem_matching (List.mem_of_mem_filter hy)).1 hid

/-- Following the cursors reads the pages of the rows that match. -/
theorem walk_of_pages {srv : Server} {db : Database} (hdb : Appended db) {limit : ℕ}
    {l out : List AuditEntry} (h : Pages AuditEntry.id limit l out) {q : AuditQuery}
    {f : AuditFilter} (hq : q.filter srv = .ok (f, limit)) (hl : l = matching f db) :
    Walk srv db q out := by
  induction h generalizing q f with
  | @last l h =>
    have hpage := auditPage_eq hq db
    rw [← hl, List.take_of_length_le h.le, AuditPage.of, if_neg h.ne] at hpage
    exact .last hpage rfl
  | @next a c out x ha hrest ih =>
    have htake : (a ++ x :: c).take limit = a ++ [x] := by
      rw [List.append_cons, List.take_left' (by simpa using ha)]
    have hpage := auditPage_eq hq db
    rw [← hl, htake, AuditPage.of, if_pos (by simpa using ha), List.getLast?_concat] at hpage
    have hx : x ∈ matching f db := by
      rw [← hl]
      simp
    obtain ⟨hrow, haccept⟩ := mem_matching hx
    obtain ⟨hpos, hlt⟩ := hdb.ids.1 x hrow
    have hbelow : f.beforeID ≤ 0 ∨ x.id ≤ f.beforeID := by
      simp only [AuditFilter.accepts, Bool.and_eq_true, Bool.or_eq_true, decide_eq_true_eq]
        at haccept
      omega
    have hwalk := ih (filter_next hq hpos hlt) (by rw [hl, matching_below hpos hbelow])
    rw [List.append_cons]
    exact .next hpage hpos.ne' hwalk

/-- The identifiers of the rows that match are distinct. -/
theorem nodup_matching (f : AuditFilter) (db : Database) :
    ((matching f db).map AuditEntry.id).Nodup := by
  have hrows : (db.auditLog.rows.map AuditEntry.id).Nodup := db.auditLog.nodup_id
  have hperm := (List.perm_insertionSort Newer (db.auditLog.rows.filter f.accepts)).map
    AuditEntry.id
  exact hperm.nodup_iff.mpr (hrows.sublist (List.filter_sublist.map _))

/-- There is one way to follow the cursors. -/
theorem Walk.unique {srv : Server} {db : Database} {q : AuditQuery} {vs ws : List AuditEntry}
    (h : Walk srv db q vs) (h' : Walk srv db q ws) : vs = ws := by
  induction h generalizing ws with
  | last h hlast =>
    cases h' with
    | last h' _ =>
      rw [h] at h'
      cases h'
      rfl
    | next h' hnext _ =>
      rw [h] at h'
      cases h'
      exact absurd hlast hnext
  | next h hnext _ ih =>
    cases h' with
    | last h' hlast =>
      rw [h] at h'
      cases h'
      exact absurd hlast hnext
    | next h' _ hrest' =>
      rw [h] at h'
      cases h'
      rw [ih hrest']

/-- The walk ends, and what it visits are the rows that match, newest first and once each. -/
def Complete (srv : Server) (q : AuditQuery) (f : AuditFilter) (db : Database) : Prop :=
  (∃ vs, Walk srv db q vs) ∧ ∀ vs, Walk srv db q vs → vs = matching f db

/-- The walk is complete exactly when, at the end of every full page of the rows that match, the
rows before it have larger identifiers and the rows after it smaller ones. A query without a
cursor has the filter with `beforeID = 0`, which every row passes. -/
theorem complete_iff {srv : Server} {db : Database} (hdb : Appended db) {q : AuditQuery}
    {f : AuditFilter} {limit : ℕ} (hq : q.filter srv = .ok (f, limit)) :
    Complete srv q f db ↔ CursorsSplit AuditEntry.id limit (matching f db) := by
  obtain ⟨out, hpages⟩ : ∃ out, Pages AuditEntry.id limit (matching f db) out :=
    exists_pages (limit_pos hq) _
  have hwalk := walk_of_pages hdb hpages hq rfl
  rw [← hpages.eq_iff (nodup_matching f db)]
  exact ⟨fun h => h.2 out hwalk, fun h => ⟨⟨out, hwalk⟩, fun vs hvs => (hvs.unique hwalk).trans h⟩⟩

/-- Under a clock that does not step back every walk is complete. -/
theorem cursorsSplit_of_clock {db : Database} (hdb : Appended db)
    (hclock : db.auditLog.rows.Pairwise fun a b => a.createdAt ≤ b.createdAt) (f : AuditFilter)
    (limit : ℕ) : CursorsSplit AuditEntry.id limit (matching f db) := by
  apply cursorsSplit_of_pairwise
  have hagree : ∀ a ∈ db.auditLog.rows, ∀ b ∈ db.auditLog.rows, a.id < b.id →
      a.createdAt ≤ b.createdAt := by
    intro a ha b hb hlt
    obtain ⟨i, hi, rfl⟩ := List.getElem_of_mem ha
    obtain ⟨j, hj, rfl⟩ := List.getElem_of_mem hb
    rcases lt_trichotomy i j with hij | rfl | hij
    · exact List.pairwise_iff_getElem.mp hclock i j hi hj hij
    · exact le_rfl
    · exact absurd hlt (not_lt.mpr (List.pairwise_iff_getElem.mp hdb.ids.2 j i hj hi hij).le)
  have hsorted : (matching f db).Pairwise Newer := List.pairwise_insertionSort _ _
  have hapart : (matching f db).Pairwise fun a b => a.id ≠ b.id :=
    List.pairwise_map.mp (nodup_matching f db)
  refine (hsorted.and hapart).imp_of_mem fun {a b} ha hb h => ?_
  have hup := hagree a (mem_matching ha).1 b (mem_matching hb).1
  obtain ⟨hnewer, hne⟩ := h
  unfold Newer at hnewer
  by_contra hle
  have hlt : a.id < b.id := lt_of_le_of_ne (not_lt.mp hle) hne
  have := hup hlt
  omega

/-- A system event at a time. -/
def event (id createdAt : Int) : AuditEntry :=
  ⟨id, none, ascii "server.boot", ascii "version=dev", [], createdAt⟩

/-- The log with one event. -/
def oneEvent : Database :=
  { Database.empty with auditLog := ⟨[event 1 100], List.pairwise_singleton _ _⟩ }

/-- The log with a second event, written after the clock was stepped back. -/
def steppedBack : Database :=
  { Database.empty with auditLog := ⟨[event 1 100, event 2 50], by decide⟩ }

/-- Both events are written by `Append`. -/
theorem appended_steppedBack : Appended steppedBack := by
  have hfirst : AuditRepo.append none (ascii "server.boot") (ascii "version=dev") [] 100
      Database.empty = .ok (event 1 100, oneEvent) := rfl
  have hsecond : AuditRepo.append none (ascii "server.boot") (ascii "version=dev") [] 50
      oneEvent = .ok (event 2 50, steppedBack) := rfl
  exact .append (.append (.start rfl) hfirst (by decide)) hsecond (by decide)

/-- A query for pages of one row. -/
def oneByOne : AuditQuery := ⟨[], [], [], [], [], ascii "1"⟩

/-- The filter of the query. -/
theorem filter_oneByOne (srv : Server) :
    oneByOne.filter srv = .ok (⟨[], [], [], none, 0⟩, 1) := rfl

/-- The walk over the two events is complete exactly when their identifiers split. -/
theorem complete_iff_steppedBack :
    Complete plainServer oneByOne ⟨[], [], [], none, 0⟩ steppedBack ↔
      CursorsSplit AuditEntry.id 1 (matching ⟨[], [], [], none, 0⟩ steppedBack) :=
  complete_iff appended_steppedBack (filter_oneByOne _)

/-- The first page ends with the newest row, whose identifier is the smallest one. -/
theorem not_complete_steppedBack : Appended steppedBack ∧
    oneByOne.filter plainServer = .ok (⟨[], [], [], none, 0⟩, 1) ∧
      Walk plainServer steppedBack oneByOne [event 1 100] ∧
        ¬Complete plainServer oneByOne ⟨[], [], [], none, 0⟩ steppedBack := by
  have hmatching : matching ⟨[], [], [], none, 0⟩ steppedBack = [event 1 100, event 2 50] := by
    decide +kernel
  have hpages : Pages AuditEntry.id 1 [event 1 100, event 2 50] [event 1 100] :=
    .next (a := []) rfl (.last (by decide))
  have hwalk := walk_of_pages appended_steppedBack hpages (filter_oneByOne plainServer)
    hmatching.symm
  refine ⟨appended_steppedBack, filter_oneByOne _, hwalk, fun h => ?_⟩
  have hall := h.2 _ hwalk
  rw [hmatching] at hall
  cases hall

end Comax.Server
