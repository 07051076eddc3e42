import Comax.Cli.Diff
import Comax.Cli.Pull
import Comax.Server.Secrets

/-!
# What a pull brings back

A value that was put, as the file of a later pull has it: it goes through the list of the
environment, the client's map and the emitter, and is read with the parser.
-/

namespace Comax.Cli

open Comax.Core Comax.Store Comax.Secret Comax.Server Comax.Webhook

/-- Every listed secret makes a line that the parser reads. -/
def Emittable (views : List SecretView) : Prop :=
  ∀ view ∈ views, validKey view.key = true ∧
    lineLength view.key (Json.coerced view.value) < maxScanTokenSize

section

variable {views : List SecretView} (hviews : Emittable views)
  (hsorted : views.Pairwise fun a b => a.key < b.key)
include hviews

/-- The client reads the keys as they are. -/
theorem received_of_emittable :
    Diff.received views = views.map fun view => (view.key, Json.coerced view.value) := by
  refine List.map_congr_left fun view hview => ?_
  have hutf8 : IsUtf8 view.key :=
    isUtf8_ascii fun c hc => ((plain_of_validKey (hviews view hview).1).bytes c hc).2.1
  rw [Json.coerced_eq_self_iff.mpr hutf8]

include hsorted

/-- The map of the pull has the listed secrets. -/
theorem entries_received :
    (pullEntries (Diff.received views)).entries =
      views.map fun view => (view.key, Json.coerced view.value) := by
  rw [received_of_emittable hviews]
  apply entries_pullEntries
  rw [List.map_map]
  refine List.pairwise_map.mpr (hsorted.imp fun {a b} hlt heq => ?_)
  have hkey : a.key = b.key := heq
  rw [hkey] at hlt
  exact List.lt_irrefl _ hlt

/-- A pull that succeeds leaves a file that is read, with every listed secret in it. -/
theorem read_pull {os : ℕ → Call} {files files' : Files}
    (hpull : (pull (Diff.received views)).outcome os files = (.ok (), files')) :
    ∃ text es, files'.target = some text ∧ parse text = .ok es ∧
      ∀ view ∈ views, ∃ entry ∈ es, entry.key = view.key ∧
        ∃ n, entry.value = restored (n + 1) (Json.coerced view.value) := by
  have hentries := entries_received hviews hsorted
  have hscannable : (pullEntries (Diff.received views)).Scannable := by
    refine ⟨fun p hp => ?_, fun p hp => ?_⟩
    · rw [hentries] at hp
      obtain ⟨view, hview, rfl⟩ := List.mem_map.mp hp
      exact (hviews view hview).1
    · rw [hentries] at hp
      obtain ⟨view, hview, rfl⟩ := List.mem_map.mp hp
      rw [length_emitLine]
      exact (hviews view hview).2
  obtain ⟨es, hparse, -, hpairs⟩ := Vars.parse_emit_pairs hscannable
  refine ⟨_, es, (leaves_pull _ files).outcome_ok hpull, hparse, fun view hview => ?_⟩
  have hwritten : (view.key, Json.coerced view.value) ∈
      (pullEntries (Diff.received views)).written := by
    rw [Vars.written_perm.mem_iff, hentries]
    exact List.mem_map_of_mem hview
  have hpair := List.mem_map_of_mem (f := fun p : Str × Str =>
    (p.1, restored (emitLine p.1 p.2).length p.2)) hwritten
  rw [← hpairs] at hpair
  obtain ⟨entry, hentry, heq⟩ := List.mem_map.mp hpair
  obtain ⟨hkey, hvalue⟩ := Prod.mk.inj heq
  refine ⟨entry, hentry, hkey, view.key.length + (formatValue (Json.coerced view.value)).length, ?_⟩
  rw [hvalue, emitLine, List.length_append, List.length_cons, Nat.add_assoc]

end

/-- What a file shows for a version of a key that was written: the row of the key has this version
or a later one, and the file has an entry for it unless it is deleted; while it has this version,
the entry has the value as it was written, if that is UTF-8 without references that is quoted or
does not end in white space. -/
def FileShows (p e k : Str) (version : Int) (value : Str) (es : List Entry) (db : Database) :
    Prop :=
  ∃ project env sec, Located p e project env db ∧
    SecretRepo.byKeyAny env.id k db = .ok sec ∧ version ≤ sec.version ∧
    (sec.deletedAt = none → ∃ entry ∈ es, entry.key = k ∧
      (sec.version = version → findReferences value = [] → IsUtf8 value →
        (needsQuoting value = true ∨ endsInSpace value = false) → entry.value = value))

/-- In every run of the server: when an environment is listed after some of its keys were written
by requests that have been answered, and a pull succeeds with that list, the file that it leaves
is read by the parser and shows every such write as the rows are in one of the states that the
list met, whatever other requests commit meanwhile and however the calls on the file system go. -/
theorem pull_shows_writes (srv : Server) (hgcm : srv.gcm.Lawful)
    {s : Shared Request Moment Database} (h : (srv.system (· = .empty)).Reachable s)
    (rq : Request) {master : Str} (hmaster : rq.inputs.masterKey = some master) (fuel : ℕ)
    (order : MapOrder) {p e : Str} {xs : List (Moment × Database)} {views : List SecretView}
    (hlist : (srv.handleListSecrets rq fuel order p e).Ends xs views)
    (hxs : ∀ x ∈ xs, ∃ s', (srv.system (· = .empty)).Leads (fun _ _ => True) s s' ∧
      x.2 = s'.state)
    (hviews : Emittable views) {os : ℕ → Call} {files files' : Files}
    (hpull : (pull (Diff.received views)).outcome os files = (.ok (), files')) :
    ∃ text es, files'.target = some text ∧ parse text = .ok es ∧
      ∃ x ∈ xs, ∀ k version value, srv.ServedWrite s master p e k version value →
        FileShows p e k version value es x.2 := by
  obtain ⟨text, es, htext, hparse, hread⟩ := read_pull hviews (sorted_of_list srv hlist) hpull
  obtain ⟨x, hx, hshown⟩ := list_shows_writes srv hgcm h rq hmaster fuel order hlist hxs
  refine ⟨text, es, htext, hparse, x, hx, fun k version value hwrite => ?_⟩
  obtain ⟨project, env, sec, hloc, hrow, hversion, hlive⟩ := hshown k version value hwrite
  refine ⟨project, env, sec, hloc, hrow, hversion, fun hnone => ?_⟩
  obtain ⟨view, hview, hkey, -, -, -, hvalue⟩ := hlive hnone
  obtain ⟨entry, hentry, hsame, n, hrestored⟩ := hread view hview
  refine ⟨entry, hentry, hsame.trans hkey, fun hcurrent hplain hutf8 hkept => ?_⟩
  rw [hrestored, hvalue hcurrent hplain, Json.coerced_eq_self_iff.mpr hutf8]
  exact (Vars.restored_eq_iff n value).mpr hkept

set_option maxRecDepth 4000 in
/-- After a PUT, a DELETE and a PUT of `b` the file has `b`. -/
theorem pull_shows_writes_putDeletePut : ∃ s text es,
    (plainServer.system (· = .empty)).run putDeletePut ⟨.empty, fun _ => none⟩ = some s ∧
      parse text = .ok es ∧ FileShows (ascii "p") (ascii "e") (ascii "k") 2 (ascii "b") es
        s.state := by
  have hrun : ((plainServer.system (· = .empty)).run putDeletePut ⟨.empty, fun _ => none⟩).any
      (fun s => ((s.procs 5).any fun proc =>
        proc.name.route = .putSecret (ascii "p") (ascii "e") (ascii "k") &&
        (proc.name.inputs.nonce = some (List.replicate Crypto.nonceSize 0) &&
          proc.name.inputs.masterKey = some Crypto.plainKey) &&
        plainServer.served proc =
          some (writeOK 200 (.secret 1 (ascii "k") (ascii "b") 2 15))) &&
        ((plainServer.handleListSecrets (bearerRequest .get [] noFields) 3 .plain (ascii "p")
          (ascii "e")).resume (List.replicate 4 (.calm 20, s.state))).returned.any
            fun views => views.all fun view => validKey view.key &&
              decide (lineLength view.key (Json.coerced view.value) < maxScanTokenSize)) =
        true := by
    decide +kernel
  obtain ⟨s, hs, hreach, htest⟩ := exists_reachable hrun
  obtain ⟨hproc, htest⟩ := Bool.and_eq_true_iff.mp htest
  obtain ⟨proc, hp, hproc⟩ := (Option.any_eq_true _ _).mp hproc
  simp only [Bool.and_eq_true, decide_eq_true_eq] at hproc
  obtain ⟨⟨hroute, hnonce, hmaster⟩, hserved⟩ := hproc
  obtain ⟨xs, views, hends, hxs, hall⟩ := exists_ends htest
  have hviews : Emittable views := by
    intro view hview
    have hfits := List.all_eq_true.mp hall view hview
    rwa [Bool.and_eq_true, decide_eq_true_eq] at hfits
  have hwrite : plainServer.ServedWrite s Crypto.plainKey (ascii "p") (ascii "e") (ascii "k") 2
      (ascii "b") := by
    refine ⟨5, proc, 200, 1, ascii "k", 15, hp, .inl hroute, fun nonce hn => ?_, hmaster, hserved⟩
    rw [hnonce, Option.mem_some_iff] at hn
    rw [← hn, List.length_replicate]
  obtain ⟨files, hpull, -⟩ := outcome_pull_working (Diff.received views) ⟨none, none⟩
  obtain ⟨text, es, -, hparse, x, hx, hshows⟩ := pull_shows_writes plainServer
    Crypto.plainGCM_lawful hreach (bearerRequest .get [] noFields) rfl 3 .plain hends
    (fun x hx => ⟨s, .refl, by rw [hxs x hx]⟩) hviews hpull
  have hfile := hshows _ _ _ hwrite
  rw [hxs x hx] at hfile
  exact ⟨s, text, es, hs, hparse, hfile⟩

end Comax.Cli
