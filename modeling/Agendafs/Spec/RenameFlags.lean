import Agendafs.Spec.Failures

/-!
# The flags of rename

`RENAME_NOREPLACE` and `RENAME_EXCHANGE` say that the note at the new path has to
stay. `fuse_rename` does not look at its flags, so it stays only where the call
stops before that note is deleted, or cannot delete it.

## Key results

- `Renamed.loses_target`: a target that can be removed is not indexed afterwards
- `targetKept_iff`, `rename_flags_iff`
-/

namespace Agendafs

open Store

variable {Text : Type} {cfg : Config Text} {w w' : World Text} {old new : CStr} {flags : Nat}
  {status : Int} {n : NodeId} {e : AgendaEntry}

/-- `RENAME_NOREPLACE`. -/
def renameNoreplace : Nat := 1

/-- `RENAME_EXCHANGE`. -/
def renameExchange : Nat := 2

/-- The flags say that a note at the new path is not to be replaced. -/
def KeepsTarget (flags : Nat) : Prop :=
  flags &&& renameExchange ≠ 0 ∨ flags &&& renameNoreplace ≠ 0

/-- The two nodes have changed places. -/
structure Swapped (w w' : World Text) (old new : CStr) (c n : NodeId) : Prop where
  before : w.store.lookup old = some c ∧ w.store.lookup new = some n
  after : w'.store.lookup old = some n ∧ w'.store.lookup new = some c

/-- What a rename to an existing note may come to then: every file is still there, every node still
    indexed, and the call has failed and changed nothing or exchanged the two. -/
structure TargetKept (w : World Text) (old new : CStr) (flags : Nat) (status : Int)
    (w' : World Text) : Prop where
  files : ∀ f, w.files f ≠ none → w'.files f ≠ none
  indexed : ∀ k m, w.store.entriesVdir.get k = some m → w'.store.entriesVdir.get k = some m
  outcome : (status < 0 ∧ Unchanged w w') ∨
    (flags &&& renameExchange ≠ 0 ∧ ∃ c n, Swapped w w' old new c n)

/-- The rename returns, and does what its flags say. -/
def FlagsHonoured (cfg : Config Text) (w : World Text) (old new : CStr) (flags : Nat) : Prop :=
  KeepsTarget flags → ∃ status w', fuseRename cfg old new flags w = .ok (status, w') ∧
    TargetKept w old new flags status w'

/-- A call that fails and leaves store and files keeps the target. -/
theorem TargetKept.of_failed (hs : status < 0) (hstore : w'.store = w.store)
    (hfiles : w'.files = w.files) : TargetKept w old new flags status w' where
  files f hf := by rw [hfiles]; exact hf
  indexed k m hk := by rw [hstore]; exact hk
  outcome := .inl ⟨hs, .of_eq hstore hfiles⟩

/-- The rename proper leaves the index. -/
theorem AgendaRenamed.entriesVdir_eq (h : AgendaRenamed cfg w old new status w') :
    w'.store.entriesVdir = w.store.entriesVdir := by
  cases h with
  | noParent => rfl
  | moved => rw [moved_store, place_entriesVdir]

/-- A node without children at the new path is not the root if the call returns: the root has no
    file, and the program stops on the way to it. -/
theorem Renamed.exists_entry (hn : w.store.lookup new = some n)
    (hchildren : w.store.links.children n = []) (h : Renamed cfg w old new status w') :
    ∃ e, w.store.entry n = some e := by
  cases h with
  | notEmpty hn' hne =>
    cases hn.symm.trans hn'
    exact absurd hchildren hne
  | removeFailed hn' he =>
    cases hn.symm.trans hn'
    exact ⟨_, he⟩
  | replaced hn' he =>
    cases hn.symm.trans hn'
    exact ⟨_, he⟩
  | fresh hn' => cases hn.symm.trans hn'

/-- A node without children at the new path whose file can be removed is not indexed any more. -/
theorem Renamed.loses_target (hn : w.store.lookup new = some n) (he : w.store.entry n = some e)
    (hchildren : w.store.links.children n = [])
    (hr : w.removeSucceeds cfg e.filenameVdir = true) (h : Renamed cfg w old new status w') :
    w'.store.entriesVdir.get e.filenameVdir = none := by
  cases h with
  | notEmpty hn' hne =>
    cases hn.symm.trans hn'
    exact absurd hchildren hne
  | removeFailed hn' he' _ hr' =>
    cases hn.symm.trans hn'
    cases he.symm.trans he'
    rw [hr] at hr'
    cases hr'
  | replaced hn' he' _ _ h =>
    cases hn.symm.trans hn'
    cases he.symm.trans he'
    rw [h.entriesVdir_eq]
    change (w.store.delete n e.filenameVdir).entriesVdir.get _ = none
    rw [Inv.delete_entriesVdir, Hashmap.get_remove, if_pos rfl]
  | fresh hn' => cases hn.symm.trans hn'

/-- A rename that cannot remove the note at the new path. -/
theorem fuseRename_removeFails (h : w.store.Inv) (hlen : (splitPath new).length ≤ 255)
    (hn : w.store.lookup new = some n) (he : w.store.entry n = some e)
    (hchildren : w.store.links.children n = [])
    (hr : w.removeSucceeds cfg e.filenameVdir = false) :
    fuseRename cfg old new flags w = .ok (- EIO, w.removeTick) := by
  have hdelete : deleteVdirEntry cfg n w = _ := deleteVdirEntry_run h he hchildren
  rw [hr, if_neg (by decide)] at hdelete
  rw [fuseRename_leaf h hlen hn hchildren hdelete, if_pos (by decide)]

/-- A path of more than 255 segments stops the program. -/
theorem fuseRename_tooDeep (h : w.store.Inv) (hlen : ¬ (splitPath new).length ≤ 255) :
    fuseRename cfg old new flags w = .error .segmentsOverflow := by
  unfold fuseRename
  rw [Prog.bind_run_error (getNodeByPath_tooDeep h hlen)]

/-- Whatever its flags, a rename to an existing note keeps it exactly if that note has children or
    its file cannot be removed. -/
theorem targetKept_iff (h : w.store.Inv) (hnew : w.store.lookup new = some n) :
    (∃ status w', fuseRename cfg old new flags w = .ok (status, w') ∧
        TargetKept w old new flags status w') ↔
      (splitPath new).length ≤ 255 ∧ (w.store.links.children n ≠ [] ∨
        ∃ e, w.store.entry n = some e ∧ w.removeSucceeds cfg e.filenameVdir = false) := by
  constructor
  · rintro ⟨status, w', hrun, hkept⟩
    by_cases hlen : (splitPath new).length ≤ 255
    · refine ⟨hlen, Classical.byContradiction fun hnot => ?_⟩
      obtain ⟨hchildren, hremoves⟩ := not_or.1 hnot
      have hchildren := not_not.1 hchildren
      have hrenamed := (wp_fuseRename h old new flags).ok hrun
      obtain ⟨e, he⟩ := hrenamed.exists_entry hnew hchildren
      have hr : w.removeSucceeds cfg e.filenameVdir = true :=
        Bool.of_not_eq_false fun hr => hremoves ⟨e, he, hr⟩
      -- The target was indexed, and is not any more.
      have hindexed := hkept.indexed _ _ ((h.index _ _).2 ⟨e, he, rfl⟩)
      rw [hrenamed.loses_target hnew he hchildren hr] at hindexed
      cases hindexed
    · rw [fuseRename_tooDeep h hlen] at hrun
      cases hrun
  · rintro ⟨hlen, hkept⟩
    by_cases hchildren : w.store.links.children n = []
    · obtain ⟨e, he, hr⟩ := hkept.resolve_left fun hne => hne hchildren
      exact ⟨_, _, fuseRename_removeFails h hlen hnew he hchildren hr,
        .of_failed (by decide) rfl rfl⟩
    · exact ⟨_, _, fuseRename_notEmpty h hlen hnew hchildren,
        .of_failed (by decide) rfl rfl⟩

/-- The flags of a rename to an existing note are honoured exactly if they say nothing about that
    note, or it has children or its file cannot be removed. -/
theorem rename_flags_iff (h : Reachable cfg w) (hnew : w.store.lookup new = some n) :
    FlagsHonoured cfg w old new flags ↔
      (KeepsTarget flags → (splitPath new).length ≤ 255 ∧ (w.store.links.children n ≠ [] ∨
        ∃ e, w.store.entry n = some e ∧ w.removeSucceeds cfg e.filenameVdir = false)) :=
  imp_congr_right fun _ => targetKept_iff h.sound.toInv hnew

/-- Two notes side by side. -/
def twoNotes : List (CStr × Icalcomponent) :=
  [(bytes "a.ics", sampleNote (bytes "a") (bytes "First") []),
    (bytes "b.ics", sampleNote (bytes "b") (bytes "Second") [])]

/-- The mount of the two notes, with what the calls to `remove` will return. -/
def twoNotesMount (removes : List Bool) : World Icalcomponent :=
  sampleMount twoNotes { removes := removes }

theorem reachable_twoNotesMount (removes : List Bool) :
    Reachable sampleConfig (twoNotesMount removes) :=
  run_sampleMount _ (by decide) (by decide) trivial (by decide +kernel)

theorem twoNotesMount_lookup (removes : List Bool) :
    (twoNotesMount removes).store.lookup (bytes "/First.txt") = some 1 ∧
      (twoNotesMount removes).store.lookup (bytes "/Second.txt") = some 2 := by
  have hfirst : (twoNotesMount []).store.lookup (bytes "/First.txt") = some 1 := by decide +kernel
  have hsecond : (twoNotesMount []).store.lookup (bytes "/Second.txt") = some 2 := by
    decide +kernel
  exact ⟨hfirst, hsecond⟩

theorem rename_flags_iff_unremovable :
    FlagsHonoured sampleConfig (twoNotesMount [false]) (bytes "/First.txt") (bytes "/Second.txt")
      renameExchange := by
  refine (rename_flags_iff (reachable_twoNotesMount _) (twoNotesMount_lookup _).2).2 fun _ =>
    ⟨by decide, .inr ?_⟩
  have hcheck : ((twoNotesMount [false]).store.entry 2).any (fun e =>
      (twoNotesMount [false]).removeSucceeds sampleConfig e.filenameVdir = false) = true := by
    decide +kernel
  obtain ⟨e, he, hr⟩ := (Option.any_eq_true ..).1 hcheck
  exact ⟨e, he, of_decide_eq_true hr⟩

/-- Exchanging two notes deletes the second one. -/
theorem not_all_flags_honoured :
    ¬ ∀ (w : World Icalcomponent) (old new : CStr) (flags : Nat), Reachable sampleConfig w →
      w.store.lookup old ≠ none → w.store.lookup new ≠ none →
      FlagsHonoured sampleConfig w old new flags := by
  intro hall
  have hlookup := twoNotesMount_lookup []
  have hkept := hall _ (bytes "/First.txt") (bytes "/Second.txt") renameExchange
    (reachable_twoNotesMount []) (by rw [hlookup.1]; nofun) (by rw [hlookup.2]; nofun)
  obtain ⟨_, hcondition⟩ := targetKept_iff (reachable_twoNotesMount []).sound.toInv hlookup.2
    |>.1 (hkept (.inl (by decide)))
  have hfree : (twoNotesMount []).store.links.children 2 = [] := by decide +kernel
  obtain ⟨e, he, hr⟩ := hcondition.resolve_left fun hne => hne hfree
  have hcheck : ((twoNotesMount []).store.entry 2).any (fun e =>
      (twoNotesMount []).removeSucceeds sampleConfig e.filenameVdir) = true := by decide +kernel
  rw [he, Option.any_some, hr] at hcheck
  cases hcheck

end Agendafs
