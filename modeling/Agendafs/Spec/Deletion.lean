import Agendafs.Spec.Siblings

/-!
# Deletions by other programs

The index is searched with the path of the deleted file where its keys are file
names, so the event of a deletion never finds the node of the file. The node
stays in the tree, and the next call that reads it stops at the assertion on
`stat`.

## Key results

- `deletion_is_not_followed`
-/

namespace Agendafs

open Store

variable {Text : Type} {cfg : Config Text} {w w' : World Text}

/-- The node `n` of a deleted file has left index, paths and child lists, and every
    other node is where it was. -/
structure DeletionFollowed (w w' : World Text) (filenameVdir : CStr) (n : NodeId) : Prop where
  not_indexed : w'.store.entriesVdir.get filenameVdir = none
  not_found : ∀ path, w'.store.lookup path ≠ some n
  not_listed : ∀ p, n ∉ w'.store.links.children p
  others : ∀ m, m ≠ n → w'.store.name m = w.store.name m ∧
    w'.store.links.parent m = w.store.links.parent m ∧
    ∀ k, w'.store.entriesVdir.get k = some m ↔ w.store.entriesVdir.get k = some m

/-- In no reachable state is the deletion of a file followed, whether its node has children
    or not: the event leaves tree and index as they are, and reading the node stops at the
    assertion. -/
theorem deletion_is_not_followed (h : Reachable cfg w) (event : InotifyEvent) (n : NodeId)
    (hn : w.store.entriesVdir.get event.name = some n)
    (hdeleted : w.files (appendPath cfg.vdir event.name) = none)
    (hmask : event.mask &&& IN_DELETE ≠ 0) :
    ∃ w', handleVdirEvent cfg event w = .ok ((), w') ∧
      ¬ DeletionFollowed w w' event.name n ∧
      getIcalcomponentFromNode cfg n w' = .error .assertFailed := by
  have hs := Run.sound h
  refine ⟨w, handleVdirEvent_delete_run hs hmask, fun hf => ?_, ?_⟩
  · -- The state is the one before the event, so the index still lists the node.
    have hnone := hf.not_indexed
    rw [hn] at hnone
    exact nomatch hnone
  · -- `stat` fails, since the file of the node is gone.
    obtain ⟨e, he, hk⟩ := (hs.index _ n).1 hn
    rw [getIcalcomponentFromNode_note he, hk]
    unfold parseIcsFile
    rw [Prog.bind_run_ok (Prog.get_run w), hdeleted]
    rfl

/-- A directory that holds one note. -/
def singleNote : List (CStr × Icalcomponent) :=
  [(bytes "a.ics", sampleNote (bytes "a") (bytes "Note") [])]

/-- The mount of that directory, when another program has deleted the file. -/
def singleNoteDeleted : World Icalcomponent :=
  { store := (sampleMount singleNote {}).store, files := fun _ => none, env := {} }

theorem reachable_singleNoteDeleted : Reachable sampleConfig singleNoteDeleted :=
  .external _ _ (run_sampleMount {} (by decide) (by decide) trivial (by decide +kernel) :
    Reachable sampleConfig (sampleMount singleNote {}))

theorem deletion_is_not_followed_singleNote :
    ∃ w', handleVdirEvent sampleConfig ⟨IN_DELETE, bytes "a.ics"⟩ singleNoteDeleted = .ok ((), w') ∧
      ¬ DeletionFollowed singleNoteDeleted w' (bytes "a.ics") 1 ∧
      getIcalcomponentFromNode sampleConfig 1 w' = .error .assertFailed :=
  deletion_is_not_followed reachable_singleNoteDeleted ⟨IN_DELETE, bytes "a.ics"⟩ 1
    (by decide +kernel) rfl (by decide)

/-- So it is not the case that deletions are followed. -/
theorem not_all_deletions_followed :
    ¬ ∀ (w w' : World Icalcomponent) (event : InotifyEvent) (n : NodeId),
      Reachable sampleConfig w → w.store.entriesVdir.get event.name = some n →
      w.store.links.children n = [] → w.files (appendPath sampleConfig.vdir event.name) = none →
      event.mask &&& IN_DELETE ≠ 0 → handleVdirEvent sampleConfig event w = .ok ((), w') →
      DeletionFollowed w w' event.name n := by
  intro hall
  have hn : singleNoteDeleted.store.entriesVdir.get (bytes "a.ics") = some 1 := by decide +kernel
  have hrun : handleVdirEvent sampleConfig ⟨IN_DELETE, bytes "a.ics"⟩ singleNoteDeleted =
      .ok ((), singleNoteDeleted) :=
    handleVdirEvent_delete_run (Run.sound reachable_singleNoteDeleted) (by decide)
  have hf := hall _ _ ⟨IN_DELETE, bytes "a.ics"⟩ 1 reachable_singleNoteDeleted hn
    (by decide +kernel) rfl (by decide) hrun
  have hnone := hf.not_indexed
  rw [hn] at hnone
  exact nomatch hnone

end Agendafs
