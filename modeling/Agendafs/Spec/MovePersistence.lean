import Agendafs.Spec.LoadedTree
import Agendafs.Spec.MovesCorrect

/-!
# Whether a move is persisted

The file of a note that has been moved names its parent in its first relation of
RELTYPE PARENT. A rename takes the relations to the old parent out of the
component and puts the one to the new parent behind the others, so it depends on
those others whether the move is found again in the file. A move to the root is
written before the relations are taken out.

## Key results

- `getParentUid_stored`: the parent UID in the file after a move
- `move_persisted_iff`: when the file names the new parent
-/

namespace Agendafs

open Icalcomponent Store

variable {Text : Type} {cfg : Config Text} {w w' v : World Text}

/-! ## Notes and their files -/

/-- Removing a note leaves the others as they are. -/
theorem World.WellNamed.removed (h : w.WellNamed cfg) (hi : w.store.Inv) {n : NodeId}
    {e : AgendaEntry} (he : w.store.entry n = some e) :
    (w.removed cfg n e.filenameVdir).WellNamed cfg := by
  intro m e' hm
  have hentry : (if m = n then none else w.store.entry m) = some e' :=
    (Inv.delete_entry ..).symm.trans hm
  split at hentry
  · exact nomatch hentry
  · rename_i hmn
    unfold World.uid
    rw [component_removed hi he hmn]
    exact h m e' hentry

theorem World.WellNamed.cleared (h : w.WellNamed cfg) (hi : w.store.Inv) {new : CStr}
    (hv : w.cleared cfg new = some v) : v.WellNamed cfg := by
  obtain rfl | ⟨n, e, _, he, _, rfl⟩ := cleared_eq_some hv
  · exact h
  · exact h.removed hi he

/-! ## The parent in the file after a move -/

/-- The parent UID that is read in what a move stores: the first of the relations that are
    left, or else the one to the new parent. -/
theorem getParentUid_stored {m : Move} (hm : m.note.parsed = true) (name : CStr)
    (htarget : ∀ tc, v.component cfg m.target = some tc →
      tc.parsed = true ∧ ∃ uid, tc.getUid = some uid) :
    getParentUid cfg.ical (m.stored cfg v name).reread =
      match v.uid cfg m.target with
      | none => getParentUid cfg.ical m.note
      | some uid => (relations m.note).map fun ps => cfg.ical.valueAsString
          ((ps.find? (some ·.value ≠ v.uid cfg m.source)).getD (parentRelation uid)).value := by
  have hrenamed : relations (v.renamedNote cfg m.node m.filenameVdir name m.note) =
      relations m.note := relations_of_keeps (keeps_relations_renamedNote _ _ _) _
  have hnonempty : ∀ ps, relations m.note = some ps → ∀ p ∈ ps, p.value ≠ [] :=
    fun ps => value_ne_nil_of_parsed hm
  rw [getParentUid_relations, relations_reread]
  unfold Move.stored World.storedNote World.movedNote World.uid
  cases htc : v.component cfg m.target with
  | none =>
    -- The last write was made before any relation was taken out.
    simp only [Option.isSome_none, Bool.false_eq_true, if_false, Option.bind_none]
    rw [hrenamed, getParentUid_relations]
    unfold relations
    rw [view_filter_of_parsed hm]
  | some tc =>
    obtain ⟨htp, uid, huid⟩ := htarget tc htc
    simp only [Option.isSome_some, if_true, Option.bind_some, huid]
    rw [relations_of_keeps (keeps_relations_stamp _), relations_related huid,
      relations_unrelated, hrenamed]
    cases hps : relations m.note with
    | none => rfl
    | some ps =>
      have hfilter : ∀ qs ⊆ ps, (qs ++ [parentRelation uid]).filter (·.value ≠ []) =
          qs ++ [parentRelation uid] := by
        intro qs hqs
        refine List.filter_eq_self.2 fun p hp => decide_eq_true ?_
        rcases List.mem_append.1 hp with hp | hp
        · exact hnonempty ps hps p (hqs hp)
        · rw [List.mem_singleton.1 hp]
          exact getText_ne_nil htp huid
      -- What is read is the first relation that is left, or the new one behind none.
      simp only [Option.map_some, Option.bind_some]
      rw [hfilter _ (List.filter_subset_self _), List.head?_append, List.head?_filter]
      cases ps.find? fun p => decide (some p.value ≠ (v.component cfg m.source).bind (·.getUid)) <;>
        rfl

/-- The file of the moved note names the new parent, and the note is found below it when
    the file is looked at again. -/
structure MovePersisted (cfg : Config Text) (w' : World Text) (m : Move) (uid : Option CStr) :
    Prop where
  stored : w'.parentUid cfg m.filenameVdir = uid
  handled : ∀ event w'', event.file cfg = m.filenameVdir →
    handleVdirEvent cfg event w' = .ok ((), w'') → w''.store.links.parent m.node = some m.target
  mounted : ∀ (u u' : World Text) listing, u.AtStart → u.files = w'.files →
    (∀ x ∈ u.env.writes, x = .written) → ValidListing (listing.getD []) →
    loadRootNodeTree cfg listing u = .ok ((), u') →
      ∀ n, u'.store.entriesVdir.get m.filenameVdir = some n →
        u'.store.links.parent n = u'.store.target uid

/-- The condition for a move to be persisted. To the root, the old parent is the root,
    too. To a directory, its UID is what is read of the first relation that does not
    name the old parent, or else of the new one. -/
def Move.Persists (cfg : Config Text) (v : World Text) (m : Move) : Prop :=
  match v.uid cfg m.target with
  | none => v.uid cfg m.source = none
  | some uid => ∃ ps, relations m.note = some ps ∧ cfg.ical.valueAsString
    ((ps.find? (some ·.value ≠ v.uid cfg m.source)).getD (parentRelation uid)).value = uid

/-- A tree from which the files are read names the same parents. -/
theorem parentUid_congr {u : World Text} (h : u.files = w.files) (k : CStr) :
    u.parentUid cfg k = w.parentUid cfg k := by
  unfold World.parentUid World.fileComponent
  rw [h]

/-- When the file names the parent of a note, the note is found there again. -/
theorem MovePersisted.of_stored (hL : cfg.ical.Lawful) (hs : w'.store.Sound) {m : Move}
    {uid : Option CStr} (hnode : w'.store.entriesVdir.get m.filenameVdir = some m.node)
    (hparent : w'.store.links.parent m.node = some m.target)
    (htarget : w'.store.target uid = some m.target)
    (hstored : w'.parentUid cfg m.filenameVdir = uid) : MovePersisted cfg w' m uid where
  stored := hstored
  handled event w'' hfile hrun := by
    have hhandled := ((wp_handleVdirEvent hs event).ok hrun).1
    rw [hfile] at hhandled
    cases hhandled with
    | unchanged => exact hparent
    | @updated e c p hc he hp =>
      have hkey : e.filenameVdir = m.filenameVdir :=
        (filenameVdir_of_agendaEntryOf he).trans (getFilename_appendPath _ (hs.key_flat hnode))
      have hup := upsert_of_some (s := w'.store) (e := e) (by rw [hkey]; exact hnode)
      have huid : getParentUid cfg.ical c = uid := by
        rw [← hstored, World.parentUid, hc, Option.bind_some]
      -- The node is updated, and its target is still the same.
      have hpt : p = m.target := by
        rw [hup, huid, target_congr (rename_fuseRoot ..) (rename_entriesVdir ..), htarget] at hp
        exact (Option.some.inj hp).symm
      have hentry := upsert_entry (e := e) hs.toInv
      have hlive := hs.toInv.upsert.live_of_target hp
      rw [updated_store, Store.updated,
        place_parent hs.toInv.upsert.wf hlive (live_of_entry hentry), hup, hpt,
        Function.update_self]
  mounted u u' listing hstart hfiles hwrites hlisting hrun n hn := by
    have hloaded : Loaded cfg u (listing.getD []) _ u' :=
      (wp_load_parents (R := fun k o => o = u.parentUid cfg k) hL hstart hlisting
        fun _ _ => rfl).ok hrun fun left hl =>
          absurd (hwrites _ (List.mem_of_mem_take hl)) WriteOutcome.writeFailed_ne
    obtain ⟨o, ho, hp⟩ := hloaded.parent _ n hn
    rw [hp, ho, parentUid_congr hfiles, hstored]

/-- What a rename to `p` reads as the parent: the node it moves to. -/
theorem newParent_of_uid (hnamed : v.WellNamed cfg) (hs : v.store.Sound) {p : NodeId}
    (hp : v.store.Live p) : v.newParent cfg p = p ∧ v.store.target (v.uid cfg p) = some p := by
  by_cases hroot : p = v.store.fuseRoot
  · subst hroot
    unfold World.newParent World.uid
    rw [component_of_root hs.toInv]
    exact ⟨rfl, rfl⟩
  · obtain ⟨e, he⟩ := hs.entry_of_live p hp hroot
    obtain ⟨uid, huid, hk⟩ := hnamed p e he
    obtain ⟨c, hc, _⟩ := Option.bind_eq_some_iff.1 huid
    have hindex := (hs.index e.filenameVdir p).2 ⟨e, he, rfl⟩
    unfold World.newParent
    rw [huid, hc]
    rw [hk] at hindex
    exact ⟨rfl, hindex⟩

/-- Only the UIDs of the two parents matter. -/
theorem persists_congr {m : Move} (hsource : v.uid cfg m.source = w.uid cfg m.source)
    (htarget : v.uid cfg m.target = w.uid cfg m.target) :
    m.Persists cfg v ↔ m.Persists cfg w := by
  unfold Move.Persists
  rw [hsource, htarget]

/-- A rename of a note whose file agrees with its old place is persisted exactly when
    `Move.Persists`, given that its writes succeed. -/
theorem move_persisted_iff (hL : cfg.ical.Lawful) (h : Reachable cfg w)
    (hnamed : w.WellNamed cfg) {old new : CStr} {flags : Nat}
    (hv : (Op.rename old new flags).Valid cfg w)
    (hold : ∀ m, w.move cfg old new = some m →
      getParentUid cfg.ical m.note = w.uid cfg m.source)
    (hrun : exec cfg (.rename old new flags) w = .ok (0, w'))
    (hwritten : ∀ x ∈ w.madeWrites w', x = .written) :
    ∃ m, w.move cfg old new = some m ∧
      (MovePersisted cfg w' m (w.uid cfg m.target) ↔ m.Persists cfg w) := by
  obtain ⟨v, m, hm, rfl⟩ := renames_of_run h hv hrun
  obtain ⟨hmove, hsource, htarget⟩ := move_of_renames h.sound hv hm
  have hsource : v.uid cfg m.source = w.uid cfg m.source := by unfold World.uid; rw [hsource]
  have htarget : v.uid cfg m.target = w.uid cfg m.target := by unfold World.uid; rw [htarget]
  have hold := hold m hmove
  refine ⟨m, hmove, ?_⟩
  rw [← hsource] at hold
  rw [← htarget, ← persists_congr hsource htarget]
  obtain ⟨hcleared, hmove⟩ := renames_eq_some hm
  obtain ⟨⟨_, _, hp⟩, _, ⟨e, he, hk⟩, _, _⟩ := move_eq_some.1 hmove
  have hs : v.store.Sound := renames_sound h.sound hm
  have hnamed : v.WellNamed cfg := hnamed.cleared h.sound.toInv hcleared
  have hlive := hs.live_of_lookup hp
  obtain ⟨hnew, hp⟩ := newParent_of_uid hnamed hs hlive
  have hstore : (m.after cfg v (getFilename new)).store =
      v.store.place m.target m.node (getFilename new) := by
    rw [Move.after, moved_store, hnew]
  -- The file decides: what is in memory is right in any case.
  have hstored : (m.after cfg v (getFilename new)).parentUid cfg m.filenameVdir =
      v.uid cfg m.target ↔ m.Persists cfg v := by
    unfold World.parentUid Move.Persists
    rw [fileComponent_after hL hm hwritten, Option.bind_some,
      getParentUid_stored (parsed_note hL hm)]
    · cases huid : v.uid cfg m.target with
      | none => rw [hold]
      | some uid => simp only [Option.map_eq_some_iff]
    · exact fun tc htc => hnamed.component hL htc
  refine ⟨fun hp => hstored.1 hp.stored, fun hpersists =>
    .of_stored hL ?_ ?_ ?_ ?_ (hstored.2 hpersists)⟩
  · rw [hstore]
    exact hs.place hlive he
  · rw [hstore, place_entriesVdir]
    exact (hs.index _ _).2 ⟨e, he, hk⟩
  · rw [hstore, place_parent hs.wf hlive (live_of_entry he), Function.update_self]
  · rw [hstore, target_congr place_fuseRoot place_entriesVdir, hp]

/-! ## A move to the root -/

/-- The mount of a directory with a note in it. -/
def noteInDirectory : World Icalcomponent := sampleMount nestedNote {}

/-- Moving the note out of the directory. -/
def moveToRoot : Op := .rename (bytes "/Dir/Note.txt") (bytes "/Note.txt") 0

theorem reachable_noteInDirectory : Reachable sampleConfig noteInDirectory :=
  run_sampleMount _ (by decide) (by decide) trivial (by decide +kernel)

theorem wellNamed_noteInDirectory : noteInDirectory.WellNamed sampleConfig :=
  wellNamed_of_check (Run.sound reachable_noteInDirectory) (by decide +kernel)

theorem valid_moveToRoot : moveToRoot.Valid sampleConfig noteInDirectory :=
  ⟨by decide +kernel, by decide, by decide⟩

theorem noteInDirectory_consistent (m : Move)
    (hm : noteInDirectory.move sampleConfig (bytes "/Dir/Note.txt") (bytes "/Note.txt") = some m) :
    getParentUid sampleConfig.ical m.note = noteInDirectory.uid sampleConfig m.source := by
  have hall : (noteInDirectory.move sampleConfig (bytes "/Dir/Note.txt") (bytes "/Note.txt")).all
      (fun m => getParentUid sampleConfig.ical m.note =
        noteInDirectory.uid sampleConfig m.source) = true := by decide +kernel
  rw [hm] at hall
  exact of_decide_eq_true hall

theorem moveToRoot_run : exec sampleConfig moveToRoot noteInDirectory =
    .ok (0, (exec sampleConfig moveToRoot).final noteInDirectory) :=
  exec_sample (by decide +kernel)

/-- All writes succeed. -/
theorem moveToRoot_written : ∀ x ∈ noteInDirectory.madeWrites
    ((exec sampleConfig moveToRoot).final noteInDirectory), x = .written := by
  intro x hx
  exact absurd (List.mem_of_mem_take hx) List.not_mem_nil

theorem move_persisted_iff_moveToRoot : ∃ m,
    noteInDirectory.move sampleConfig (bytes "/Dir/Note.txt") (bytes "/Note.txt") = some m ∧
      (MovePersisted sampleConfig ((exec sampleConfig moveToRoot).final noteInDirectory) m
        (noteInDirectory.uid sampleConfig m.target) ↔ m.Persists sampleConfig noteInDirectory) :=
  move_persisted_iff structuralIcal_lawful reachable_noteInDirectory wellNamed_noteInDirectory
    valid_moveToRoot noteInDirectory_consistent moveToRoot_run moveToRoot_written

/-- So a move need not be persisted: the file of the note still names the directory. -/
theorem not_all_moves_persisted :
    ¬ ∀ (w w' : World Icalcomponent) (old new : CStr) (flags : Nat) (m : Move),
      Reachable sampleConfig w → w.WellNamed sampleConfig →
      (Op.rename old new flags).Valid sampleConfig w → w.move sampleConfig old new = some m →
      getParentUid sampleConfig.ical m.note = w.uid sampleConfig m.source →
      exec sampleConfig (.rename old new flags) w = .ok (0, w') →
      (∀ x ∈ w.madeWrites w', x = .written) →
        w'.parentUid sampleConfig m.filenameVdir = w.uid sampleConfig m.target := by
  intro hall
  have hany : (noteInDirectory.move sampleConfig (bytes "/Dir/Note.txt") (bytes "/Note.txt")).any
      (fun m => ((exec sampleConfig moveToRoot).final noteInDirectory).parentUid sampleConfig
        m.filenameVdir ≠ noteInDirectory.uid sampleConfig m.target) = true := by decide +kernel
  obtain ⟨m, hm, hcheck⟩ := (Option.any_eq_true ..).1 hany
  exact of_decide_eq_true hcheck (hall _ _ _ _ _ m reachable_noteInDirectory
    wellNamed_noteInDirectory valid_moveToRoot hm (noteInDirectory_consistent m hm) moveToRoot_run
    moveToRoot_written)

end Agendafs
