import Agendafs.Spec.HeldNotes
import Agendafs.Spec.LoadedTree
import Agendafs.Spec.RelationsCorrect
import Agendafs.Spec.Runs

/-!
# Whether the order of events matters

When a sync tool has written a set of notes, an event about each of them is
handled, in some order. The handler hangs a note below the node of its parent,
which it looks for in the index; if the parent has not been handled before, there
is none, and the handler follows a NULL pointer.

## Key results

- `wp_handleVdirEvent_synced`, `wp_events`: one event, and a list of them, when parents
  come first
- `wp_handleVdirEvent_begun`, `wp_events_begun`: parents have to come first
- `event_order_iff`: the orders that work
-/

namespace Agendafs

open Icalcomponent Store

variable {Text : Type} {cfg : Config Text} {w w' v : World Text}

/-! ## The notes of a sync -/

/-- The file of the parent that a file names. -/
def World.parentFile (cfg : Config Text) (w : World Text) (filenameVdir : CStr) : Option CStr :=
  (w.parentUid cfg filenameVdir).map (· ++ bytes ".ics")

/-- The files `ks` are notes called by their UIDs, whose parents are among them. -/
structure World.Synced (cfg : Config Text) (w : World Text) (ks : List CStr) : Prop where
  flat : ∀ k ∈ ks, slash ∉ k
  named : ∀ k ∈ ks, ∃ uid, (w.fileComponent cfg k).bind (·.getUid) = some uid ∧
    k = uid ++ bytes ".ics"
  notes : ∀ k ∈ ks, w.HoldsNote cfg k
  parents : ∀ k ∈ ks, ∀ p, w.parentFile cfg k = some p → p ∈ ks
  acyclic : ∀ k ∈ ks, ¬ Relation.TransGen (fun k p => w.parentFile cfg k = some p) k k

/-- What holds after events about the files `pre` have been handled. -/
structure Followed (cfg : Config Text) (w : World Text) (ks pre : List CStr) (v : World Text) :
    Prop where
  sound : v.store.Sound
  index : ∀ k, (∃ n, v.store.entriesVdir.get k = some n) ↔ k ∈ pre
  placed : ∀ k n, v.store.entriesVdir.get k = some n →
    ∃ p, v.store.target (w.parentUid cfg k) = some p ∧ v.store.links.parent n = some p
  notes : ∀ k ∈ ks, v.HoldsNote cfg k ∧ v.parentUid cfg k = w.parentUid cfg k

/-- The file names a parent whose file is that of no directory yet, so that handling it writes to
    the file of the parent. -/
def World.MarksParent (cfg : Config Text) (w : World Text) (k : CStr) : Prop :=
  ∃ p c, w.parentFile cfg k = some p ∧ w.fileComponent cfg p = some c ∧
    isDirectoryComponent cfg.ical c = false

/-- What holds after events about the files `pre`, whatever becomes of the writes. -/
structure Begun (cfg : Config Text) (w : World Text) (ks pre : List CStr) (v : World Text) :
    Prop where
  sound : v.store.Sound
  index : ∀ k n, v.store.entriesVdir.get k = some n → k ∈ pre
  untouched : ∀ k ∈ ks, k ∉ pre → v.fileComponent cfg k = w.fileComponent cfg k

/-! ## One event -/

section Step

variable {ks pre : List CStr} {k : CStr} {e : AgendaEntry} {p : NodeId}

/-- The files of the nodes after an update are among those of the sync. -/
theorem Followed.upsert_notes (h : Followed cfg w ks pre v) (hpre : pre ⊆ ks) (hk : k ∈ ks)
    (he : e.filenameVdir = k) {n : NodeId} {e' : AgendaEntry}
    (hn : (v.store.upsert e).2.entry n = some e') : e'.filenameVdir ∈ ks := by
  have hget := (h.sound.toInv.upsert.index e'.filenameVdir n).2 ⟨e', hn, rfl⟩
  rw [upsert_get] at hget
  split at hget
  · rename_i heq
    rw [heq, he]
    exact hk
  · exact hpre ((h.index _).1 ⟨n, hget⟩)

/-- The node that the parent UID of a file names stands for the file of the parent. -/
theorem parentFile_of_target {s : Store} (h : s.Inv)
    (hp : s.target (v.parentUid cfg k) = some p) (he : s.entry p = some e) :
    v.parentFile cfg k = some e.filenameVdir := by
  unfold World.parentFile
  cases huid : v.parentUid cfg k with
  | none =>
    rw [huid] at hp
    rw [← Option.some.inj hp, h.root_entry] at he
    cases he
  | some uid =>
    rw [huid] at hp
    obtain ⟨e', he', hk⟩ := (h.index (uid ++ bytes ".ics") p).1 hp
    cases he.symm.trans he'
    rw [hk]
    rfl

/-- What holds after one more note has been placed below its parent. -/
theorem Followed.updated (hL : cfg.ical.Lawful) (hsync : w.Synced cfg ks)
    (h : Followed cfg w ks pre v) (hk : k ∈ ks) (he : e.filenameVdir = k)
    (hp : (v.store.upsert e).2.target (w.parentUid cfg k) = some p)
    (hwritten : v.MarksParent cfg k → v.outcome = .written) :
    Followed cfg w ks (pre ++ [k]) (v.updated cfg e p) := by
  have hinv := h.sound.toInv
  have hentry := upsert_entry (e := e) hinv
  have hlive := hinv.upsert.live_of_target hp
  have hsound := h.sound.upsert (e := e) (by rw [he]; exact hsync.flat k hk)
  have hget : ∀ k', (v.updated cfg e p).store.entriesVdir.get k' =
      if k' = k then some (v.store.upsert e).1 else v.store.entriesVdir.get k' := fun k' => by
    rw [updated_store, updated_get, he]
  have htarget : ∀ o, (v.updated cfg e p).store.target o = (v.store.upsert e).2.target o :=
    fun o => by rw [updated_store, updated_target]
  have hparent : (v.updated cfg e p).store.links.parent =
      Function.update v.store.links.parent (v.store.upsert e).1 (some p) := by
    rw [updated_store, updated_parent hinv hlive]
  refine ⟨?_, fun k' => ?_, fun k' n hn => ?_, fun k' hk' => ?_⟩
  · rw [updated_store]
    exact hsound.place hlive hentry
  -- The file joins the index.
  · rw [hget, List.mem_append, List.mem_singleton, ← h.index]
    split
    · rename_i heq
      exact iff_of_true ⟨_, rfl⟩ (.inr heq)
    · rename_i hne
      rw [or_iff_left hne]
  -- Its node is placed; the others stay where they are, since no target leaves the index.
  · rw [htarget, hparent]
    rw [hget] at hn
    split at hn
    · rename_i heq
      rw [heq, ← Option.some.inj hn, Function.update_self]
      exact ⟨p, hp, rfl⟩
    · rename_i hne
      have hnew : n ≠ (v.store.upsert e).1 := by
        rintro rfl
        obtain ⟨e', he', hk'⟩ := (hinv.upsert.index k' _).1
          ((upsert_get k').trans (by rw [if_neg (by rw [he]; exact hne)]; exact hn))
        cases hentry.symm.trans he'
        exact hne (hk'.symm.trans he)
      obtain ⟨p', hp', hparent'⟩ := h.placed k' n hn
      exact ⟨p', target_upsert_of_some hp', by rw [Function.update_of_ne hnew, hparent']⟩
  -- The files stay notes with the same parents, since a mark that is made is written.
  · obtain ⟨⟨hreadable, hnote⟩, huid⟩ := h.notes k' hk'
    have hnote' : World.HoldsNote cfg { v with store := v.store.updated e p } k' :=
      ⟨hreadable, hnote⟩
    have huid' : World.parentUid cfg { v with store := v.store.updated e p } k' =
        w.parentUid cfg k' := huid
    unfold World.updated
    cases hm : World.markedFile cfg { v with store := v.store.updated e p } p with
    | none =>
      rw [marked_of_markedFile_none hm]
      exact ⟨hnote', huid'⟩
    | some f =>
      obtain ⟨e', c, he', rfl, hc, hnot, _⟩ := marked_of_markedFile hm
      rw [← (h.notes k hk).2, ← updated_target (p := p)] at hp
      have ho : World.outcome { v with store := v.store.updated e p } = .written := hwritten
        ⟨_, c, parentFile_of_target (hsound.place hlive hentry).toInv hp he', hc, hnot⟩
      refine ⟨hnote'.marked hL ho p, ?_⟩
      rw [← huid']
      rcases parentUid_marked hL p k' with hu | ⟨left, hfailed, _⟩
      · exact hu
      · exact nomatch ho.symm.trans hfailed

/-- Handling the event of a file whose parent has been handled before places its note. -/
theorem wp_handleVdirEvent_synced (hL : cfg.ical.Lawful) (hsync : w.Synced cfg ks)
    (h : Followed cfg w ks pre v) (hpre : pre ⊆ ks) {event : InotifyEvent}
    (hevent : event.updates = true) (hk : event.name ∈ ks)
    (hseen : ∀ p, w.parentFile cfg event.name = some p → p ∈ pre)
    (hwritten : v.MarksParent cfg event.name → v.outcome = .written) :
    Prog.wp (handleVdirEvent cfg event)
      (fun _ v' => Followed cfg w ks (pre ++ [event.name]) v') (fun _ => False) v := by
  obtain ⟨hnote, huid⟩ := h.notes _ hk
  obtain ⟨e, he⟩ := hnote.loadable
  have hflat := hsync.flat _ hk
  have hek := filenameVdir_of_loadable hflat he
  have htarget : ∃ p, v.store.target (w.parentUid cfg event.name) = some p := by
    cases hu : w.parentUid cfg event.name with
    | none => exact ⟨_, rfl⟩
    | some uid => exact (h.index _).2 (hseen _ (by rw [World.parentFile, hu]; rfl))
  obtain ⟨p, hp⟩ := htarget
  have hp := target_upsert_of_some (e := e) hp
  have hread : ∀ q e', (v.store.upsert e).2.entry q = some e' → v.HoldsNote cfg e'.filenameVdir :=
    fun q e' he' => (h.notes _ (h.upsert_notes hpre hk hek he')).1
  have hbelow : v.HandlesBelow cfg event.name e p := by
    rw [← huid] at hp
    refine ⟨hp, fun hne => ?_⟩
    obtain ⟨e', he'⟩ := h.sound.toInv.upsert.entry_of_target hne hp
    obtain ⟨hr, c, hc, _⟩ := hread p e' he'
    refine ⟨fun e'' he'' => ?_, c, (component_of_entry he').trans hc, ?_⟩
    · cases he'.symm.trans he''
      exact hr
    · cases hdirectory : isDirectoryComponent cfg.ical c with
      | true => exact .inl rfl
      | false =>
        have ho := hwritten ⟨_, c, parentFile_of_target h.sound.toInv.upsert hp he', hc, hdirectory⟩
        exact .inr (congrArg WriteOutcome.status ho)
  have hrun := updateOrCreateFuseEntryFromVdir_run h.sound.toInv hflat hnote.readable he hbelow
  rw [handleVdirEvent_eq hevent, Prog.wp_bind_ok hrun]
  exact h.updated hL hsync hk hek hp hwritten

/-- Handling one more file touches the files handled so far only. -/
theorem Begun.updated (h : Begun cfg w ks pre v) (hek : e.filenameVdir = k)
    (he : v.loadable cfg k = some e)
    (hp : (v.store.upsert e).2.target (v.parentUid cfg k) = some p) :
    Begun cfg w ks (pre ++ [k]) (v.updated cfg e p) := by
  have hget : ∀ k' n, (v.store.upsert e).2.entriesVdir.get k' = some n → k' ∈ pre ++ [k] := by
    intro k' n hn
    rw [upsert_get, hek] at hn
    split at hn
    · rename_i heq
      exact List.mem_append_right _ (List.mem_singleton.2 heq)
    · exact List.mem_append_left _ (h.index k' n hn)
  refine ⟨(handled_of_target he hp).sound h.sound, fun k' n hn => ?_, fun k' hk' hpre => ?_⟩
  · rw [updated_store, Store.updated, place_entriesVdir] at hn
    exact hget k' n hn
  · rw [← h.untouched k' hk' fun hm => hpre (List.mem_append_left _ hm)]
    change (World.marked cfg { v with store := v.store.updated e p } p).fileComponent cfg k' =
      World.fileComponent cfg { v with store := v.store.updated e p } k'
    unfold World.marked
    split
    · rename_i e' pic he' _
      split
      · rfl
      refine fileComponent_wrote_of_ne (fun heq => hpre ?_) _
      -- The parent is indexed, so its file has been handled.
      have hinv := h.sound.toInv.upsert (e := e)
      have hn := ((((handled_of_target he hp).sound h.sound).index e'.filenameVdir p).2
        ⟨e', by rw [updated_store]; exact he', rfl⟩)
      rw [updated_store, Store.updated, place_entriesVdir] at hn
      exact heq ▸ hget _ p hn
    · rfl

/-- Handling the first event of a file returns only if one about its parent has been
    handled before, whatever becomes of the writes. -/
theorem wp_handleVdirEvent_begun (hsync : w.Synced cfg ks) (h : Begun cfg w ks pre v)
    {event : InotifyEvent} (hevent : event.updates = true) (hk : event.name ∈ ks) :
    Prog.wp (handleVdirEvent cfg event)
      (fun _ v' => Begun cfg w ks (pre ++ [event.name]) v' ∧
        (event.name ∉ pre → ∀ p, w.parentFile cfg event.name = some p → p ∈ pre))
      (fun _ => True) v := by
  have hflat := hsync.flat _ hk
  rw [handleVdirEvent_eq hevent, Prog.wp_bind]
  refine Prog.wp_mono (wp_updateOrCreateFuseEntryFromVdir h.sound.toInv fun _ _ _ => trivial)
    (fun _ v' hv' => ?_)
    fun _ _ => trivial
  rw [getFilename_appendPath _ hflat] at hv'
  have hsame : event.name ∉ pre →
      v.fileComponent cfg event.name = w.fileComponent cfg event.name := h.untouched _ hk
  cases he : v.loadable cfg event.name with
  | none =>
    rw [he] at hv'
    simp only at hv'
    obtain ⟨_, _, rfl⟩ := hv'
    refine ⟨⟨h.sound, fun k n hn => List.mem_append_left _ (h.index k n hn), fun k hk hkpre =>
      h.untouched k hk fun hm => hkpre (List.mem_append_left _ hm)⟩, fun hnew => ?_⟩
    -- A file that has not been handled is still the note it was.
    obtain ⟨e, hloadable⟩ := (hsync.notes _ hk).loadable
    rw [World.loadable, hsame hnew] at he
    cases hloadable.symm.trans he
  | some e =>
    rw [he] at hv'
    simp only at hv'
    obtain ⟨_, p, ⟨hp, _⟩, _, rfl⟩ := hv'
    have hek := filenameVdir_of_loadable hflat he
    refine ⟨h.updated hek he hp, fun hnew q hq => ?_⟩
    obtain ⟨uid, huid, rfl⟩ := Option.map_eq_some_iff.1 hq
    have hparent : v.parentUid cfg event.name = some uid := by
      rw [World.parentUid, hsame hnew]
      exact huid
    have hself : (v.parentUid cfg event.name).map (· ++ bytes ".ics") ≠ some e.filenameVdir := by
      intro heq
      rw [hparent, hek] at heq
      exact hsync.acyclic _ hk (.single (hq.trans heq))
    rw [target_upsert_of_ne hself, hparent] at hp
    exact h.index _ p hp

end Step

/-! ## All events -/

/-- Every event about a file comes after one about its parent. -/
def ParentsFirst (cfg : Config Text) (w : World Text) (events : List InotifyEvent) : Prop :=
  ∀ pre event post, events = pre ++ event :: post →
    ∀ p, w.parentFile cfg event.name = some p → p ∈ pre.map (·.name)

theorem ParentsFirst.append {pre : List InotifyEvent} {event : InotifyEvent}
    (h : ParentsFirst cfg w pre)
    (hevent : ∀ p, w.parentFile cfg event.name = some p → p ∈ pre.map (·.name)) :
    ParentsFirst cfg w (pre ++ [event]) := by
  intro pre' event' post heq
  rcases List.eq_nil_or_concat post with rfl | ⟨post, last, rfl⟩
  · obtain ⟨rfl, hlast⟩ := List.append_inj' heq rfl
    cases hlast
    exact hevent
  · rw [List.concat_eq_append, ← List.cons_append, ← List.append_assoc] at heq
    exact h pre' event' post (List.append_inj' heq rfl).1

/-- Every write that handling the events makes succeeds. -/
def MarksWritten (cfg : Config Text) (w : World Text) (events : List InotifyEvent) : Prop :=
  ∀ pre event post v, events = pre ++ event :: post →
    pre.forM (handleVdirEvent cfg) w = .ok ((), v) → v.MarksParent cfg event.name →
      v.outcome = .written

/-- Events in an order in which parents come first are handled to the end. -/
theorem wp_events (hL : cfg.ical.Lawful) {ks : List CStr} (hsync : w.Synced cfg ks)
    (h : Followed cfg w ks [] w) {events : List InotifyEvent}
    (hevents : ∀ event ∈ events, event.updates = true ∧ event.name ∈ ks)
    (hfirst : ParentsFirst cfg w events) (hwritten : MarksWritten cfg w events) :
    Prog.wp (events.forM (handleVdirEvent cfg))
      (fun _ v => Followed cfg w ks (events.map (·.name)) v) (fun _ => False) w := by
  refine Prog.wp_forM_run (fun (pre : List InotifyEvent) v =>
    Followed cfg w ks (pre.map (·.name)) v) h ?_
  intro pre event post v hxs hrun hv
  have hpre : pre.map (·.name) ⊆ ks := by
    intro k hk
    obtain ⟨before, hbefore, rfl⟩ := List.mem_map.1 hk
    exact (hevents before (by rw [hxs]; exact List.mem_append_left _ hbefore)).2
  obtain ⟨hupdates, hk⟩ := hevents event (by
    rw [hxs]
    exact List.mem_append_right _ List.mem_cons_self)
  refine Prog.wp_mono (wp_handleVdirEvent_synced hL hsync hv hpre hupdates hk ?_ ?_) ?_
    fun _ hc => hc
  · exact hfirst pre event post hxs
  · exact hwritten pre event post v hxs hrun
  · intro _ v' hv'
    rw [List.map_append]
    exact hv'

/-- A file that has been handled had its parent handled before. -/
theorem ParentsFirst.of_mem {pre : List InotifyEvent} (h : ParentsFirst cfg w pre) {k p : CStr}
    (hk : k ∈ pre.map (·.name)) (hp : w.parentFile cfg k = some p) : p ∈ pre.map (·.name) := by
  obtain ⟨event, hevent, rfl⟩ := List.mem_map.1 hk
  obtain ⟨before, after, rfl⟩ := List.append_of_mem hevent
  rw [List.map_append]
  exact List.mem_append_left _ (h before event after rfl p hp)

/-- Events are handled to the end only if parents come first, whatever becomes of the writes. -/
theorem wp_events_begun {ks : List CStr} (hsync : w.Synced cfg ks) (h : Begun cfg w ks [] w)
    {events : List InotifyEvent}
    (hevents : ∀ event ∈ events, event.updates = true ∧ event.name ∈ ks) :
    Prog.wp (events.forM (handleVdirEvent cfg)) (fun _ _ => ParentsFirst cfg w events)
      (fun _ => True) w := by
  refine Prog.wp_mono (Prog.wp_forM (fun pre v => Begun cfg w ks (pre.map (·.name)) v ∧
    ParentsFirst cfg w pre) events ?_ [] events w rfl ⟨h, fun pre event post heq => ?_⟩)
    (fun _ _ hv => hv.2) fun _ hc => hc
  · rintro pre event post v hxs ⟨hv, hfirst⟩
    obtain ⟨hupdates, hk⟩ := hevents event (by
      rw [hxs]
      exact List.mem_append_right _ List.mem_cons_self)
    refine Prog.wp_mono (wp_handleVdirEvent_begun hsync hv hupdates hk) ?_ fun _ hc => hc
    rintro _ v' ⟨hv', hseen⟩
    rw [List.map_append]
    refine ⟨hv', hfirst.append fun p hp => ?_⟩
    -- Only the first event of a file says anything new.
    by_cases hpre : event.name ∈ pre.map (·.name)
    · exact hfirst.of_mem hpre hp
    · exact hseen hpre p hp
  · exact absurd heq.symm (List.append_ne_nil_of_right_ne_nil _ (List.cons_ne_nil _ _))

/-- The note of the file hangs below the node that the parent UID names. -/
def Store.HangsBelow (s : Store) (filenameVdir : CStr) (parentUid : Option CStr) : Prop :=
  ∃ n p, s.entriesVdir.get filenameVdir = some n ∧ s.target parentUid = some p ∧
    s.links.parent n = some p

/-- Loading the notes of a sync hangs each of them below its parent. -/
theorem load_synced (hL : cfg.ical.Lawful) {ks : List CStr} (hsync : w.Synced cfg ks)
    {u u' : World Text} {listing : Option (List Dirent)} (hstart : u.AtStart)
    (hfiles : u.files = w.files) (hlisting : ValidListing (listing.getD []))
    (hlisted : ∀ k ∈ ks, ⟨k, .reg⟩ ∈ listing.getD [])
    (hrun : loadRootNodeTree cfg listing u = .ok ((), u'))
    (hwrites : ∀ x ∈ u.madeWrites u', x = .written) :
    ∀ k ∈ ks, u'.store.HangsBelow k (w.parentUid cfg k) := by
  have hloaded : Loaded cfg u (listing.getD []) (fun k o => o = u.parentUid cfg k) u' :=
    (wp_load_parents (R := fun k o => o = u.parentUid cfg k) hL hstart hlisting
      fun _ _ => rfl).ok hrun fun left hl => absurd (hwrites _ hl) WriteOutcome.writeFailed_ne
  have indexed : ∀ k ∈ ks, ∃ n, u'.store.entriesVdir.get k = some n := by
    intro k hk
    obtain ⟨uid, _, huid⟩ := hsync.named k hk
    obtain ⟨e, he⟩ := (hsync.notes k hk).loadable
    refine (hloaded.index k).2 ⟨⟨k, .reg⟩, hlisted k hk, rfl, rfl, ?_, ?_⟩
    · rw [huid]
      exact strstr_append uid _
    · rw [loadable_congr hfiles, he]
      rfl
  intro k hk
  obtain ⟨n, hn⟩ := indexed k hk
  obtain ⟨o, ho, hp⟩ := hloaded.parent k n hn
  have hparent : o = w.parentUid cfg k := by
    rw [ho]
    unfold World.parentUid World.fileComponent
    rw [hfiles]
  subst hparent
  have htarget : ∃ p, u'.store.target (w.parentUid cfg k) = some p := by
    cases huid : w.parentUid cfg k with
    | none => exact ⟨_, rfl⟩
    | some uid => exact indexed _ (hsync.parents k hk _ (by rw [World.parentFile, huid]; rfl))
  obtain ⟨p, htarget⟩ := htarget
  exact ⟨n, p, hn, htarget, hp.trans htarget⟩

/-- While a directory without notes is mounted, the notes `ks` are written to it, and events
    about all of them arrive. -/
structure Delivered (cfg : Config Text) (w : World Text) (ks : List CStr)
    (events : List InotifyEvent) : Prop where
  mounted : ∃ u listing v, u.AtStart ∧ ValidListing (listing.getD []) ∧
    (∀ k, ¬ u.Accepts cfg (listing.getD []) k) ∧ loadRootNodeTree cfg listing u = .ok ((), v) ∧
    w.store = v.store
  synced : w.Synced cfg ks
  about : ∀ event ∈ events, event.updates = true ∧ event.name ∈ ks
  all : ∀ k ∈ ks, k ∈ events.map (·.name)

/-- The events are handled to the end, and every note hangs below its parent. -/
def EventsFollowed (cfg : Config Text) (w : World Text) (ks : List CStr)
    (events : List InotifyEvent) : Prop :=
  ∃ w', events.forM (handleVdirEvent cfg) w = .ok ((), w') ∧
    ∀ k ∈ ks, w'.store.HangsBelow k (w.parentUid cfg k)

/-- The mounted tree has no notes. -/
theorem Delivered.mount (hL : cfg.ical.Lawful) {ks : List CStr} {events : List InotifyEvent}
    (h : Delivered cfg w ks events) :
    w.store.Sound ∧ ∀ k n, w.store.entriesVdir.get k ≠ some n := by
  obtain ⟨u, listing, v, hstart, hlisting, hempty, hmount, hstore⟩ := h.mounted
  have hloaded : Loaded cfg u (listing.getD []) (fun _ _ => True) v :=
    (wp_load_parents (R := fun _ _ => True) hL hstart hlisting fun _ _ => trivial).ok hmount
      fun _ _ _ => trivial
  rw [hstore]
  exact ⟨hloaded.sound, fun k n hn => hempty k ((hloaded.index k).1 ⟨n, hn⟩)⟩

/-- The order of events works if every event comes after one about the parent and the marks that
    the handlers write succeed; no other order does. The tree is then the one that loading the
    notes builds. -/
theorem event_order_iff (hL : cfg.ical.Lawful) {ks : List CStr} {events : List InotifyEvent}
    (h : Delivered cfg w ks events) :
    (EventsFollowed cfg w ks events → ParentsFirst cfg w events) ∧
      (MarksWritten cfg w events → ParentsFirst cfg w events →
        EventsFollowed cfg w ks events) ∧
      ∀ (t t' : World Text) (listing : Option (List Dirent)), t.AtStart → t.files = w.files →
        ValidListing (listing.getD []) → (∀ k ∈ ks, ⟨k, .reg⟩ ∈ listing.getD []) →
        loadRootNodeTree cfg listing t = .ok ((), t') → (∀ x ∈ t.madeWrites t', x = .written) →
          ∀ k ∈ ks, t'.store.HangsBelow k (w.parentUid cfg k) := by
  obtain ⟨hsound, hnone⟩ := h.mount hL
  refine ⟨?_, fun hwrites hfirst => ?_, ?_⟩
  · rintro ⟨w', hrun, _⟩
    have hbegun : Begun cfg w ks [] w :=
      ⟨hsound, fun k n hn => absurd hn (hnone k n), fun _ _ _ => rfl⟩
    exact (wp_events_begun h.synced hbegun h.about).ok hrun
  · have hfollowed : Followed cfg w ks [] w :=
      ⟨hsound, fun k => iff_of_false (fun ⟨n, hn⟩ => hnone k n hn) List.not_mem_nil,
        fun k n hn => absurd hn (hnone k n), fun k hk => ⟨h.synced.notes k hk, rfl⟩⟩
    obtain ⟨_, w', hrun, hw'⟩ := Prog.wp.returns
      (wp_events hL h.synced hfollowed h.about hfirst hwrites)
    refine ⟨w', hrun, fun k hk => ?_⟩
    obtain ⟨n, hn⟩ := (hw'.index k).2 (h.all k hk)
    obtain ⟨p, hp, hparent⟩ := hw'.placed k n hn
    exact ⟨n, p, hn, hp, hparent⟩
  · intro t t' listing hstart hfiles hlisting hlisted hrun hwrites
    exact load_synced hL h.synced hstart hfiles hlisting hlisted hrun hwrites

/-! ## A child before its parent -/

/-- A directory and a note in it, behind an empty mount. -/
def syncedMount : World Icalcomponent where
  store := (sampleMount [] {}).store
  files := sampleFiles nestedNote
  env := {}

/-- The directory comes first. -/
def parentFirst : List InotifyEvent := [⟨IN_CREATE, bytes "d.ics"⟩, ⟨IN_CREATE, bytes "n.ics"⟩]

/-- The note comes first. -/
def childFirst : List InotifyEvent := [⟨IN_CREATE, bytes "n.ics"⟩, ⟨IN_CREATE, bytes "d.ics"⟩]

theorem emptyMount_load_run : loadRootNodeTree sampleConfig (some []) (sampleStart []) =
    .ok ((), (loadRootNodeTree sampleConfig (some [])).final (sampleStart [])) := by
  obtain ⟨_, hrun, _⟩ := Prog.run_of_check (m := loadRootNodeTree sampleConfig (some []))
    (s := sampleStart []) (f := fun _ _ => true) (by decide +kernel)
  exact hrun

/-- A file of the sample that is readable and holds a note, by evaluation. -/
theorem holdsNote_of_check {w : World Icalcomponent} {k : CStr}
    (hr : (w.files (appendPath sampleConfig.vdir k)).any (·.readable) = true)
    (hnote : (w.fileComponent sampleConfig k).any
      (fun c => decide (IsNote c) && c.getSummary.isSome) = true) : w.HoldsNote sampleConfig k := by
  constructor
  · obtain ⟨f, hf, hr⟩ := Option.any_eq_true _ _ |>.1 hr
    exact ⟨f, hf, hr⟩
  · obtain ⟨c, hc, hnote⟩ := Option.any_eq_true _ _ |>.1 hnote
    rw [Bool.and_eq_true, decide_eq_true_eq] at hnote
    exact ⟨c, hc, hnote⟩

theorem parentFile_syncedMount_d :
    syncedMount.parentFile sampleConfig (bytes "d.ics") = none := by decide +kernel

theorem parentFile_syncedMount_n :
    syncedMount.parentFile sampleConfig (bytes "n.ics") = some (bytes "d.ics") := by decide +kernel

theorem synced_syncedMount :
    syncedMount.Synced sampleConfig [bytes "d.ics", bytes "n.ics"] := by
  have each : ∀ {P : CStr → Prop}, P (bytes "d.ics") → P (bytes "n.ics") →
      ∀ k ∈ [bytes "d.ics", bytes "n.ics"], P k := by
    intro P hd hn k hk
    rcases List.mem_cons.1 hk with rfl | hk
    · exact hd
    · exact List.mem_singleton.1 hk ▸ hn
  have hd := parentFile_syncedMount_d
  have hn := parentFile_syncedMount_n
  have top : ∀ p, ¬ Relation.TransGen
      (fun k p => syncedMount.parentFile sampleConfig k = some p) (bytes "d.ics") p := by
    intro p h
    obtain ⟨c, hc, _⟩ := Relation.TransGen.head'_iff.1 h
    rw [hd] at hc
    exact nomatch hc
  constructor
  case flat => decide
  case named => exact each ⟨bytes "d", by decide +kernel, rfl⟩ ⟨bytes "n", by decide +kernel, rfl⟩
  case notes =>
    exact each (holdsNote_of_check (by decide +kernel) (by decide +kernel))
      (holdsNote_of_check (by decide +kernel) (by decide +kernel))
  case parents =>
    refine each (fun p hp => ?_) (fun p hp => ?_)
    · rw [hd] at hp
      exact nomatch hp
    · rw [hn] at hp
      exact Option.some.inj hp ▸ List.mem_cons_self
  case acyclic =>
    refine each (top _) fun h => ?_
    obtain ⟨c, hc, hcn⟩ := Relation.TransGen.head'_iff.1 h
    rw [hn] at hc
    obtain rfl := Option.some.inj hc
    rcases Relation.ReflTransGen.cases_head hcn with heq | ⟨c, hc, _⟩
    · exact absurd heq (by decide)
    · exact top _ (.single hc)

/-- Nothing is loaded from an empty listing. -/
theorem not_accepts_nil {u : World Text} (k : CStr) : ¬ u.Accepts cfg [] k := by
  rintro ⟨dirent, hmem, _⟩
  exact nomatch hmem

theorem delivered_syncedMount {events : List InotifyEvent}
    (habout : ∀ event ∈ events, event.updates = true ∧ event.name ∈ [bytes "d.ics", bytes "n.ics"])
    (hall : ∀ k ∈ [bytes "d.ics", bytes "n.ics"], k ∈ events.map (·.name)) :
    Delivered sampleConfig syncedMount [bytes "d.ics", bytes "n.ics"] events where
  mounted := ⟨sampleStart [], some [], _, fun _ => rfl, ⟨List.nodup_nil, fun _ h => nomatch h⟩,
    not_accepts_nil, emptyMount_load_run, rfl⟩
  synced := synced_syncedMount
  about := habout
  all := hall

theorem parentsFirst_parentFirst : ParentsFirst sampleConfig syncedMount parentFirst :=
  have empty : ParentsFirst sampleConfig syncedMount [] := fun _ _ _ heq =>
    absurd heq.symm (List.append_ne_nil_of_right_ne_nil _ (List.cons_ne_nil _ _))
  have one : ParentsFirst sampleConfig syncedMount [⟨IN_CREATE, bytes "d.ics"⟩] :=
    empty.append fun _ hp => nomatch parentFile_syncedMount_d.symm.trans hp
  one.append fun _ hp => by
    obtain rfl := Option.some.inj (parentFile_syncedMount_n.symm.trans hp)
    exact List.mem_cons_self

theorem marksWritten_parentFirst : MarksWritten sampleConfig syncedMount parentFirst := by
  intro pre event post v hxs hrun _
  cases pre with
  | nil =>
    cases hrun
    rfl
  | cons first pre =>
    cases pre with
    | nil =>
      obtain rfl : (⟨IN_CREATE, bytes "d.ics"⟩ : InotifyEvent) = first := (List.cons.inj hxs).1
      have hnone : (List.forM [(⟨IN_CREATE, bytes "d.ics"⟩ : InotifyEvent)]
          (handleVdirEvent sampleConfig)).check syncedMount
          (fun _ v => v.env.writes.isEmpty) = true := by decide +kernel
      rw [Prog.check_run hrun] at hnone
      unfold World.outcome
      rw [List.isEmpty_iff.1 hnone]
      rfl
    | cons second pre =>
      have hlength := congrArg List.length hxs
      simp [parentFirst] at hlength

theorem event_order_iff_parentFirst :
    EventsFollowed sampleConfig syncedMount [bytes "d.ics", bytes "n.ics"] parentFirst :=
  (event_order_iff structuralIcal_lawful
    (delivered_syncedMount (by decide) (by decide))).2.1 marksWritten_parentFirst
    parentsFirst_parentFirst

/-- The handler of a note whose parent comes later follows a NULL pointer. -/
theorem not_all_event_orders_followed :
    ¬ ∀ (w : World Icalcomponent) (ks : List CStr) (events : List InotifyEvent),
      Delivered sampleConfig w ks events → EventsFollowed sampleConfig w ks events := by
  intro hall
  obtain ⟨w', hrun, _⟩ := hall _ _ childFirst (delivered_syncedMount (by decide) (by decide))
  have hstops : (childFirst.forM (handleVdirEvent sampleConfig)).check syncedMount
      (fun _ _ => true) = false := by decide +kernel
  rw [Prog.check_run hrun] at hstops
  cases hstops

end Agendafs
