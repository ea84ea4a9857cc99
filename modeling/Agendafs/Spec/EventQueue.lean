import Agendafs.ForStd.WorkQueue
import Agendafs.Spec.Runs
import Agendafs.Spec.LoadedTree
import Agendafs.Spec.HeldNotes

/-!
# The handler and its own writes

Handling the event of a note may mark the file of its parent as a directory, and
inotify reports that write to the handler again. A mark takes out the first
directory flag of the file and puts YES behind the others, so after as many
marks as flags stand before the first YES the file is a directory and is not
written any more. A file that is no note may be written without end, but its
events come to nothing.

## Key results

- `marksUntil_mark`: a mark brings the flag that is read one step closer to YES
- `handleVdirEvent_writes`: what the handler writes
- `event_queue_drains`: the queue runs empty
-/

namespace Agendafs

open Icalcomponent Store

variable {Text : Type} {cfg : Config Text} {w w' : World Text}

/-! ## How many marks a file takes -/

/-- The number of marks until the first flag is a YES. -/
def marksUntil (isYes : Icalproperty → Bool) (flags : List Icalproperty) : ℕ :=
  if flags = [] then 1 else flags.findIdx isYes

theorem marksUntil_mark {isYes : Icalproperty → Bool} {flags : List Icalproperty}
    {yes : Icalproperty} (hyes : isYes yes = true)
    (hhead : ∀ p, flags.head? = some p → isYes p = false) :
    marksUntil isYes (flags.tail ++ [yes]) + 1 = marksUntil isYes flags := by
  have hyesIdx : [yes].findIdx isYes = 0 := by rw [List.findIdx_cons, hyes, cond_true]
  unfold marksUntil
  cases flags with
  | nil => rw [List.tail_nil, List.nil_append, hyesIdx, if_neg (List.cons_ne_nil _ _), if_pos rfl]
  | cons p flags =>
    have hp : isYes p = false := hhead p rfl
    rw [List.tail_cons, if_neg (by simp), if_neg (List.cons_ne_nil _ _), List.findIdx_cons, hp,
      cond_false, List.findIdx_append, hyesIdx]
    have hle : flags.findIdx isYes ≤ flags.length := List.findIdx_le_length
    split <;> omega

/-- The directory flags of a file. -/
def World.flags (cfg : Config Text) (w : World Text) (filenameVdir : CStr) :
    Option (List Icalproperty) :=
  (w.fileComponent cfg filenameVdir).bind (·.view anyKind (isXProp isDirectoryProperty))

/-- A flag that is read as YES. -/
def readsYes (cfg : Config Text) (p : Icalproperty) : Bool :=
  cfg.ical.valueAsString p.value = bytes "YES"

/-- The number of marks that the file of a note can take. -/
def World.marksLeft (cfg : Config Text) (w : World Text) (filenameVdir : CStr) : ℕ :=
  if (w.loadable cfg filenameVdir).isSome then
    (w.flags cfg filenameVdir).elim 0 (marksUntil (readsYes cfg))
  else 0

/-- The flags after a mark, in a component that has a subcomponent. -/
theorem flags_marked {c : Icalcomponent} (hparsed : c.parsed = true) (hc : c.kinds ≠ [])
    (now : CStr) :
    (markedComponent now c).view anyKind (isXProp isDirectoryProperty) =
      (c.view anyKind (isXProp isDirectoryProperty)).map
        (·.tail ++ [⟨.x, isDirectoryProperty, none, bytes "YES"⟩]) := by
  unfold markedComponent
  rw [view_restamped (onlyKind_isXProp _) (by decide) (parsed_markAsDirectory hparsed)]
  exact view_setUniqueXValue hc _ _

/-- A mark of the file of a note is one that the file could take. -/
theorem marksLeft_marked (hL : cfg.ical.Lawful) (ho : w.outcome = .written) {p : NodeId} {k : CStr}
    (hk : w.markedFile cfg p = some k) (hnote : (w.loadable cfg k).isSome = true) :
    (w.marked cfg p).marksLeft cfg k + 1 = w.marksLeft cfg k := by
  obtain ⟨e, pic, _, _, hpic, hdirectory, _⟩ := marked_of_markedFile hk
  have hparsed := parsed_of_fileComponent hL hpic
  unfold World.marksLeft World.flags
  rw [isSome_loadable_marked hL ho, hnote, if_pos rfl, if_pos rfl, fileComponent_marked hL ho,
    if_pos hk, hpic, Option.map_some, Option.bind_some, Option.bind_some]
  -- A note has a subcomponent, so the flags that are read are those that are set.
  have hisNote : IsNote pic := by
    by_contra hnot
    unfold World.loadable at hnote
    rw [hpic, Option.bind_some, agendaEntryOf_eq, if_neg hnot] at hnote
    exact nomatch hnote
  obtain ⟨ps, hps⟩ := exists_view_of_isNote hisNote (isXProp isDirectoryProperty)
  rw [flags_marked hparsed (kinds_ne_nil_of_isNote hisNote), hps]
  refine marksUntil_mark ?_ fun q hq => ?_
  · unfold readsYes
    rw [hL.valueAsString_plain _ (by decide)]
    exact decide_eq_true rfl
  · rw [isDirectoryComponent_eq, icalcomponentGetUniqXValue_eq, hps, Option.bind_some, hq,
      Bool.or_eq_false_iff] at hdirectory
    unfold readsYes
    refine decide_eq_false fun hyes => of_decide_eq_false hdirectory.2 ?_
    rw [Option.map_some, hyes]

/-- The other files can take as many marks as before. -/
theorem marksLeft_marked_of_ne (hL : cfg.ical.Lawful) (ho : w.outcome = .written) {p : NodeId}
    {k : CStr} (hk : w.markedFile cfg p ≠ some k) :
    (w.marked cfg p).marksLeft cfg k = w.marksLeft cfg k := by
  unfold World.marksLeft World.flags
  rw [isSome_loadable_marked hL ho, fileComponent_marked hL ho, if_neg hk]

/-! ## One event -/

/-- The file that is written while an event is handled. -/
def World.writtenBy (cfg : Config Text) (w : World Text) (event : InotifyEvent) : Option CStr :=
  if event.updates then
    (w.loadable cfg (event.file cfg)).bind fun e =>
      ((w.store.upsert e).2.target (w.parentUid cfg (event.file cfg))).bind fun p =>
        World.markedFile cfg { w with store := w.store.updated e p } p
  else none

/-- One `write_ical_file` to the file, or none, is all that has happened to files and clock. -/
def World.WritesOnly (cfg : Config Text) (w w' : World Text) : Option CStr → Prop
  | none => w'.files = w.files ∧ w'.env = w.env
  | some k => ∃ ic, w'.files = (w.wrote cfg k ic).files ∧ w'.env = (w.wrote cfg k ic).env

/-- An event that is handled comes to nothing, or its note is placed below its parent and
    the file of the parent is the one that is written. -/
theorem handleVdirEvent_cases (h : w.store.Sound) {event : InotifyEvent}
    (hrun : handleVdirEvent cfg event w = .ok ((), w')) :
    (w' = w ∧ w.writtenBy cfg event = none ∧
      (event.updates = true → w.loadable cfg (event.file cfg) = none)) ∨
    ∃ e p, event.updates = true ∧ w.loadable cfg (event.file cfg) = some e ∧
      w.HandlesBelow cfg (event.file cfg) e p ∧ w' = w.updated cfg e p ∧
      w.writtenBy cfg event = World.markedFile cfg { w with store := w.store.updated e p } p := by
  unfold World.writtenBy InotifyEvent.file
  cases hevent : event.updates with
  | false =>
    cases hrun.symm.trans (handleVdirEvent_run h hevent)
    exact .inl ⟨rfl, rfl, nofun⟩
  | true =>
    rw [handleVdirEvent_eq hevent, Prog.bind_run] at hrun
    have hwp : Prog.wp (updateOrCreateFuseEntryFromVdir cfg (appendPath cfg.vdir event.name)) _
        (fun _ => True) w :=
      wp_updateOrCreateFuseEntryFromVdir h.toInv fun _ _ _ => trivial
    split at hrun
    · rename_i status v hupdate
      cases hrun
      have hv := (hwp.ok hupdate).2
      rw [if_pos rfl]
      cases he : w.loadable cfg (getFilename (appendPath cfg.vdir event.name)) with
      | none =>
        rw [he] at hv
        exact .inl ⟨hv.2, rfl, fun _ => rfl⟩
      | some e =>
        rw [he] at hv
        obtain ⟨p, hp, _, rfl⟩ := hv
        refine .inr ⟨e, p, rfl, rfl, hp, rfl, ?_⟩
        rw [Option.bind_some, hp.target, Option.bind_some]
    · exact nomatch hrun

/-- Handling an event writes that file once, and no other. -/
theorem handleVdirEvent_writes (h : w.store.Sound) {event : InotifyEvent}
    (hrun : handleVdirEvent cfg event w = .ok ((), w')) :
    w.WritesOnly cfg w' (w.writtenBy cfg event) := by
  rcases handleVdirEvent_cases h hrun with ⟨rfl, hnone, _⟩ | ⟨e, p, _, _, _, rfl, hwritten⟩
  · rw [hnone]
    exact ⟨rfl, rfl⟩
  · rw [hwritten]
    unfold World.updated
    cases hm : World.markedFile cfg { w with store := w.store.updated e p } p with
    | none =>
      rw [marked_of_markedFile_none hm]
      exact ⟨rfl, rfl⟩
    | some k =>
      obtain ⟨_, pic, _, _, _, _, hmarked⟩ := marked_of_markedFile hm
      exact ⟨_, by rw [hmarked]; rfl, by rw [hmarked]; rfl⟩

/-- The state in which each file's parent UID is absent or indexed, files parse and
    writes succeed. -/
structure World.Settled (cfg : Config Text) (w : World Text) : Prop where
  opens : ∀ k, slash ∉ k → strstr (bytes ".ics") k = true →
    w.files (appendPath cfg.vdir k) ≠ none → w.Readable cfg k
  parses : w.Parses cfg
  parent : ∀ k, slash ∉ k → strstr (bytes ".ics") k = true → (w.loadable cfg k).isSome = true →
    ∃ p, w.store.target (w.parentUid cfg k) = some p
  writes : ∀ o ∈ w.env.writes, o = .written

theorem World.Settled.outcome (h : w.Settled cfg) : w.outcome = .written :=
  outcome_of_writes h.writes

section Step

variable {e : AgendaEntry} {k : CStr} {p : NodeId}

/-- Updating or creating the node of a file that parses. -/
theorem World.Parses.upserted (h : w.Parses cfg) (hs : w.store.Inv) (hr : w.Readable cfg k)
    (he : w.loadable cfg k = some e) (hk : e.filenameVdir = k) : (w.upserted e).Parses cfg := by
  intro n e' he'
  change w.Readable cfg e'.filenameVdir ∧ (w.fileComponent cfg e'.filenameVdir).isSome = true
  by_cases hn : n = (w.store.upsert e).1
  · have hentry := (congrArg (w.store.upsert e).2.entry hn).trans (upsert_entry hs)
    cases he'.symm.trans hentry
    obtain ⟨c, hc, _⟩ := Option.bind_eq_some_iff.1 he
    rw [hk, hc]
    exact ⟨hr, rfl⟩
  · have hentry : w.store.entry n = some e' := (upsert_entry_of_ne hn).symm.trans he'
    exact h n e' hentry

/-- A node that is moved keeps its file. -/
theorem World.Parses.placed {s : Store} (h : World.Parses cfg { w with store := s }) (c : NodeId)
    (x : CStr) : World.Parses cfg { w with store := s.place p c x } := by
  intro n e' he'
  change (s.place p c x).entry n = some e' at he'
  rw [place_entry] at he'
  split at he'
  · obtain ⟨e'', he'', rfl⟩ := Option.map_eq_some_iff.1 he'
    exact h n e'' he''
  · exact h n e' he'

/-- A file whose parent is in the index can be handled. -/
theorem World.Parses.handlesBelow (h : w.Parses cfg) (hs : w.store.Inv) (ho : w.outcome = .written)
    (hr : w.Readable cfg k) (he : w.loadable cfg k = some e) (hk : e.filenameVdir = k)
    (hp : w.store.target (w.parentUid cfg k) = some p) : w.HandlesBelow cfg k e p := by
  have htarget := target_upsert_of_some (e := e) hp
  refine ⟨htarget, fun hne => ?_⟩
  obtain ⟨e', he'⟩ := hs.upsert.entry_of_target hne htarget
  have hparses := h.upserted hs hr he hk p e' he'
  refine takesNotes_of_entry he' hparses.1 hparses.2 ?_
  exact (congrArg WriteOutcome.status ho : w.outcome.status = _)

/-- A file that is absent is not written by a mark. -/
theorem files_marked_of_none (h : w.files (appendPath cfg.vdir k) = none) (p : NodeId) :
    (w.marked cfg p).files (appendPath cfg.vdir k) = none := by
  refine (files_marked_of_ne fun hm => ?_).trans h
  obtain ⟨_, pic, _, _, hpic, _⟩ := marked_of_markedFile hm
  rw [World.fileComponent, h] at hpic
  cases hpic

/-- Marking a directory. -/
theorem World.Parses.marked (hL : cfg.ical.Lawful) (ho : w.outcome = .written)
    (h : w.Parses cfg) (p : NodeId) : (w.marked cfg p).Parses cfg := by
  intro n e he
  rw [marked_store] at he
  obtain ⟨hr, hparses⟩ := h n e he
  refine ⟨readable_marked hr p, ?_⟩
  rw [fileComponent_marked hL ho]
  split
  · rw [Option.isSome_map]
    exact hparses
  · exact hparses

/-- A mark leaves the state settled. -/
theorem World.Settled.marked (hL : cfg.ical.Lawful) (h : w.Settled cfg) (p : NodeId) :
    (w.marked cfg p).Settled cfg := by
  have ho := h.outcome
  refine ⟨fun k hflat hics hsome => ?_, h.parses.marked hL ho p, fun k hflat hics hsome => ?_,
    fun o hmem => h.writes o (marked_env_writes p o hmem)⟩
  · exact readable_marked (h.opens k hflat hics fun hnone => hsome (files_marked_of_none hnone p)) p
  · rw [isSome_loadable_marked hL ho] at hsome
    obtain ⟨p', hp'⟩ := h.parent k hflat hics hsome
    rcases parentUid_marked (w := w) hL p k with huid | ⟨_, hleft, _⟩
    · exact ⟨p', by rw [huid, marked_store]; exact hp'⟩
    · exact nomatch ho.symm.trans hleft

/-- And so does handling a note that can be read. -/
theorem World.Settled.updated (hL : cfg.ical.Lawful) (h : w.Settled cfg) (hs : w.store.Inv)
    (hr : w.Readable cfg k) (he : w.loadable cfg k = some e) (hk : e.filenameVdir = k) :
    (w.updated cfg e p).Settled cfg := by
  have hplaced : World.Settled cfg { w with store := w.store.updated e p } := by
    refine ⟨h.opens, (h.parses.upserted hs hr he hk).placed _ _, fun k' hflat hics hsome => ?_,
      h.writes⟩
    obtain ⟨p', hp'⟩ := h.parent k' hflat hics hsome
    exact ⟨p', (updated_target _).trans (target_upsert_of_some hp')⟩
  exact hplaced.marked hL p

theorem World.Settled.readable (h : w.Settled cfg) {event : InotifyEvent}
    (hevent : event.updates = true) (hflat : slash ∉ event.name)
    (he : w.loadable cfg event.name = some e) : w.Readable cfg event.name := by
  simp only [InotifyEvent.updates, Bool.and_eq_true] at hevent
  refine h.opens event.name hflat hevent.1.1.2 fun hnone => ?_
  rw [World.loadable, World.fileComponent, hnone] at he
  cases he

/-- In a settled state the handler returns. -/
theorem handleVdirEvent_returns (hs : w.store.Sound) (h : w.Settled cfg) {event : InotifyEvent}
    (hflat : slash ∉ event.name) : ∃ w', handleVdirEvent cfg event w = .ok ((), w') := by
  cases hevent : event.updates with
  | false => exact ⟨w, handleVdirEvent_run hs hevent⟩
  | true =>
    have hics : strstr (bytes ".ics") event.name = true := by
      simp only [InotifyEvent.updates, Bool.and_eq_true] at hevent
      exact hevent.1.1.2
    have hgo : w.Handles cfg (getFilename (appendPath cfg.vdir event.name)) := by
      rw [getFilename_appendPath cfg.vdir hflat]
      refine ⟨h.opens event.name hflat hics, fun e he => ?_⟩
      have hr := h.readable hevent hflat he
      obtain ⟨p, hp⟩ := h.parent event.name hflat hics (by rw [he]; rfl)
      exact ⟨p, h.parses.handlesBelow hs.toInv h.outcome hr he (filenameVdir_of_loadable hflat he) hp⟩
    obtain ⟨_, w', hrun, _⟩ := (wp_updateOrCreateFuseEntryFromVdir (E := fun _ => False) hs.toInv
      fun hstop => absurd hgo hstop).returns
    rw [handleVdirEvent_eq hevent, Prog.bind_run_ok hrun]
    exact ⟨w', rfl⟩

end Step

/-! ## The queue -/

/-- The handler takes the first event off the queue. When it writes a file, inotify adds
    between one and `B` events about that file. -/
inductive Delivery (cfg : Config Text) (B : ℕ) :
    World Text × List InotifyEvent → World Text × List InotifyEvent → Prop
  | silent {w w' : World Text} {event : InotifyEvent} {queue : List InotifyEvent}
      (hrun : handleVdirEvent cfg event w = .ok ((), w'))
      (hwritten : w.writtenBy cfg event = none) :
      Delivery cfg B (w, event :: queue) (w', queue)
  | writes {w w' : World Text} {event : InotifyEvent} {queue : List InotifyEvent} {k : CStr}
      {b : ℕ} (hrun : handleVdirEvent cfg event w = .ok ((), w'))
      (hwritten : w.writtenBy cfg event = some k) (hpos : 0 < b) (hb : b ≤ B) :
      Delivery cfg B (w, event :: queue) (w', queue ++ List.replicate b ⟨IN_MODIFY, k⟩)

/-- What holds while the queue drains: which files hold notes does not change, and all files
    that are indexed or in the queue are among `keys`. -/
structure Draining (cfg : Config Text) (keys : Finset CStr) (busy : CStr → Bool)
    (s : World Text × List InotifyEvent) : Prop where
  sound : s.1.store.Sound
  settled : s.1.Settled cfg
  busy : ∀ k, (s.1.loadable cfg k).isSome = busy k
  indexed : ∀ k n, s.1.store.entriesVdir.get k = some n → k ∈ keys
  queued : ∀ event ∈ s.2, event.name ∈ keys
  flat : ∀ event ∈ s.2, slash ∉ event.name

/-- The marks the files can take, and the files the events are about. -/
def credits (cfg : Config Text) (s : World Text × List InotifyEvent) : (CStr → ℕ) × List CStr :=
  (s.1.marksLeft cfg, s.2.map (·.name))

section Queue

variable {keys : Finset CStr} {busy : CStr → Bool} {event : InotifyEvent}
  {queue : List InotifyEvent} {e : AgendaEntry} {p : NodeId}

/-- After the note of an event has been placed, with new events about indexed files. -/
theorem Draining.updated (hL : cfg.ical.Lawful) (h : Draining cfg keys busy (w, event :: queue))
    (hr : w.Readable cfg event.name) (he : w.loadable cfg event.name = some e)
    (hp : w.HandlesBelow cfg event.name e p) {events : List InotifyEvent}
    (hevents : ∀ ev ∈ events, ∃ n, (w.updated cfg e p).store.entriesVdir.get ev.name = some n) :
    Draining cfg keys busy (w.updated cfg e p, queue ++ events) := by
  have hk := filenameVdir_of_loadable (h.flat event List.mem_cons_self) he
  have hsound := (handled_of_target he hp.target).sound h.sound
  have hindexed : ∀ k n, (w.updated cfg e p).store.entriesVdir.get k = some n → k ∈ keys := by
    intro k n hn
    rw [updated_store, updated_get, hk] at hn
    split at hn
    · rename_i heq
      rw [heq]
      exact h.queued event List.mem_cons_self
    · exact h.indexed k n hn
  refine ⟨hsound, h.settled.updated hL h.sound.toInv hr he hk, fun k => ?_, hindexed, ?_, ?_⟩
  · rw [← h.busy k]
    exact isSome_loadable_marked (w := { w with store := w.store.updated e p }) hL
      h.settled.outcome p k
  · intro ev hev
    rcases List.mem_append.1 hev with hev | hev
    · exact h.queued ev (List.mem_cons_of_mem _ hev)
    · obtain ⟨n, hn⟩ := hevents ev hev
      exact hindexed _ n hn
  · intro ev hev
    rcases List.mem_append.1 hev with hev | hev
    · exact h.flat ev (List.mem_cons_of_mem _ hev)
    · obtain ⟨n, hn⟩ := hevents ev hev
      exact hsound.key_flat hn

/-- Handling one event is a step of the queue of files. -/
theorem Delivery.step (hL : cfg.ical.Lawful) {B : ℕ} {s s' : World Text × List InotifyEvent}
    (h : Draining cfg keys busy s) (hs : Delivery cfg B s s') :
    Draining cfg keys busy s' ∧
      WorkQueue.Step keys busy B (credits cfg s) (credits cfg s') := by
  cases hs with
  | @silent w w' event queue hrun hwritten =>
    have hfile := getFilename_appendPath cfg.vdir (h.flat event List.mem_cons_self)
    rcases handleVdirEvent_cases h.sound hrun with
      ⟨rfl, _⟩ | ⟨e, p, hevent, he, hp, rfl, hwritten'⟩
    · exact ⟨{ h with
        queued := fun ev hev => h.queued ev (List.mem_cons_of_mem _ hev)
        flat := fun ev hev => h.flat ev (List.mem_cons_of_mem _ hev) }, .done⟩
    · rw [InotifyEvent.file, hfile] at he hp
      have hr := h.settled.readable hevent (h.flat event List.mem_cons_self) he
      have hafter : Draining cfg keys busy (w.updated cfg e p, queue ++ []) :=
        h.updated hL hr he hp fun ev hev => absurd hev List.not_mem_nil
      rw [List.append_nil] at hafter
      refine ⟨hafter, ?_⟩
      -- Nothing is written, so the files stay as they are.
      have hmarks : (w.updated cfg e p).marksLeft cfg = w.marksLeft cfg := by
        unfold World.updated
        rw [marked_of_markedFile_none (hwritten'.symm.trans hwritten)]
        rfl
      unfold credits
      rw [hmarks]
      exact .done
  | @writes w w' event queue k b hrun hwritten hpos hb =>
    have hfile := getFilename_appendPath cfg.vdir (h.flat event List.mem_cons_self)
    rcases handleVdirEvent_cases h.sound hrun with
      ⟨_, hnone, _⟩ | ⟨e, p, hevent, he, hp, rfl, hwritten'⟩
    · cases hnone.symm.trans hwritten
    · rw [InotifyEvent.file, hfile] at he hp
      have hr := h.settled.readable hevent (h.flat event List.mem_cons_self) he
      have ho : World.outcome { w with store := w.store.updated e p } = .written :=
        h.settled.outcome
      have hmarked : World.markedFile cfg { w with store := w.store.updated e p } p = some k :=
        hwritten'.symm.trans hwritten
      have hindex : ∃ n, (w.updated cfg e p).store.entriesVdir.get k = some n := by
        obtain ⟨e', _, he', hk, _⟩ := marked_of_markedFile hmarked
        have hsound := (handled_of_target he hp.target).sound h.sound
        exact ⟨p, (hsound.index k p).2 ⟨e', by rw [updated_store]; exact he', hk⟩⟩
      have hafter : Draining cfg keys busy
          (w.updated cfg e p, queue ++ List.replicate b ⟨IN_MODIFY, k⟩) :=
        h.updated hL hr he hp fun ev hev => by
          rw [List.eq_of_mem_replicate hev]
          exact hindex
      refine ⟨hafter, ?_⟩
      have hothers : ∀ q, q ≠ k → (w.updated cfg e p).marksLeft cfg q = w.marksLeft cfg q :=
        fun q hq => marksLeft_marked_of_ne hL ho fun heq =>
          hq (Option.some.inj (hmarked.symm.trans heq)).symm
      unfold credits
      rw [List.map_append, List.map_replicate]
      by_cases hbusy : busy k = true
      · obtain ⟨n, hn⟩ := hindex
        refine .spend (hafter.indexed k n hn) ?_ hothers hb
        exact marksLeft_marked hL ho hmarked ((h.busy k).trans hbusy)
      -- A file that is no note may be written again, but has no credit.
      · have hidle : ∀ v : World Text, (v.loadable cfg k).isSome = busy k → v.marksLeft cfg k = 0 :=
          fun v hv => by
            unfold World.marksLeft
            rw [hv, if_neg hbusy]
        have hmarks : (w.updated cfg e p).marksLeft cfg = w.marksLeft cfg := by
          funext q
          by_cases hq : q = k
          · rw [hq, hidle _ (hafter.busy k), hidle _ (h.busy k)]
          · exact hothers q hq
        rw [hmarks]
        exact .feed ((h.busy event.name).symm.trans (by rw [he]; rfl)) (Bool.eq_false_iff.2 hbusy) hb

/-- Whatever comes first can be handled. -/
theorem Draining.proceeds {B : ℕ} (hB : 0 < B) {s : World Text × List InotifyEvent}
    (h : Draining cfg keys busy s) (hne : s.2 ≠ []) : ∃ s', Delivery cfg B s s' := by
  obtain ⟨v, queue⟩ := s
  cases queue with
  | nil => exact absurd rfl hne
  | cons event queue =>
    obtain ⟨v', hrun⟩ := handleVdirEvent_returns h.sound h.settled (h.flat event List.mem_cons_self)
    cases hwritten : v.writtenBy cfg event with
    | none => exact ⟨_, .silent hrun hwritten⟩
    | some k => exact ⟨_, .writes hrun hwritten hB le_rfl⟩

/-- What holds before the first event. -/
theorem World.Settled.draining (h : w.Settled cfg) (hs : w.store.Sound)
    (hqueue : ∀ event ∈ queue, slash ∉ event.name) :
    ∃ keys busy, Draining cfg keys busy (w, queue) := by
  refine ⟨w.store.entriesVdir.getKeys.toFinset ∪ (queue.map (·.name)).toFinset,
    fun k => (w.loadable cfg k).isSome, hs, h, fun _ => rfl, fun k n hn => ?_, fun ev hev => ?_,
    hqueue⟩
  · rw [Finset.mem_union, List.mem_toFinset, Hashmap.mem_getKeys]
    exact .inl ⟨n, hn⟩
  · rw [Finset.mem_union, List.mem_toFinset, List.mem_toFinset]
    exact .inr (List.mem_map_of_mem hev)

/-- The handler does not feed itself: in a state where each file's parent UID is absent or
    indexed, files parse and writes succeed, the length of every run of the handler over a queue
    of events is bounded, and a run can only end when the queue is empty. -/
theorem event_queue_drains (hL : cfg.ical.Lawful) (h : w.store.Sound) (hsettled : w.Settled cfg)
    (hqueue : ∀ event ∈ queue, slash ∉ event.name) {B : ℕ} (hB : 0 < B) :
    ∃ N, ∀ (run : ℕ → World Text × List InotifyEvent) (n : ℕ), run 0 = (w, queue) →
      (∀ i < n, Delivery cfg B (run i) (run (i + 1))) →
        n ≤ N ∧ ((run n).2 ≠ [] → ∃ s, Delivery cfg B (run n) s) := by
  obtain ⟨keys, busy, hstart⟩ := hsettled.draining h hqueue
  refine ⟨WorkQueue.potential keys busy B (credits cfg (w, queue)), fun run n hrun hsteps => ?_⟩
  obtain ⟨hn, hle⟩ := WorkQueue.length_le_of_potential
    (fun s s' hs hd => ⟨(hd.step hL hs).1, (hd.step hL hs).2.potential_lt⟩)
    (hrun ▸ hstart) n hsteps
  rw [hrun] at hle
  refine ⟨by omega, fun hne => ?_⟩
  exact hn.proceeds hB hne

end Queue

/-- Notes without parents. -/
def plainNotes : List (CStr × Icalcomponent) :=
  [(bytes "a.ics", sampleNote (bytes "a") (bytes "A") []),
    (bytes "b.ics", sampleNote (bytes "b") (bytes "B") [])]

/-- The same notes, each below the other, with flags that are not YES. -/
def cyclicNotes : List (CStr × Icalcomponent) :=
  let no : Icalproperty := { kind := .x, xName := isDirectoryProperty, value := bytes "NO" }
  [(bytes "a.ics", sampleNote (bytes "a") (bytes "A") [sampleParent (bytes "b"), no, no]),
    (bytes "b.ics", sampleNote (bytes "b") (bytes "B") [sampleParent (bytes "a"), no])]

/-- A mount whose notes another program has put below each other. -/
def cyclicMount : World Icalcomponent :=
  { sampleMount plainNotes {} with files := sampleFiles cyclicNotes }

theorem settled_cyclicMount (h : cyclicMount.store.Sound) :
    cyclicMount.Settled sampleConfig where
  opens k _ _ hsome := by
    obtain ⟨f, hf⟩ := Option.ne_none_iff_exists'.1 hsome
    obtain ⟨_, _, rfl⟩ := Option.map_eq_some_iff.1 hf
    exact ⟨_, hf, rfl⟩
  parses := parses_of_check h.toInv (by decide +kernel)
  parent k _ _ hsome := by
    have hparents : ∀ p ∈ cyclicNotes, (cyclicMount.store.target
        (cyclicMount.parentUid sampleConfig p.1)).isSome = true := by decide +kernel
    -- A file that holds a note is one of the two.
    obtain ⟨e, he⟩ := Option.isSome_iff_exists.1 hsome
    obtain ⟨c, hc, _⟩ := Option.bind_eq_some_iff.1 he
    obtain ⟨f, hf, _⟩ := Option.bind_eq_some_iff.1 hc
    obtain ⟨p, hp, _⟩ := Option.map_eq_some_iff.1 hf
    have hname := List.find?_some hp
    rw [← appendPath_inj.1 (of_decide_eq_true hname)]
    exact Option.isSome_iff_exists.1 (hparents p (List.mem_of_find?_eq_some hp))
  writes o ho := nomatch ho

theorem event_queue_drains_cyclicMount :
    ∃ N, ∀ (run : ℕ → World Icalcomponent × List InotifyEvent) (n : ℕ),
      run 0 = (cyclicMount, [⟨IN_MODIFY, bytes "a.ics"⟩, ⟨IN_CREATE, bytes "b.ics"⟩]) →
      (∀ i < n, Delivery sampleConfig 2 (run i) (run (i + 1))) →
        n ≤ N ∧ ((run n).2 ≠ [] → ∃ s, Delivery sampleConfig 2 (run n) s) := by
  have hreach : Reachable sampleConfig (sampleMount plainNotes {}) :=
    run_sampleMount {} (by decide) (by decide) trivial (by decide +kernel)
  have hsound : cyclicMount.store.Sound := hreach.sound
  exact event_queue_drains structuralIcal_lawful hsound (settled_cyclicMount hsound) (by decide)
    (by decide)

end Agendafs
