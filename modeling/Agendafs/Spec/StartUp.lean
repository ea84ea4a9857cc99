import Agendafs.Spec.EventQueue

/-!
# Other programs during the start-up

`main` scans VDIR, hangs the notes, and starts the thread that adds the watch; only
from then on does inotify report changes. `StartStep` interleaves these steps, each
the body of a loop of the source, with the changes of another program. A change
that comes behind the reading of its file and before the watch is never seen, and a
mark made by the load is not reported either.

## Key results

- `load_startUp`: without other programs the steps are those of `load_root_node_tree`
- `start_up_follows_changes`: when the steps are undisturbed, every note is followed
-/

namespace Agendafs

open Icalcomponent Store

variable {Text : Type} {cfg : Config Text} {w w' : World Text}

/-! ## The steps -/

/-- How far `main` has come. -/
inductive Phase (Text : Type)
  /-- `readdir` goes through the directory as it was opened and has returned these names. -/
  | scanning (opened : CStr → Option (File Text)) (listed : List CStr)
  /-- The second loop has these keys to go, or it is over and the watch is not added yet. -/
  | attaching (keys : List CStr)
  /-- `inotify_add_watch` has returned, and these events wait. -/
  | watching (queue : List InotifyEvent)

/-- The program and VDIR during the start-up. -/
structure StartUp (Text : Type) where
  world : World Text
  phase : Phase Text

/-- The directory has just been opened. -/
def StartUp.opened (w : World Text) : StartUp Text :=
  ⟨{ w with store := w.store.mount }, .scanning w.files []⟩

/-- inotify queues events once the watch has been added. -/
def Phase.notify (events : List InotifyEvent) : Phase Text → Phase Text
  | .watching queue => .watching (queue ++ events)
  | phase => phase

/-- The state after another program has written a file of VDIR. -/
def World.changed (cfg : Config Text) (w : World Text) (filenameVdir : CStr) (f : File Text) :
    World Text :=
  { w with files := fun path => if path = appendPath cfg.vdir filenameVdir then some f
                                else w.files path }

/-- A step of `main` or of another program. -/
inductive StartOp (Text : Type)
  | change (filenameVdir : CStr) (f : File Text) (events : List InotifyEvent)
  | scan (entry : Dirent)
  | scanned
  | attach
  | watch
  | handle

/-- What the steps do. -/
inductive StartStep (cfg : Config Text) : StartUp Text → StartOp Text → StartUp Text → Prop
  /-- Another program creates or modifies a file. -/
  | change {w : World Text} {phase : Phase Text} {k : CStr} {f : File Text}
      {events : List InotifyEvent} (hflat : slash ∉ k) (hne : events ≠ [])
      (hevents : ∀ event ∈ events, event.name = k ∧ (event.mask = IN_CREATE ∨ event.mask = IN_MODIFY)) :
      StartStep cfg ⟨w, phase⟩ (.change k f events) ⟨w.changed cfg k f, phase.notify events⟩
  /-- A round of the first loop of `load_root_node_tree`. -/
  | scan {w w' : World Text} {opened : CStr → Option (File Text)} {listed : List CStr}
      {entry : Dirent} (hnew : entry.dName ∉ listed) (hflat : slash ∉ entry.dName)
      (hrun : loadDirent cfg entry w = .ok ((), w')) :
      StartStep cfg ⟨w, .scanning opened listed⟩ (.scan entry)
        ⟨w', .scanning opened (listed ++ [entry.dName])⟩
  /-- `readdir` has returned at least the files that were there when the directory was opened. -/
  | scanned {w : World Text} {opened : CStr → Option (File Text)} {listed : List CStr}
      (hall : ∀ k, slash ∉ k → opened (appendPath cfg.vdir k) ≠ none → k ∈ listed) :
      StartStep cfg ⟨w, .scanning opened listed⟩ .scanned
        ⟨w, .attaching w.store.entriesVdir.getKeys⟩
  /-- A round of the second loop. -/
  | attach {w w' : World Text} {k : CStr} {keys : List CStr}
      (hrun : attachLoaded cfg k w = .ok ((), w')) :
      StartStep cfg ⟨w, .attaching (k :: keys)⟩ .attach ⟨w', .attaching keys⟩
  /-- `watch_vdir_changes` calls `inotify_add_watch`. -/
  | watch {w : World Text} : StartStep cfg ⟨w, .attaching []⟩ .watch ⟨w, .watching []⟩
  /-- `watch_vdir_changes` handles an event. -/
  | handle {w w' : World Text} {queue queue' : List InotifyEvent} {B : ℕ}
      (h : Delivery cfg B (w, queue) (w', queue')) :
      StartStep cfg ⟨w, .watching queue⟩ .handle ⟨w', .watching queue'⟩

/-- The start-ups whose steps meet the condition `G` on the state before them. -/
inductive StartRun (cfg : Config Text) (G : StartUp Text → StartOp Text → Prop) :
    StartUp Text → Prop
  | opened {w : World Text} (hstart : w.AtStart) : StartRun cfg G (.opened w)
  | step {s s' : StartUp Text} {o : StartOp Text} (h : StartRun cfg G s) (hG : G s o)
      (hs : StartStep cfg s o s') : StartRun cfg G s'

/-- When no other program is there and `readdir` lists the files, the steps do what
    `load_root_node_tree` does. -/
theorem load_startUp (hstart : w.AtStart) {entries : List Dirent} (hvalid : ValidListing entries)
    (hall : ∀ k, slash ∉ k → w.files (appendPath cfg.vdir k) ≠ none → k ∈ entries.map (·.dName))
    (hrun : loadRootNodeTree cfg (some entries) w = .ok ((), w')) :
    StartRun cfg (fun _ _ => True) ⟨w', .attaching []⟩ := by
  suffices hwp : Prog.wp (loadRootNodeTree cfg (some entries))
      (fun _ u => StartRun cfg (fun _ _ => True) ⟨u, .attaching []⟩) (fun _ => True) w from
    hwp.ok hrun
  unfold loadRootNodeTree
  rw [Prog.wp_bind_ok (Prog.modify_run _ w), Prog.wp_bind_ok (onStore_run (createTreeNode_run none)),
    Prog.wp_bind_ok (Prog.modify_run _ _)]
  change Prog.wp _ _ _ { w with store := w.store.mount }
  simp only
  rw [Prog.wp_bind]
  refine Prog.wp_mono (Prog.wp_forM (E := fun _ => True) (fun pre v => StartRun cfg (fun _ _ => True)
    ⟨v, .scanning w.files (pre.map (·.dName))⟩) entries ?_ [] entries _ rfl (.opened hstart))
    (fun _ v hv => ?_) fun _ hc => hc
  · intro pre entry post v hentries hv
    have hnodup := hvalid.nodup
    rw [hentries, List.map_append, List.map_cons, List.nodup_append] at hnodup
    have hmem : entry ∈ entries := hentries ▸ List.mem_append_right _ List.mem_cons_self
    refine Prog.wp_of_forall_ok fun _ v' hstep => ?_
    rw [List.map_append]
    exact hv.step trivial (.scan (fun hm => hnodup.2.2 _ hm _ List.mem_cons_self rfl)
      (hvalid.flat entry hmem) hstep)
  · rw [Prog.wp_bind_ok (Prog.get_run v)]
    -- The keys that are still to go are those behind the part that is done.
    have hscanned := hv.step trivial (.scanned hall)
    refine Prog.wp_mono (Prog.wp_forM (E := fun _ => True) (fun pre u => ∀ post,
      v.store.entriesVdir.getKeys = pre ++ post →
        StartRun cfg (fun _ _ => True) ⟨u, .attaching post⟩) _ ?_ [] _ v rfl ?_)
      (fun _ u hu => hu [] (List.append_nil _).symm) fun _ hc => hc
    · intro pre k post u hkeys hu
      refine Prog.wp_of_forall_ok fun _ u' hstep post' hpost => ?_
      rw [List.append_assoc] at hpost
      exact (hu _ hpost).step trivial (.attach hstep)
    · rintro post rfl
      exact hscanned

/-! ## Notes that are followed -/

/-- The note that the program sees in a file of VDIR. -/
def World.note (cfg : Config Text) (w : World Text) (filenameVdir : CStr) : Option AgendaEntry :=
  if strstr (bytes ".ics") filenameVdir then w.loadable cfg filenameVdir else none

/-- The note of a file is indexed, under the name and below the parent that the file gives it. -/
def World.Mirrors (cfg : Config Text) (w : World Text) (filenameVdir : CStr) : Prop :=
  ∀ e, w.note cfg filenameVdir = some e → ∃ n, w.store.entriesVdir.get filenameVdir = some n ∧
    (∃ i, w.store.name n = numbered e.filename i) ∧
    w.store.links.parent n = w.store.target (w.parentUid cfg filenameVdir)

/-- An event about the file waits. -/
def Pending (queue : List InotifyEvent) (filenameVdir : CStr) : Prop :=
  ∃ event ∈ queue, event.name = filenameVdir ∧ event.updates = true

/-- No other note waits for the file to be indexed as its parent, unless an event about it comes. -/
def World.AdoptsNone (cfg : Config Text) (w : World Text) (filenameVdir : CStr)
    (queue : List InotifyEvent) : Prop :=
  (w.note cfg filenameVdir).isSome = true → w.store.entriesVdir.get filenameVdir = none →
    ∀ k, k ≠ filenameVdir → slash ∉ k → (w.note cfg k).isSome = true →
      (w.parentUid cfg k).map (· ++ bytes ".ics") = some filenameVdir → Pending queue k

/-- The steps that do not lose a change. -/
def StartUp.Undisturbed (cfg : Config Text) (s : StartUp Text) : StartOp Text → Prop
  | .change k f _ =>
    match s.phase with
    -- The parent UID is read again by the second loop, the rest of the file is not.
    | .scanning _ listed => k ∈ listed → (s.world.changed cfg k f).note cfg k = s.world.note cfg k
    | .attaching keys => (s.world.changed cfg k f).note cfg k = s.world.note cfg k ∧
        (k ∉ keys → (s.world.note cfg k).isSome = true →
          (s.world.changed cfg k f).parentUid cfg k = s.world.parentUid cfg k)
    | .watching _ => True
  | .scan entry => (s.world.note cfg entry.dName).isSome = true → entry.dType = .reg
  | .scanned =>
    match s.phase with
    | .scanning _ listed => ∀ k, slash ∉ k → (s.world.note cfg k).isSome = true → k ∈ listed
    | _ => True
  | .attach =>
    match s.phase with
    | .attaching (k :: _) => ∀ p, s.world.store.target (s.world.parentUid cfg k) = some p →
        s.world.MarkKeepsName cfg p
    | _ => True
  | .watch => True
  | .handle =>
    match s.phase with
    | .watching (event :: queue) => s.world.AdoptsNone cfg event.name queue
    | _ => True

/-! ## What holds between the steps -/

/-- After the first loop has been through the names in `listed`. -/
structure Scanned (cfg : Config Text) (listed : List CStr) (w : World Text) : Prop where
  parent : ∀ n, w.store.links.parent n = none
  index : ∀ k n, w.store.entriesVdir.get k = some n → k ∈ listed
  entry : ∀ k ∈ listed, slash ∉ k → ∀ e, w.note cfg k = some e →
    ∃ n, w.store.entriesVdir.get k = some n ∧ w.store.entry n = some e

/-- While the second loop has the names in `keys` to go. -/
structure Hanging (cfg : Config Text) (keys : List CStr) (w : World Text) : Prop where
  nodup : keys.Nodup
  waiting : ∀ k ∈ keys, ∃ n, w.store.entriesVdir.get k = some n ∧ w.store.links.parent n = none ∧
    ∀ e, w.note cfg k = some e → w.store.entry n = some e
  mirrors : ∀ k ∉ keys, slash ∉ k → w.Mirrors cfg k

/-- While the events in `queue` wait. -/
structure Watched (cfg : Config Text) (queue : List InotifyEvent) (w : World Text) : Prop where
  flat : ∀ event ∈ queue, slash ∉ event.name
  follows : ∀ k, slash ∉ k → w.Mirrors cfg k ∨ Pending queue k

/-- What holds in each phase. -/
def StartUp.Inv (cfg : Config Text) (s : StartUp Text) : Prop :=
  s.world.store.Sound ∧
    match s.phase with
    | .scanning _ listed => Scanned cfg listed s.world
    | .attaching keys => Hanging cfg keys s.world
    | .watching queue => Watched cfg queue s.world

/-! ## Changes by other programs -/

section Changes

variable {k k' : CStr} {f : File Text}

theorem note_of_loadable (h : w'.loadable cfg k = w.loadable cfg k) :
    w'.note cfg k = w.note cfg k := by
  unfold World.note
  rw [h]

/-- A change concerns one file. -/
theorem changed_of_ne (h : k' ≠ k) :
    (w.changed cfg k f).note cfg k' = w.note cfg k' ∧
      (w.changed cfg k f).parentUid cfg k' = w.parentUid cfg k' := by
  have hfiles : (w.changed cfg k f).files (appendPath cfg.vdir k') =
      w.files (appendPath cfg.vdir k') := if_neg fun heq => h (appendPath_inj.1 heq)
  obtain ⟨hloadable, huid⟩ := loadable_of_files hfiles
  exact ⟨note_of_loadable hloadable, huid⟩

/-- A note that is followed stays so when neither tree nor file change for it. -/
theorem World.Mirrors.congr (h : w.Mirrors cfg k) (hstore : w'.store = w.store)
    (hnote : w'.note cfg k = w.note cfg k)
    (huid : (w.note cfg k).isSome = true → w'.parentUid cfg k = w.parentUid cfg k) :
    w'.Mirrors cfg k := by
  intro e he
  rw [hnote] at he
  rw [hstore, huid (by rw [he]; rfl)]
  exact h e he

theorem Scanned.change {listed : List CStr} (h : Scanned cfg listed w)
    (hkeeps : k ∈ listed → (w.changed cfg k f).note cfg k = w.note cfg k) :
    Scanned cfg listed (w.changed cfg k f) := by
  refine ⟨h.parent, h.index, fun k' hk' hflat e he => h.entry k' hk' hflat e ?_⟩
  by_cases hne : k' = k
  · subst hne
    exact (hkeeps hk').symm.trans he
  · exact (changed_of_ne hne).1.symm.trans he

theorem Hanging.change {keys : List CStr} (h : Hanging cfg keys w)
    (hnote : (w.changed cfg k f).note cfg k = w.note cfg k)
    (huid : k ∉ keys → (w.note cfg k).isSome = true →
      (w.changed cfg k f).parentUid cfg k = w.parentUid cfg k) :
    Hanging cfg keys (w.changed cfg k f) := by
  have hnotes : ∀ k', (w.changed cfg k f).note cfg k' = w.note cfg k' := fun k' => by
    by_cases hne : k' = k
    · rw [hne, hnote]
    · exact (changed_of_ne hne).1
  refine ⟨h.nodup, fun k' hk' => ?_, fun k' hk' hflat => ?_⟩
  · obtain ⟨n, hn, hparent, hentry⟩ := h.waiting k' hk'
    exact ⟨n, hn, hparent, fun e he => hentry e ((hnotes k').symm.trans he)⟩
  · refine (h.mirrors k' hk' hflat).congr rfl (hnotes k') fun hsome => ?_
    by_cases hne : k' = k
    · subst hne
      exact huid hk' hsome
    · exact (changed_of_ne hne).2

/-- A change that is reported is pending, unless the program does not look at the file. -/
theorem mirrors_or_pending {events : List InotifyEvent} (hne : events ≠ [])
    (hevents : ∀ event ∈ events, event.name = k ∧ (event.mask = IN_CREATE ∨ event.mask = IN_MODIFY)) :
    w.Mirrors cfg k ∨ Pending events k := by
  by_cases hics : strstr (bytes ".ics") k = true
  · have hnil : k ≠ [] := by
      rintro rfl
      exact absurd hics (by decide)
    obtain ⟨event, hev⟩ := List.exists_mem_of_ne_nil events hne
    obtain ⟨hname, hmask⟩ := hevents event hev
    refine .inr ⟨event, hev, hname, ?_⟩
    unfold InotifyEvent.updates
    rw [hname, hics, decide_eq_true hnil]
    rcases hmask with hmask | hmask <;> rw [hmask] <;> decide
  · refine .inl fun e he => ?_
    unfold World.note at he
    rw [if_neg hics] at he
    exact nomatch he

theorem Pending.append_left {queue : List InotifyEvent} (h : Pending queue k)
    (events : List InotifyEvent) : Pending (queue ++ events) k := by
  obtain ⟨event, hev, hp⟩ := h
  exact ⟨event, List.mem_append_left _ hev, hp⟩

theorem Pending.append_right {events : List InotifyEvent} (h : Pending events k)
    (queue : List InotifyEvent) : Pending (queue ++ events) k := by
  obtain ⟨event, hev, hp⟩ := h
  exact ⟨event, List.mem_append_right _ hev, hp⟩

theorem Watched.change {queue events : List InotifyEvent} (h : Watched cfg queue w)
    (hflat : slash ∉ k) (hne : events ≠ [])
    (hevents : ∀ event ∈ events, event.name = k ∧ (event.mask = IN_CREATE ∨ event.mask = IN_MODIFY)) :
    Watched cfg (queue ++ events) (w.changed cfg k f) := by
  refine ⟨fun event hev => ?_, fun k' hflat' => ?_⟩
  · rcases List.mem_append.1 hev with hev | hev
    · exact h.flat event hev
    · exact (hevents event hev).1 ▸ hflat
  · by_cases heq : k' = k
    · subst heq
      exact (mirrors_or_pending hne hevents).imp_right fun hp => hp.append_right queue
    · exact (h.follows k' hflat').imp (fun hm => hm.congr rfl (changed_of_ne heq).1 fun _ =>
        (changed_of_ne heq).2) fun hp => hp.append_left events

end Changes

/-! ## The load -/

theorem note_eq_some {k : CStr} {e : AgendaEntry} :
    w.note cfg k = some e ↔ strstr (bytes ".ics") k = true ∧ w.loadable cfg k = some e := by
  unfold World.note
  split
  · rename_i hics
    exact ⟨fun he => ⟨hics, he⟩, And.right⟩
  · rename_i hics
    exact iff_of_false nofun fun h => hics h.1

/-- One round of the first loop. -/
theorem Scanned.scan {listed : List CStr} {entry : Dirent} (h : Scanned cfg listed w)
    (hs : w.store.Sound) (hnew : entry.dName ∉ listed) (hflat : slash ∉ entry.dName)
    (hreg : (w.note cfg entry.dName).isSome = true → entry.dType = .reg)
    (hrun : loadDirent cfg entry w = .ok ((), w')) :
    w'.store.Sound ∧ Scanned cfg (listed ++ [entry.dName]) w' := by
  have hw' := (wp_loadDirent_note (E := fun _ => True) fun _ _ _ _ _ _ => trivial).ok hrun
  cases he : w.direntNote cfg entry with
  | none =>
    rw [he] at hw'
    subst hw'
    refine ⟨hs, h.parent, fun k n hn => List.mem_append_left _ (h.index k n hn), ?_⟩
    intro k hk hflat e hnote
    rcases List.mem_append.1 hk with hk | hk
    · exact h.entry k hk hflat e hnote
    -- The entry that has just been passed over is no note.
    · rw [List.mem_singleton.1 hk] at hnote
      obtain ⟨hics, hloadable⟩ := note_eq_some.1 hnote
      have hnone := direntNote_eq_some.2 ⟨hreg (by rw [hnote]; rfl), hics, hloadable⟩
      exact nomatch he.symm.trans hnone
  | some e =>
    rw [he] at hw'
    subst hw'
    obtain ⟨_, hics, hloadable⟩ := direntNote_eq_some.1 he
    have hname := filenameVdir_of_loadable hflat hloadable
    have hfree : w.store.entriesVdir.get e.filenameVdir = none := by
      rw [hname, Option.eq_none_iff_forall_ne_some]
      exact fun n hn => hnew (h.index _ n hn)
    have hget : ∀ k, (w.store.create e).entriesVdir.get k =
        if k = entry.dName then some w.store.nextId else w.store.entriesVdir.get k := fun k => by
      rw [← hname]
      exact Hashmap.get_insert ..
    refine ⟨hs.create hfree (by rw [hname]; exact hflat), ?_, ?_, ?_⟩
    · intro n
      exact (congrArg (·.parent n) (hs.links_create e)).trans (h.parent n)
    · intro k n hn
      change (w.store.create e).entriesVdir.get k = some n at hn
      rw [hget] at hn
      split at hn
      · rename_i heq
        exact List.mem_append_right _ (List.mem_singleton.2 heq)
      · exact List.mem_append_left _ (h.index k n hn)
    · intro k hk hflat' e' hnote
      change ∃ n, (w.store.create e).entriesVdir.get k = some n ∧ (w.store.create e).entry n = some e'
      change w.note cfg k = some e' at hnote
      rw [hget]
      by_cases heq : k = entry.dName
      · subst heq
        cases (note_eq_some.1 hnote).2.symm.trans hloadable
        exact ⟨_, if_pos rfl, (create_entry ..).trans (if_pos rfl)⟩
      · have hk' : k ∈ listed := (List.mem_append.1 hk).resolve_right fun hm =>
          heq (List.mem_singleton.1 hm)
        obtain ⟨n, hn, hentry⟩ := h.entry k hk' hflat' e' hnote
        have hne : n ≠ w.store.nextId := fun hn' =>
          hs.not_live_nextId (hn' ▸ hs.live_of_index hn)
        exact ⟨n, (if_neg heq).trans hn, (create_entry ..).trans ((if_neg hne).trans hentry)⟩

/-- The second loop starts with all notes waiting. -/
theorem Scanned.hanging {listed : List CStr} (h : Scanned cfg listed w) (hs : w.store.Sound)
    (hall : ∀ k, slash ∉ k → (w.note cfg k).isSome = true → k ∈ listed) :
    Hanging cfg w.store.entriesVdir.getKeys w := by
  refine ⟨w.store.entriesVdir.nodup_getKeys, fun k hk => ?_, fun k hk hflat e he => ?_⟩
  · obtain ⟨n, hn⟩ := (Hashmap.mem_getKeys _ _).1 hk
    refine ⟨n, hn, h.parent n, fun e he => ?_⟩
    obtain ⟨m, hm, hentry⟩ := h.entry k (h.index k n hn) (hs.key_flat hn) e he
    cases hn.symm.trans hm
    exact hentry
  · obtain ⟨n, hn, _⟩ := h.entry k (hall k hflat (by rw [he]; rfl)) hflat e he
    exact absurd ((Hashmap.mem_getKeys _ _).2 ⟨n, hn⟩) hk

/-- One round of the second loop. -/
theorem Hanging.attach (hL : cfg.ical.Lawful) {k : CStr} {keys : List CStr}
    (h : Hanging cfg (k :: keys) w) (hs : w.store.Sound)
    (hkeeps : ∀ p, w.store.target (w.parentUid cfg k) = some p → w.MarkKeepsName cfg p)
    (hrun : attachLoaded cfg k w = .ok ((), w')) : w'.store.Sound ∧ Hanging cfg keys w' := by
  obtain ⟨hk, hnodup⟩ := List.nodup_cons.1 h.nodup
  obtain ⟨n, hn, hparent, hentry⟩ := h.waiting k List.mem_cons_self
  have hattached := (wp_attachLoaded hs.toInv hn hparent).ok hrun
  cases hattached with
  | orphan hn' hp =>
    refine ⟨hs, hnodup, fun k' hk' => h.waiting k' (List.mem_cons_of_mem _ hk'),
      fun k' hk' hflat => ?_⟩
    by_cases heq : k' = k
    · subst heq
      exact fun e he => ⟨n, hn, ⟨0, name_of_entry (hentry e he)⟩, hparent.trans hp.symm⟩
    · exact h.mirrors k' (by simp [heq, hk']) hflat
  | @placed n' p hn' hp =>
    cases hn.symm.trans hn'
    obtain ⟨e₀, he₀, _⟩ := (hs.index k n).1 hn
    have hlive := hs.live_of_target hp
    have hsame := fun k' => (hkeeps p hp).marked hL k'
    have hparent' : (w.store.place p n (w.store.placedName p n)).links.parent = _ :=
      place_parent hs.wf hlive (live_of_entry he₀)
    refine ⟨hs.place hlive he₀, hnodup, fun k' hk' => ?_, fun k' hk' hflat e he => ?_⟩
    · obtain ⟨m, hm, hmparent, hmentry⟩ := h.waiting k' (List.mem_cons_of_mem _ hk')
      have hne : m ≠ n := hs.index_ne (fun heq : k' = k => hk (heq ▸ hk')) hn hm
      refine ⟨m, (congrArg (·.get k') place_entriesVdir).trans hm, ?_, fun e he => ?_⟩
      · simp only [hparent']
        rw [Function.update_of_ne hne, hmparent]
      · rw [place_entry, if_neg hne]
        exact hmentry e ((note_of_loadable (hsame k').1).symm.trans he)
    · have he : w.note cfg k' = some e := (note_of_loadable (hsame k').1).symm.trans he
      have huid : World.parentUid cfg { w.marked cfg p with
          store := w.store.place p n (w.store.placedName p n) } k' = w.parentUid cfg k' := (hsame k').2
      rw [huid]
      simp only [hparent', target_congr place_fuseRoot place_entriesVdir, place_name he₀,
        place_entriesVdir]
      by_cases heq : k' = k
      · subst heq
        refine ⟨n, hn, ?_, ?_⟩
        · rw [Function.update_self, placedName, name_of_entry (hentry e he)]
          exact ⟨_, rfl⟩
        · rw [Function.update_self, hp]
      · obtain ⟨m, hm, hname, hmparent⟩ := h.mirrors k' (by simp [heq, hk']) hflat e he
        have hne : m ≠ n := hs.index_ne heq hn hm
        exact ⟨m, hm, by rw [Function.update_of_ne hne]; exact hname,
          by rw [Function.update_of_ne hne]; exact hmparent⟩

/-! ## The watch -/

section Handle

variable {k : CStr} {e : AgendaEntry} {p : NodeId}

/-- The note of a file that has been handled is followed. -/
theorem mirrors_updated (hs : w.store.Inv) (hk : slash ∉ k) (he : w.loadable cfg k = some e)
    (hp : w.HandlesBelow cfg k e p) :
    World.Mirrors cfg { w with store := w.store.updated e p } k := by
  intro e' he'
  cases (note_eq_some.1 he').2.symm.trans he
  have hname := filenameVdir_of_loadable hk he
  have hlive := hs.upsert.live_of_target hp.target
  refine ⟨(w.store.upsert e).1, ?_, updated_name hs, ?_⟩
  · rw [updated_get, if_pos hname.symm]
  · change (w.store.updated e p).links.parent _ = (w.store.updated e p).target (w.parentUid cfg k)
    rw [updated_parent hs hlive, Function.update_self, updated_target, hp.target]

/-- The other notes stay followed, unless one has waited for this file as its parent. -/
theorem World.Mirrors.updated {k' : CStr} (h : w.Mirrors cfg k') (hs : w.store.Inv) (hk : slash ∉ k)
    (he : w.loadable cfg k = some e) (hp : w.HandlesBelow cfg k e p) (hne : k' ≠ k)
    (hwaits : w.store.entriesVdir.get k = none → (w.note cfg k').isSome = true →
      (w.parentUid cfg k').map (· ++ bytes ".ics") ≠ some k) :
    World.Mirrors cfg { w with store := w.store.updated e p } k' := by
  intro e' he'
  change w.note cfg k' = some e' at he'
  have hname := filenameVdir_of_loadable hk he
  have hlive := hs.upsert.live_of_target hp.target
  obtain ⟨n, hn, hnname, hparent⟩ := h e' he'
  have hget : (w.store.updated e p).entriesVdir.get k' = some n := by
    rw [updated_get, hname, if_neg hne, hn]
  have hnew : n ≠ (w.store.upsert e).1 := by
    refine (hs.upsert (e := e)).index_ne (k := k) hne ?_ ?_
    · rw [upsert_get, if_pos hname.symm]
    · rw [upsert_get, hname, if_neg hne, hn]
  refine ⟨n, hget, ?_, ?_⟩
  · change ∃ i, (w.store.updated e p).name n = _
    rw [updated_name_of_ne hs hnew]
    exact hnname
  · change (w.store.updated e p).links.parent n = (w.store.updated e p).target (w.parentUid cfg k')
    rw [updated_parent hs hlive, Function.update_of_ne hnew, hparent, updated_target]
    -- The file that is handled was indexed, or is not the parent.
    by_cases huid : (w.parentUid cfg k').map (· ++ bytes ".ics") = some k
    · cases hk' : w.store.entriesVdir.get k with
      | none => exact absurd huid (hwaits hk' (by rw [he']; rfl))
      | some m =>
        have htarget : w.store.target (w.parentUid cfg k') = some m := by
          obtain ⟨uid, hu, hkey⟩ := Option.map_eq_some_iff.1 huid
          rw [hu, Store.target, hkey, hk']
        rw [htarget, target_upsert_of_some htarget]
    · rw [target_upsert_of_ne (by rw [hname]; exact huid)]

/-- What the handler leaves in the queue, and the events it adds. -/
theorem Delivery.queue {B : ℕ} {event : InotifyEvent} {queue queue' : List InotifyEvent}
    (h : Delivery cfg B (w, event :: queue) (w', queue')) :
    handleVdirEvent cfg event w = .ok ((), w') ∧ ∃ events, queue' = queue ++ events ∧
      (∀ ev ∈ events, w.writtenBy cfg event = some ev.name ∧ ev.mask = IN_MODIFY) ∧
      ((w.writtenBy cfg event).isSome = true → events ≠ []) := by
  cases h with
  | silent hrun hwritten =>
    refine ⟨hrun, [], (List.append_nil _).symm, nofun, fun hsome => ?_⟩
    rw [hwritten] at hsome
    exact nomatch hsome
  | writes hrun hwritten hpos hb =>
    refine ⟨hrun, _, rfl, fun ev hev => ?_, fun _ => ?_⟩
    · rw [List.eq_of_mem_replicate hev]
      exact ⟨hwritten, rfl⟩
    · rw [Ne, List.replicate_eq_nil_iff]
      exact Nat.pos_iff_ne_zero.1 hpos

/-- Handling an event. -/
theorem Watched.handle {B : ℕ} {event : InotifyEvent} {queue queue' : List InotifyEvent}
    (h : Watched cfg (event :: queue) w) (hs : w.store.Sound)
    (hadopts : w.AdoptsNone cfg event.name queue)
    (hd : Delivery cfg B (w, event :: queue) (w', queue')) :
    w'.store.Sound ∧ Watched cfg queue' w' := by
  obtain ⟨hrun, events, rfl, hevents, hne⟩ := hd.queue
  have hflat := h.flat event List.mem_cons_self
  have hfile : event.file cfg = event.name := getFilename_appendPath cfg.vdir hflat
  -- What waits behind the event goes on waiting.
  have hwaits : ∀ k, slash ∉ k → k ≠ event.name → w.Mirrors cfg k ∨ Pending queue k := by
    intro k hk hkne
    refine (h.follows k hk).imp_right fun ⟨ev, hev, hname, hupdates⟩ => ?_
    rcases List.mem_cons.1 hev with rfl | hev
    · exact absurd hname.symm hkne
    · exact ⟨ev, hev, hname, hupdates⟩
  rcases handleVdirEvent_cases hs hrun with
    ⟨rfl, hnone, hloadable⟩ | ⟨e, p, hupdates, he, hp, rfl, hwritten⟩
  · have hnil : events = [] := List.eq_nil_iff_forall_not_mem.2 fun ev hev => by
      rw [hnone] at hevents
      exact nomatch (hevents ev hev).1
    rw [hnil, List.append_nil]
    refine ⟨hs, fun ev hev => h.flat ev (List.mem_cons_of_mem _ hev), fun k hk => ?_⟩
    by_cases hkne : k = event.name
    · subst hkne
      rcases h.follows _ hk with hm | ⟨ev, hev, hname, hupdates⟩
      · exact .inl hm
      -- A file that is no note has nothing to follow.
      · rcases List.mem_cons.1 hev with rfl | hev
        · refine .inl fun e he => ?_
          have hnote := hloadable hupdates
          rw [hfile] at hnote
          exact nomatch hnote.symm.trans (note_eq_some.1 he).2
        · exact .inr ⟨ev, hev, hname, hupdates⟩
    · exact hwaits k hk hkne
  · rw [hfile] at he hp
    have hsound := (handled_of_target he hp.target).sound hs
    refine ⟨hsound, fun ev hev => ?_, fun k hk => ?_⟩
    · rcases List.mem_append.1 hev with hev | hev
      · exact h.flat ev (List.mem_cons_of_mem _ hev)
      · have hmarked := hwritten.symm.trans (hevents ev hev).1
        obtain ⟨e', _, he', hname, _⟩ := marked_of_markedFile hmarked
        rw [← hname]
        exact hsound.flat p e' (by rw [updated_store]; exact he')
    · by_cases hw : w.writtenBy cfg event = some k
      · refine (mirrors_or_pending (hne (by rw [hw]; rfl)) fun ev hev => ?_).imp_right
          fun hp => hp.append_right queue
        obtain ⟨hname, hmask⟩ := hevents ev hev
        exact ⟨Option.some.inj (hname.symm.trans hw), .inr hmask⟩
      · -- The file is not written, so what it stands for stays.
        have hfiles : (w.updated cfg e p).files (appendPath cfg.vdir k) =
            w.files (appendPath cfg.vdir k) :=
          files_marked_of_ne (w := { w with store := w.store.updated e p }) fun hm =>
            hw (hwritten.trans hm)
        have hsame := loadable_of_files hfiles
        have transfer : World.Mirrors cfg { w with store := w.store.updated e p } k →
            (w.updated cfg e p).Mirrors cfg k := fun hm =>
          hm.congr (marked_store p) (note_of_loadable hsame.1) fun _ => hsame.2
        by_cases hkne : k = event.name
        · subst hkne
          exact .inl (transfer (mirrors_updated hs.toInv hk he hp))
        · rcases hwaits k hk hkne with hm | hpending
          · by_cases hadopted : w.store.entriesVdir.get event.name = none ∧
              (w.note cfg k).isSome = true ∧
              (w.parentUid cfg k).map (· ++ bytes ".ics") = some event.name
            · obtain ⟨hnone, hsome, huid⟩ := hadopted
              simp only [InotifyEvent.updates, Bool.and_eq_true] at hupdates
              have hnote := note_eq_some.2 ⟨hupdates.1.1.2, he⟩
              exact .inr ((hadopts (by rw [hnote]; rfl) hnone k hkne hk hsome huid).append_left events)
            · exact .inl (transfer (hm.updated hs.toInv hflat he hp hkne
                fun hnone hsome huid => hadopted ⟨hnone, hsome, huid⟩))
          · exact .inr (hpending.append_left events)

end Handle

/-! ## Whole start-ups -/

/-- A step that is undisturbed keeps what holds in its phase. -/
theorem StartUp.Inv.step (hL : cfg.ical.Lawful) {s s' : StartUp Text} {o : StartOp Text}
    (h : s.Inv cfg) (ho : s.Undisturbed cfg o) (hs : StartStep cfg s o s') : s'.Inv cfg := by
  obtain ⟨hsound, hphase⟩ := h
  cases hs with
  | @change w phase k f events hflat hne hevents =>
    refine ⟨hsound, ?_⟩
    cases phase with
    | scanning opened listed => exact Scanned.change hphase ho
    | attaching keys => exact Hanging.change hphase ho.1 ho.2
    | watching queue => exact Watched.change hphase hflat hne hevents
  | scan hnew hflat hrun => exact Scanned.scan hphase hsound hnew hflat ho hrun
  | scanned hall => exact ⟨hsound, Scanned.hanging hphase hsound ho⟩
  | attach hrun => exact Hanging.attach hL hphase hsound ho hrun
  | watch => exact ⟨hsound, nofun, fun k hk => .inl (hphase.mirrors k List.not_mem_nil hk)⟩
  | @handle w w' queue queue' B hd =>
    cases queue with
    | nil => exact nomatch hd
    | cons event queue => exact Watched.handle hphase hsound ho hd

theorem StartUp.Inv.opened (hstart : w.AtStart) : (StartUp.opened w).Inv cfg :=
  ⟨sound_mount hstart, mount_parent hstart, fun k _ hn =>
    (nomatch (Hashmap.get_new k).symm.trans hn), nofun⟩

theorem StartRun.inv (hL : cfg.ical.Lawful) {s : StartUp Text}
    (h : StartRun cfg (StartUp.Undisturbed cfg) s) : s.Inv cfg := by
  induction h with
  | opened hstart => exact .opened hstart
  | step _ ho hs ih => exact ih.step hL ho hs

/-- When every step is undisturbed and all queued events have been handled, every note in VDIR
    is indexed under the name and below the parent that its file has last. -/
theorem start_up_follows_changes (hL : cfg.ical.Lawful) {s : StartUp Text}
    (h : StartRun cfg (StartUp.Undisturbed cfg) s) (hqueue : s.phase = .watching []) {k : CStr}
    (hk : slash ∉ k) : s.world.Mirrors cfg k := by
  obtain ⟨_, hphase⟩ := h.inv hL
  rw [hqueue] at hphase
  exact (hphase.follows k hk).resolve_right fun ⟨_, hev, _⟩ => nomatch hev

/-- An empty VDIR, with the root in the tree. -/
def emptyScan : World Icalcomponent :=
  { sampleStart [] with store := (sampleStart []).store.mount }

/-- Another program has created a note there. -/
def createdNote : World Icalcomponent :=
  emptyScan.changed sampleConfig (bytes "a.ics") { content := sampleNote (bytes "a") (bytes "A") [] }

/-- The event about it. -/
def creation : InotifyEvent := ⟨IN_CREATE, bytes "a.ics"⟩

/-- The step that creates the note. -/
def creating : StartOp Icalcomponent :=
  .change (bytes "a.ics") { content := sampleNote (bytes "a") (bytes "A") [] } [creation]

theorem creating_step (phase : Phase Icalcomponent) :
    StartStep sampleConfig ⟨emptyScan, phase⟩ creating ⟨createdNote, phase.notify [creation]⟩ :=
  .change (by decide) (List.cons_ne_nil _ _) fun ev hev => by
    rw [List.mem_singleton.1 hev]
    exact ⟨rfl, .inl rfl⟩

theorem note_emptyScan (k : CStr) : emptyScan.note sampleConfig k = none := by
  unfold World.note
  split <;> rfl

/-- The scan of an empty directory. -/
theorem scanned_emptyScan {G : StartUp Icalcomponent → StartOp Icalcomponent → Prop}
    (hG : G (.opened (sampleStart [])) .scanned) :
    StartRun sampleConfig G ⟨emptyScan, .attaching []⟩ := by
  have hkeys : emptyScan.store.entriesVdir.getKeys = [] := by decide +kernel
  rw [← hkeys]
  exact (StartRun.opened fun _ => rfl).step hG (.scanned fun k _ hsome => absurd rfl hsome)

theorem start_up_follows_changes_createdNote :
    ∃ w', handleVdirEvent sampleConfig creation createdNote = .ok ((), w') ∧
      w'.Mirrors sampleConfig (bytes "a.ics") := by
  obtain ⟨_, hrun, _⟩ := Prog.run_of_check (m := handleVdirEvent sampleConfig creation)
    (s := createdNote) (f := fun _ _ => true) (by decide +kernel)
  refine ⟨_, hrun, ?_⟩
  have hscanned : StartRun sampleConfig (StartUp.Undisturbed sampleConfig)
      ⟨emptyScan, .attaching []⟩ := scanned_emptyScan fun k _ hsome => by
    change (emptyScan.note sampleConfig k).isSome = true at hsome
    rw [note_emptyScan] at hsome
    exact nomatch hsome
  have hchanged := (hscanned.step (o := .watch) trivial .watch).step (o := creating) trivial
    (creating_step _)
  have hadopts : createdNote.AdoptsNone sampleConfig (bytes "a.ics") [] := by
    intro _ _ k hne _ hsome
    rw [createdNote, (changed_of_ne hne).1, note_emptyScan] at hsome
    exact nomatch hsome
  have hwritten : createdNote.writtenBy sampleConfig creation = none := by
    decide +kernel
  have hhandled := hchanged.step (o := .handle) hadopts (.handle (B := 1) (.silent hrun hwritten))
  exact start_up_follows_changes structuralIcal_lawful hhandled rfl (by decide)

/-- A file that is created between the scan and `inotify_add_watch` is never indexed. -/
theorem not_all_start_ups_follow_changes :
    ¬ ∀ (s : StartUp Icalcomponent) (k : CStr), StartRun sampleConfig (fun _ _ => True) s →
      s.phase = .watching [] → slash ∉ k → s.world.Mirrors sampleConfig k := by
  intro h
  have hrun : StartRun sampleConfig (fun _ _ => True) ⟨createdNote, .watching []⟩ :=
    ((scanned_emptyScan trivial).step trivial (creating_step _)).step trivial .watch
  have hnote : (createdNote.note sampleConfig (bytes "a.ics")).isSome = true := by decide +kernel
  obtain ⟨e, he⟩ := Option.isSome_iff_exists.1 hnote
  obtain ⟨n, hn, _⟩ := h _ (bytes "a.ics") hrun rfl (by decide) e he
  exact nomatch (Hashmap.get_new (bytes "a.ics")).symm.trans hn

end Agendafs
