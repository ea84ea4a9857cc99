import Agendafs.Native.Main
import Agendafs.Spec.FuseNodeCorrect
import Agendafs.Spec.StorePlacement

/-!
# What handling an event comes to

An event about a file that can be read as a note updates or creates the node of
the file and moves it behind the children of its parent, `World.updated`; every
other event leaves the state as it is. In particular an event of deletion does:
the index is searched with the path of the file where its keys are names.

## Key results

- `wp_handleVdirEvent`: the outcome of an event is `Handled`
- `deleteFromVdirPath_run`: a deletion finds no node
-/

namespace Agendafs

open Store

variable {Text : Type} {cfg : Config Text} {w : World Text}

/-! ## Marking a parent as a directory -/

/-- The state after the file of a parent has been marked as a directory. -/
def World.marked (cfg : Config Text) (w : World Text) (p : NodeId) : World Text :=
  match w.store.entry p, w.component cfg p with
  | some e, some pic =>
    if isDirectoryComponent cfg.ical pic then w
    else w.wrote cfg e.filenameVdir (icalcomponentMarkAsDirectory pic)
  | _, _ => w

@[simp] theorem marked_store (p : NodeId) : (w.marked cfg p).store = w.store := by
  unfold World.marked
  split
  · split <;> rfl
  · rfl

theorem exists_entry_of_component {n : NodeId} {c : Icalcomponent}
    (hc : w.component cfg n = some c) : ∃ e, w.store.entry n = some e := by
  cases he : w.store.entry n with
  | none =>
    rw [World.component, he, Option.bind_none] at hc
    exact absurd hc.symm (Option.some_ne_none c)
  | some e => exact ⟨e, rfl⟩

/-- The root has no file to mark. -/
theorem marked_of_entry_none {p : NodeId} (h : w.store.entry p = none) : w.marked cfg p = w := by
  unfold World.marked
  rw [h]

/-- The file that marking a parent writes: none when it is a directory already. -/
def World.markedFile (cfg : Config Text) (w : World Text) (p : NodeId) : Option CStr :=
  match w.store.entry p, w.component cfg p with
  | some e, some pic => if isDirectoryComponent cfg.ical pic then none else some e.filenameVdir
  | _, _ => none

theorem marked_of_markedFile_none {p : NodeId} (h : w.markedFile cfg p = none) :
    w.marked cfg p = w := by
  unfold World.markedFile at h
  unfold World.marked
  split at h
  · split at h
    · rename_i hd
      exact if_pos hd
    · exact nomatch h
  · rfl

theorem marked_of_markedFile {p : NodeId} {k : CStr} (h : w.markedFile cfg p = some k) :
    ∃ e pic, w.store.entry p = some e ∧ e.filenameVdir = k ∧ w.fileComponent cfg k = some pic ∧
      isDirectoryComponent cfg.ical pic = false ∧
      w.marked cfg p = w.wrote cfg k (icalcomponentMarkAsDirectory pic) := by
  unfold World.markedFile at h
  unfold World.marked
  split at h
  · rename_i e pic he hpic
    split at h
    · exact nomatch h
    · rename_i hd
      cases h
      rw [component_of_entry he] at hpic
      exact ⟨e, pic, he, rfl, hpic, Bool.eq_false_iff.2 hd, if_neg hd⟩
  · exact nomatch h

/-- Marking returns when the parent has a component and its file can be opened. -/
theorem markParent_run {p : NodeId} {pic : Icalcomponent} (hc : w.component cfg p = some pic)
    (ho : isDirectoryComponent cfg.ical pic = true ∨ w.outcome.status = 0) :
    markParent cfg p (some pic) w = .ok ((), w.marked cfg p) := by
  obtain ⟨e, he⟩ := exists_entry_of_component hc
  unfold markParent World.marked
  rw [he, hc]
  simp only [Option.any_some]
  split
  · rfl
  · rename_i hd
    rw [Prog.bind_run_ok (writeIcalFile_run he _)]
    simp only [ho.resolve_left hd]
    rfl

/-- The file of a node parses and can be marked as a directory, or is one already. -/
def World.Markable (cfg : Config Text) (w : World Text) (p : NodeId) : Prop :=
  ∃ pic, w.component cfg p = some pic ∧
    (isDirectoryComponent cfg.ical pic = true ∨ w.outcome.status = 0)

/-- The rule for marking a parent: the state is `marked`, or an assertion fails. -/
theorem wp_markParent {α : Type} {f : Unit → FsM Text α} {Q : α → World Text → Prop}
    {E : Crash → Prop} {p : NodeId} (hE : ¬ w.Markable cfg p → E .assertFailed)
    (hf : w.Markable cfg p → Prog.wp (f ()) Q E (w.marked cfg p)) :
    Prog.wp (markParent cfg p (w.component cfg p) >>= f) Q E w := by
  cases hc : w.component cfg p with
  | none =>
    have hrun : markParent cfg p none w = .error .assertFailed := rfl
    rw [Prog.wp_bind_error hrun]
    exact hE fun ⟨pic, hpic, _⟩ => nomatch hc.symm.trans hpic
  | some pic =>
    by_cases ho : isDirectoryComponent cfg.ical pic = true ∨ w.outcome.status = 0
    · rw [Prog.wp_bind_ok (markParent_run hc ho)]
      exact hf ⟨pic, hc, ho⟩
    · have hE : E .assertFailed := hE fun ⟨pic', hpic', ho'⟩ => by
        cases hc.symm.trans hpic'
        exact ho ho'
      -- The status of the write is asserted to be 0.
      obtain ⟨hd, hs⟩ := not_or.1 ho
      obtain ⟨e, he⟩ := exists_entry_of_component hc
      have hrun : markParent cfg p (some pic) w = .error .assertFailed := by
        unfold markParent
        simp only [Option.any_some, if_neg hd]
        rw [Prog.bind_run_ok (writeIcalFile_run he _)]
        cases ho : w.outcome <;> rw [ho] at hs
        · exact absurd rfl hs
        · rfl
        · exact absurd rfl hs
      rw [Prog.wp_bind_error hrun]
      exact hE

/-! ## Reading a file as a note -/

/-- The parent UID in a file of VDIR. -/
def World.parentUid (cfg : Config Text) (w : World Text) (filenameVdir : CStr) : Option CStr :=
  (w.fileComponent cfg filenameVdir).bind (getParentUid cfg.ical)

/-- The entry of the note in a file of VDIR. -/
def World.loadable (cfg : Config Text) (w : World Text) (filenameVdir : CStr) :
    Option AgendaEntry :=
  (w.fileComponent cfg filenameVdir).bind (agendaEntryOf cfg (appendPath cfg.vdir filenameVdir))

theorem filenameVdir_of_agendaEntryOf {path : CStr} {c : Icalcomponent} {e : AgendaEntry}
    (h : agendaEntryOf cfg path c = some e) : e.filenameVdir = getFilename path := by
  unfold agendaEntryOf at h
  split at h
  · exact nomatch h
  · split at h
    · exact nomatch h
    · split at h
      · exact nomatch h
      · exact (Option.some.inj h) ▸ rfl

theorem filenameVdir_of_loadable {k : CStr} {e : AgendaEntry} (hk : slash ∉ k)
    (h : w.loadable cfg k = some e) : e.filenameVdir = k := by
  obtain ⟨c, _, hc⟩ := Option.bind_eq_some_iff.1 h
  exact (filenameVdir_of_agendaEntryOf hc).trans (getFilename_appendPath _ hk)

/-- `load_agenda_entry_from_ics_file` of a file that is absent or can be read. -/
theorem loadAgendaEntryFromIcsFile_run {k : CStr}
    (h : w.files (appendPath cfg.vdir k) = none ∨ w.Readable cfg k) :
    loadAgendaEntryFromIcsFile cfg k w = .ok (w.loadable cfg k, w) := by
  unfold loadAgendaEntryFromIcsFile World.loadable
  rw [Prog.bind_run_ok (Prog.get_run w)]
  rcases h with h | h
  · simp only [h, Option.isNone_none, if_true, World.fileComponent]
    rfl
  · obtain ⟨f, hf, _⟩ := id h
    simp only [hf, Option.isNone_some, Bool.false_eq_true, if_false]
    unfold parseIcsToAgendaEntry
    rw [Prog.bind_run_ok (parseIcsFile_run h)]
    rfl

theorem wp_loadAgendaEntryFromIcsFile {α : Type} {f : Option AgendaEntry → FsM Text α}
    {Q : α → World Text → Prop} {E : Crash → Prop} {k : CStr}
    (hE : w.files (appendPath cfg.vdir k) ≠ none → ¬ w.Readable cfg k →
      ∀ c : Crash, c.Visible → E c)
    (hf : (w.files (appendPath cfg.vdir k) ≠ none → w.Readable cfg k) →
      Prog.wp (f (w.loadable cfg k)) Q E w) :
    Prog.wp (loadAgendaEntryFromIcsFile cfg k >>= f) Q E w := by
  by_cases h : w.files (appendPath cfg.vdir k) = none ∨ w.Readable cfg k
  · rw [Prog.wp_bind_ok (loadAgendaEntryFromIcsFile_run h)]
    exact hf fun hne => h.resolve_left hne
  · obtain ⟨hsome, hread⟩ := not_or.1 h
    obtain ⟨c, hc, hvis⟩ := parseIcsFile_error hread
    have hrun : loadAgendaEntryFromIcsFile cfg k w = .error c := by
      unfold loadAgendaEntryFromIcsFile parseIcsToAgendaEntry
      rw [Prog.bind_run_ok (Prog.get_run w)]
      simp only [Option.isNone_iff_eq_none, if_neg hsome]
      rw [Prog.bind_run, hc]
    rw [Prog.wp_bind_error hrun]
    exact hE hsome hread c hvis

/-! ## Updating or creating a note -/

/-- Where a note belongs: below the root, or below the node its parent UID names. -/
def Store.target (s : Store) (parentUid : Option CStr) : Option NodeId :=
  match parentUid with
  | none => some s.fuseRoot
  | some uid => s.entriesVdir.get (uid ++ bytes ".ics")

theorem Store.Inv.live_of_target {s : Store} (h : s.Inv) {parentUid : Option CStr} {p : NodeId}
    (hp : s.target parentUid = some p) : s.Live p := by
  unfold Store.target at hp
  split at hp
  · exact Option.some.inj hp ▸ h.root_live
  · exact h.live_of_index hp

/-- A parent that is named by its UID is a note. -/
theorem Store.Inv.entry_of_target {s : Store} (h : s.Inv) {parentUid : Option CStr} {p : NodeId}
    (hne : parentUid ≠ none) (hp : s.target parentUid = some p) : ∃ e, s.entry p = some e := by
  obtain ⟨uid, rfl⟩ := Option.ne_none_iff_exists'.1 hne
  obtain ⟨e, he, _⟩ := (h.index _ _).1 hp
  exact ⟨e, he⟩

/-- Targets only depend on the root and the index. -/
theorem target_congr {s s' : Store} (hroot : s'.fuseRoot = s.fuseRoot)
    (hindex : s'.entriesVdir = s.entriesVdir) (parentUid : Option CStr) :
    s'.target parentUid = s.target parentUid := by
  unfold Store.target
  rw [hroot, hindex]

/-- A target that is indexed stays so when a note is updated. -/
theorem target_upsert_of_some {s : Store} {e : AgendaEntry} {o : Option CStr}
    {p : NodeId} (hp : s.target o = some p) : (s.upsert e).2.target o = some p := by
  unfold Store.target at hp ⊢
  split
  · rw [upsert_fuseRoot]
    exact hp
  · simp only at hp
    rw [upsert_get]
    split
    · rename_i hk
      rw [hk] at hp
      rw [upsert_of_some hp]
    · exact hp

/-- The note of a file is looked for where it was, unless it is the one that is updated. -/
theorem target_upsert_of_ne {s : Store} {e : AgendaEntry} {o : Option CStr}
    (h : o.map (· ++ bytes ".ics") ≠ some e.filenameVdir) :
    (s.upsert e).2.target o = s.target o := by
  unfold Store.target
  split
  · rw [upsert_fuseRoot]
  · rw [upsert_get, if_neg fun hk => h (congrArg some hk)]

/-- The tree after the note of an entry has been updated and moved to `p`. -/
def Store.updated (s : Store) (e : AgendaEntry) (p : NodeId) : Store :=
  (s.upsert e).2.place p (s.upsert e).1 ((s.upsert e).2.placedName p (s.upsert e).1)

section Updated

variable {s : Store} {e : AgendaEntry} {p n : NodeId}

theorem updated_get (k : CStr) :
    (s.updated e p).entriesVdir.get k =
      if k = e.filenameVdir then some (s.upsert e).1 else s.entriesVdir.get k := by
  rw [Store.updated, place_entriesVdir, upsert_get]

theorem updated_target (o : Option CStr) :
    (s.updated e p).target o = (s.upsert e).2.target o :=
  target_congr place_fuseRoot place_entriesVdir o

/-- Only the node of the note is moved. -/
theorem updated_parent (h : s.Inv) (hp : (s.upsert e).2.Live p) :
    (s.updated e p).links.parent =
      Function.update s.links.parent (s.upsert e).1 (some p) := by
  rw [Store.updated, place_parent h.upsert.wf hp (live_of_entry (upsert_entry h)), h.upsert_links]

/-- It is called as its file says, with a number if that name is taken. -/
theorem updated_name (h : s.Inv) :
    ∃ i, (s.updated e p).name (s.upsert e).1 = numbered e.filename i := by
  rw [Store.updated, place_name (upsert_entry h), Function.update_self, placedName,
    name_of_entry (upsert_entry h)]
  exact ⟨_, rfl⟩

theorem updated_name_of_ne (h : s.Inv) (hn : n ≠ (s.upsert e).1) :
    (s.updated e p).name n = s.name n := by
  rw [Store.updated, place_name (upsert_entry h), Function.update_of_ne hn, name, name,
    upsert_entry_of_ne hn]

end Updated

/-- The state after the note of an entry has been updated and moved to `p`. -/
def World.updated (cfg : Config Text) (w : World Text) (e : AgendaEntry) (p : NodeId) :
    World Text := World.marked cfg { w with store := w.store.updated e p } p

@[simp] theorem updated_store (e : AgendaEntry) (p : NodeId) :
    (w.updated cfg e p).store = w.store.updated e p := marked_store p

/-- Moved below the root, a note has no parent to mark. -/
theorem updated_root (h : w.store.Inv) (e : AgendaEntry) :
    w.updated cfg e (w.store.upsert e).2.fuseRoot =
      { w with store := w.store.updated e (w.store.upsert e).2.fuseRoot } := by
  have hu : (w.store.upsert e).2.Inv := h.upsert
  refine marked_of_entry_none ?_
  change (Store.place _ _ _ _).entry _ = none
  rw [place_entry, hu.root_entry]
  split <;> rfl

/-- What handling a file can come to. -/
inductive Handled (cfg : Config Text) (w : World Text) (filenameVdir : CStr) : World Text → Prop
  | unchanged : Handled cfg w filenameVdir w
  | updated {e : AgendaEntry} {c : Icalcomponent} {p : NodeId}
      (hc : w.fileComponent cfg filenameVdir = some c)
      (he : agendaEntryOf cfg (appendPath cfg.vdir filenameVdir) c = some e)
      (hp : (w.store.upsert e).2.target (getParentUid cfg.ical c) = some p) :
      Handled cfg w filenameVdir (w.updated cfg e p)

/-- `move_fuse_node` places the node under a free name. -/
theorem moveFuseNode_place {s : Store} (h : s.Inv) {p c : NodeId} {e : AgendaEntry}
    (hp : s.Live p) (he : s.entry c = some e) :
    moveFuseNode (some p) c s = .ok (0, s.place p c (s.placedName p c)) := by
  rw [moveFuseNode_run h hp he, placedName, name_of_entry he]
  rfl

/-- `add_fuse_child` places a node that stands alone. -/
theorem addFuseChild_place {s : Store} (h : s.Inv) {p c : NodeId} {e : AgendaEntry}
    (hp : s.Live p) (he : s.entry c = some e) (hparent : s.links.parent c = none) :
    addFuseChild (some p) c s = .ok (0, s.place p c (s.placedName p c)) := by
  rw [addFuseChild_run h hp he, placedName, name_of_entry he, Store.place,
    detach_of_none hparent]

/-- The component of a node only depends on its entry and the files. -/
theorem component_congr {w' : World Text} {n : NodeId}
    (hentry : (w'.store.entry n).map (·.filenameVdir) = (w.store.entry n).map (·.filenameVdir))
    (hfiles : w'.files = w.files) : w'.component cfg n = w.component cfg n := by
  have hfile : ∀ k, w'.fileComponent cfg k = w.fileComponent cfg k := fun k => by
    unfold World.fileComponent
    rw [hfiles]
  have key : ∀ v : World Text, v.component cfg n =
      ((v.store.entry n).map (·.filenameVdir)).bind (v.fileComponent cfg) := fun v => by
    unfold World.component
    rw [Option.bind_map]
    rfl
  rw [key, key, hentry]
  exact congrArg _ (funext hfile)

/-- The state after the entry of a file has been put into tree and index. -/
def World.upserted (w : World Text) (e : AgendaEntry) : World Text :=
  { w with store := (w.store.upsert e).2 }

/-- The node can become the parent of a note: its file opens and can be marked. -/
structure World.TakesNotes (cfg : Config Text) (w : World Text) (p : NodeId) : Prop where
  opens : ∀ e, w.store.entry p = some e → w.Readable cfg e.filenameVdir
  markable : w.Markable cfg p

/-- Whether a node can become a parent depends on its file only, not on its name or place. -/
theorem World.TakesNotes.congr {v v' : World Text} {p : NodeId} (h : v.TakesNotes cfg p)
    (hentry : (v'.store.entry p).map (·.filenameVdir) = (v.store.entry p).map (·.filenameVdir))
    (hfiles : v'.files = v.files) (henv : v'.env = v.env) : v'.TakesNotes cfg p := by
  refine ⟨fun e' he' => ?_, ?_⟩
  · rw [he'] at hentry
    obtain ⟨e, he, hk⟩ := Option.map_eq_some_iff.1 hentry.symm
    have hr := h.opens e he
    simp only at hk
    unfold World.Readable at hr ⊢
    rw [hfiles, ← hk]
    exact hr
  · obtain ⟨pic, hpic, ho⟩ := h.markable
    refine ⟨pic, (component_congr hentry hfiles).trans hpic, ?_⟩
    unfold World.outcome at ho ⊢
    rw [henv]
    exact ho

/-- A note whose file can be read and written can become a parent. -/
theorem takesNotes_of_entry {v : World Text} {p : NodeId} {e : AgendaEntry}
    (he : v.store.entry p = some e) (hr : v.Readable cfg e.filenameVdir)
    (hc : (v.fileComponent cfg e.filenameVdir).isSome = true) (ho : v.outcome.status = 0) :
    v.TakesNotes cfg p := by
  obtain ⟨pic, hpic⟩ := Option.isSome_iff_exists.1 hc
  refine ⟨fun e' he' => ?_, pic, (component_of_entry he).trans hpic, .inr ho⟩
  cases he.symm.trans he'
  exact hr

/-- Handling a note read as `e` reaches its parent `p`. -/
structure World.HandlesBelow (cfg : Config Text) (w : World Text) (k : CStr) (e : AgendaEntry)
    (p : NodeId) : Prop where
  target : (w.store.upsert e).2.target (w.parentUid cfg k) = some p
  takes : w.parentUid cfg k ≠ none → (w.upserted e).TakesNotes cfg p

/-- What keeps the handling of a file from stopping. -/
structure World.Handles (cfg : Config Text) (w : World Text) (k : CStr) : Prop where
  opens : w.files (appendPath cfg.vdir k) ≠ none → w.Readable cfg k
  parent : ∀ e, w.loadable cfg k = some e → ∃ p, w.HandlesBelow cfg k e p

/-- Moving an updated note below its parent, which is then marked. -/
theorem wp_moveBelow {Q : Int → World Text → Prop} {E : Crash → Prop} (h : w.store.Inv)
    {e : AgendaEntry} {p : NodeId} (hp : (w.store.upsert e).2.Live p)
    (hE : ¬ (w.upserted e).TakesNotes cfg p → ∀ c : Crash, c.Visible → E c)
    (hQ : (w.upserted e).TakesNotes cfg p → Q 0 (w.updated cfg e p)) :
    Prog.wp (do
      let _ ← onStore (moveFuseNode (some p) (w.store.upsert e).1)
      let newParent ← onStore (nonNull (some p))
      let pic ← getIcalcomponentFromNode cfg newParent
      markParent cfg newParent pic
      (pure 0 : FsM Text Int)) Q E (w.upserted e) := by
  -- The move leaves the file of the parent and what comes next.
  have hfile : ((w.store.updated e p).entry p).map (·.filenameVdir) =
      ((w.store.upsert e).2.entry p).map (·.filenameVdir) := place_filenameVdir ..
  have hmoved : (w.upserted e).TakesNotes cfg p →
      World.TakesNotes cfg { w with store := w.store.updated e p } p :=
    fun h => h.congr hfile rfl rfl
  have hmove := moveFuseNode_place h.upsert hp (upsert_entry (e := e) h)
  rw [Prog.wp_bind_ok (onStore_run hmove), Prog.wp_bind_ok (onStore_run (nonNull_run p))]
  change Prog.wp _ _ _ { w with store := w.store.updated e p }
  refine wp_getIcalcomponentFromNode (by simpa [Store.updated] using hp)
    (fun hread => hE fun htakes => hread (hmoved htakes).opens) fun hread => ?_
  refine wp_markParent (fun hn => hE (fun htakes => ?_) _ (.inl rfl)) fun hm => ?_
  · exact hn (hmoved htakes).markable
  · have hback : World.TakesNotes cfg { w with store := w.store.updated e p } p := ⟨hread, hm⟩
    exact hQ (hback.congr hfile.symm rfl rfl)

/-- Handling a file that is no note changes nothing; the note of any other file is updated
    and moved below its parent, which has to be indexed. -/
theorem wp_updateOrCreateFuseEntryFromVdir {E : Crash → Prop} (h : w.store.Inv)
    {filepathVdir : CStr}
    (hE : ¬ w.Handles cfg (getFilename filepathVdir) → ∀ c : Crash, c.Visible → E c) :
    Prog.wp (updateOrCreateFuseEntryFromVdir cfg filepathVdir)
      (fun status w' => (w.files (appendPath cfg.vdir (getFilename filepathVdir)) ≠ none →
          w.Readable cfg (getFilename filepathVdir)) ∧
        match w.loadable cfg (getFilename filepathVdir) with
        | none => status = - EIO ∧ w' = w
        | some e => ∃ p, w.HandlesBelow cfg (getFilename filepathVdir) e p ∧ status = 0 ∧
            w' = w.updated cfg e p)
      E w := by
  unfold updateOrCreateFuseEntryFromVdir
  refine wp_loadAgendaEntryFromIcsFile
    (fun hfile hr => hE fun hgo => hr (hgo.opens hfile)) fun hopen => ?_
  cases he : w.loadable cfg (getFilename filepathVdir) with
  | none => exact ⟨hopen, rfl, rfl⟩
  | some e =>
    have hk := filenameVdir_of_loadable (slash_not_mem_getFilename _) he
    have hu : (w.store.upsert e).2.Inv := h.upsert
    have hentry := upsert_entry (e := e) h
    simp only
    rw [Prog.wp_bind_ok (onStore_run (upsertFuseNode_run h))]
    -- The file is read once more, through the node it now has.
    refine wp_getIcalcomponentFromNode (live_of_entry hentry)
      (fun hopens => hE fun hgo => hopens fun e' he' => ?_) fun _ => ?_
    · cases hentry.symm.trans he'
      have hfile : w.files (appendPath cfg.vdir (getFilename filepathVdir)) ≠ none := fun hnone => by
        rw [World.loadable, World.fileComponent, hnone] at he
        exact nomatch he
      rw [hk]
      exact hgo.opens hfile
    rw [component_of_entry hentry, hk]
    have hparent : (World.fileComponent cfg { w with store := (w.store.upsert e).2 }
        (getFilename filepathVdir)).bind (getParentUid cfg.ical) =
          w.parentUid cfg (getFilename filepathVdir) := rfl
    rw [hparent]
    cases huid : w.parentUid cfg (getFilename filepathVdir) with
    | none =>
      simp only
      rw [Prog.wp_bind_ok (Prog.get_run _)]
      rw [Prog.wp_bind_ok (onStore_run (moveFuseNode_place hu hu.root_live hentry))]
      exact ⟨hopen, _, ⟨by rw [huid]; rfl, fun hne => absurd huid hne⟩, rfl,
        (updated_root h e).symm⟩
    | some uid =>
      simp only
      rw [Prog.wp_bind_ok (onStore_run (getNodeByUuid_run uid))]
      cases hp : (w.store.upsert e).2.entriesVdir.get (uid ++ bytes ".ics") with
      | none =>
        -- `move_fuse_node` gets a NULL parent.
        rw [Prog.wp_bind_error (onStore_error (moveFuseNode_none hu (live_of_entry hentry)))]
        refine hE (fun hgo => ?_) _ (.inr (.inl rfl))
        obtain ⟨p, hbelow⟩ := hgo.parent e he
        have htarget := hbelow.target
        rw [huid] at htarget
        exact nomatch hp.symm.trans htarget
      | some p =>
        have hlive := hu.live_of_index hp
        have htarget : (w.store.upsert e).2.target
            (w.parentUid cfg (getFilename filepathVdir)) = some p := by
          rw [huid]
          exact hp
        refine wp_moveBelow h hlive (fun hstop => hE fun hgo => ?_) fun htakes => ?_
        · obtain ⟨p', hbelow⟩ := hgo.parent e he
          cases htarget.symm.trans hbelow.target
          exact hstop (hbelow.takes (by rw [huid]; exact nofun))
        · exact ⟨hopen, p, ⟨htarget, fun _ => htakes⟩, rfl, rfl⟩

theorem handled_of_target {k : CStr} {e : AgendaEntry} {p : NodeId}
    (he : w.loadable cfg k = some e)
    (hp : (w.store.upsert e).2.target (w.parentUid cfg k) = some p) :
    Handled cfg w k (w.updated cfg e p) := by
  obtain ⟨c, hc, hce⟩ := Option.bind_eq_some_iff.1 he
  refine .updated hc hce ?_
  rw [World.parentUid, hc] at hp
  exact hp

/-! ## Deletion -/

theorem slash_mem_appendPath (p name : CStr) : slash ∈ appendPath p name := by
  simp [appendPath]

/-- A path is not the UID of a note: the lookup of a deleted file finds nothing. -/
theorem deleteFromVdirPath_run (h : w.store.Sound) {filepath : CStr} (hpath : slash ∈ filepath) :
    deleteFromVdirPath filepath w = .ok (-ENOENT, w) := by
  have hnone : w.store.entriesVdir.get (filepath ++ bytes ".ics") = none := by
    cases hk : w.store.entriesVdir.get (filepath ++ bytes ".ics") with
    | none => rfl
    | some n => exact absurd (List.mem_append_left _ hpath) (h.key_flat hk)
  unfold deleteFromVdirPath
  rw [Prog.bind_run_ok (onStore_run (getNodeByUuid_run filepath)), hnone]
  rfl

/-! ## The handler -/

/-- The file an event is about. -/
def InotifyEvent.file (cfg : Config Text) (event : InotifyEvent) : CStr :=
  getFilename (appendPath cfg.vdir event.name)

/-- Handling an event of deletion changes nothing. -/
theorem handleVdirEvent_delete_run (h : w.store.Sound) {event : InotifyEvent}
    (hmask : event.mask &&& IN_DELETE ≠ 0) : handleVdirEvent cfg event w = .ok ((), w) := by
  unfold handleVdirEvent
  split
  · rfl
  · simp only
    rw [Prog.bind_run_ok (deleteFromVdirPath_run h (slash_mem_appendPath _ _))]
    rfl

/-- The event makes the handler look at the file. -/
def InotifyEvent.updates (event : InotifyEvent) : Bool :=
  event.name ≠ [] && strstr (bytes ".ics") event.name && event.mask &&& IN_DELETE = 0 &&
    (event.mask &&& IN_MODIFY ≠ 0 || event.mask &&& IN_CREATE ≠ 0)

/-- An event that makes the handler look at the file. -/
theorem handleVdirEvent_eq {event : InotifyEvent} (h : event.updates = true) :
    handleVdirEvent cfg event =
      updateOrCreateFuseEntryFromVdir cfg (appendPath cfg.vdir event.name) >>= fun _ => pure () := by
  simp only [InotifyEvent.updates, Bool.and_eq_true, Bool.or_eq_true, decide_eq_true_eq] at h
  obtain ⟨⟨⟨hname, hics⟩, hdelete⟩, hmask⟩ := h
  unfold handleVdirEvent
  rw [if_neg (by simp [hname, hics])]
  simp only [hdelete, ne_eq, not_true_eq_false, if_false]
  split
  · rfl
  · rename_i hmodify
    rw [if_pos (hmask.resolve_left hmodify)]

/-- Any other event changes nothing. -/
theorem handleVdirEvent_run (h : w.store.Sound) {event : InotifyEvent}
    (hevent : event.updates = false) : handleVdirEvent cfg event w = .ok ((), w) := by
  by_cases hmask : event.mask &&& IN_DELETE ≠ 0
  · exact handleVdirEvent_delete_run h hmask
  · unfold handleVdirEvent
    split
    · rfl
    rename_i hname
    simp only
    -- The event has a name in `.ics`, so none of the two bits can be set.
    by_cases hmodify : event.mask &&& IN_MODIFY ≠ 0
    · exfalso
      simp_all [InotifyEvent.updates]
    · rw [if_neg hmodify]
      by_cases hcreate : event.mask &&& IN_CREATE ≠ 0
      · exfalso
        simp_all [InotifyEvent.updates]
      · rw [if_neg hcreate]
        rfl

theorem wp_handleVdirEvent (h : w.store.Sound) (event : InotifyEvent) :
    Prog.wp (handleVdirEvent cfg event)
      (fun _ w' => Handled cfg w (event.file cfg) w' ∧ (event.updates = false → w' = w))
      Crash.Visible w := by
  cases hevent : event.updates with
  | false =>
    rw [Prog.wp_of_ok (handleVdirEvent_run h hevent)]
    exact ⟨.unchanged, fun _ => rfl⟩
  | true =>
    rw [handleVdirEvent_eq hevent, Prog.wp_bind]
    refine Prog.wp_mono (wp_updateOrCreateFuseEntryFromVdir h.toInv fun _ _ hc => hc)
      (fun _ w' hw => ⟨?_, fun h => nomatch h⟩) fun _ hc => hc
    cases he : w.loadable cfg (event.file cfg) with
    | none =>
      rw [InotifyEvent.file] at he
      rw [he] at hw
      exact hw.2.2 ▸ .unchanged
    | some e =>
      rw [InotifyEvent.file] at he
      rw [he] at hw
      obtain ⟨_, p, hp, _, rfl⟩ := hw
      exact handled_of_target he hp.target

end Agendafs
