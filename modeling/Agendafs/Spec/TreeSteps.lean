import Agendafs.Spec.Mounted

/-!
# The steps of the tree of files

What the calls that change something leave of a mounted file system, when no system
call fails: it is mounted again, and the tree of files differs where it should.

## Key results

- `Mounted.wrote`, `tree_wrote`: writing the edit of a note
- `Mounted.created`, `tree_created`: a new note
- `Mounted.removed`, `tree_removed`: a note without children that is deleted
- `Mounted.moved`, `tree_moved`: a note that is renamed
-/

namespace Agendafs

open Store Icalcomponent

variable {Text : Type} {cfg : Config Text} {w w' : World Text} {c : Icalcomponent}
  {n m p : NodeId} {e : AgendaEntry} {segments dir : List CStr} {name : CStr}

/-! ## Edits of a note -/

section Wrote

variable {f : Icalcomponent → Icalcomponent}

theorem Mounted.wrote (hL : cfg.ical.Lawful) (h : Mounted cfg w) (hs : w.env.Succeeds)
    (he : w.store.entry n = some e) (hc : w.component cfg n = some c) (hf : KeepsJournal f) :
    Mounted cfg (w.wrote cfg e.filenameVdir (f c)) where
  sound := h.sound
  unique := h.unique
  journals m e' he' := by
    rw [component_of_entry he] at hc
    by_cases hk : e'.filenameVdir = e.filenameVdir
    · rw [hk]
      exact (h.journals n e he).wrote hL hf hs.outcome hc
    · exact (h.journals m e' he').congr (files_wrote_of_ne hk _)
  marks := by
    have hfile : w.fileComponent cfg e.filenameVdir = some c := by
      rw [← component_of_entry he, hc]
    refine h.marks.wrote hL h.inv he hf.toKeepsMark (parsed_of_fileComponent hL hfile)
      (fun ps hps => h.marks.once _ c ps hfile hps) (fun hn => ?_) (hs.leavesMarks _)
    obtain ⟨c', hc', hdir⟩ := h.marks.marked n hn
    rw [Option.some.inj (hc.symm.trans hc')]
    exact hdir

/-- The component of the note is the edited one, and those of the others are as before. -/
theorem component_wrote (hL : cfg.ical.Lawful) (h : w.store.Inv) (ho : w.outcome = .written)
    (he : w.store.entry n = some e) (hc : w.component cfg n = some c) (hf : Printable f)
    (m : NodeId) :
    (w.wrote cfg e.filenameVdir (f c)).component cfg m =
      if m = n then some (stamp w.now (f c)).reread else w.component cfg m := by
  rw [component_of_entry he] at hc
  by_cases hmn : m = n
  · have he' : (w.wrote cfg e.filenameVdir (f c)).store.entry n = some e := he
    rw [if_pos hmn, hmn, component_of_entry he',
      fileComponent_wrote hL (hf c (printable_of_parsed (parsed_of_fileComponent hL hc))) ho]
  · rw [if_neg hmn]
    unfold World.component
    refine Option.bind_congr fun e' he' => fileComponent_wrote_of_ne (fun hk => hmn ?_) _
    exact filenameVdir_inj h he he' hk

/-- What is shown of an edited note: it is a directory if it was one. -/
theorem entryOf_restamped (hf : KeepsMark f) (hc : c.parsed = true) (now : CStr) :
    entryOf cfg (some (stamp now (f c)).reread) =
      if isDirectoryComponent cfg.ical c then .directory
      else .file (noteContent (stamp now (f c)).reread) := by
  rw [entryOf, hf.restamped hc now]

/-- An edit that keeps the texts of the note is not seen. -/
theorem entryOf_restamped_texts (hL : cfg.ical.Lawful) (hf : KeepsMark f) (ht : KeepsTexts f)
    (hc : c.parsed = true) (now : CStr) :
    entryOf cfg (some (stamp now (f c)).reread) = entryOf cfg (some c) := by
  have hprintable : (stamp now (f c)).printable = true :=
    printable_stamp now _ (hf.printable c (printable_of_parsed hc))
  have hparsed := hL.parsed_of_newFromString (hL.newFromString_asIcalString _ hprintable)
  rw [entryOf_restamped hf hc now, ht.restamped hc now hparsed]
  rfl

/-- The tree with the new content of an edited file. -/
theorem tree_wrote (hL : cfg.ical.Lawful) (h : Mounted cfg w) (hs : w.env.Succeeds)
    (hn : w.store.namespace segments = some n) (he : w.store.entry n = some e)
    (hc : w.component cfg n = some c) (hf : KeepsJournal f) :
    (h.wrote hL hs he hc hf).tree.entry =
      Function.update h.tree.entry segments
        (some (entryOf cfg (some (stamp w.now (f c)).reread))) := by
  have hcomponent := component_wrote hL h.inv hs.outcome he hc hf.printable
  have hsame : (w.wrote cfg e.filenameVdir (f c)).store.namespace =
      Function.update w.store.namespace segments (some n) := by
    rw [← hn]
    exact (Function.update_eq_self ..).symm
  have hupdate := h.tree_update (h.wrote hL hs he hc hf) hsame fun segments' m hne hm => by
      have hmn : m ≠ n := fun heq => hne (h.inv.wf.resolve_inj h.inv.root_parent (heq ▸ hm) hn)
      rw [hcomponent m, if_neg hmn]
  rw [hupdate, Option.map_some, hcomponent n, if_pos rfl]

end Wrote

/-! ## New notes -/

section Created

variable {etype : EntryType} {path : CStr}

/-- No path of the kernel is hidden, and a new one is that of nothing. -/
theorem rejects_iff (hproper : ProperSegments (dir ++ [name])) :
    w.Rejects (normalPath (dir ++ [name])) ↔ w.store.namespace (dir ++ [name]) ≠ none := by
  obtain ⟨path, hpath⟩ := exists_normalPath (List.concat_ne_nil name dir)
  rw [World.Rejects, lookup_normalPath w.store hproper, ← Option.isSome_iff_ne_none, hpath]
  simp [pathIsHidden, startsWithStr, slash, dot]

theorem created_filenameVdir (cfg : Config Text) (path : CStr) (etype : EntryType) (p : NodeId)
    (h : w.store.Inv) (m : NodeId) :
    ((w.created cfg path etype p).store.entry m).map (·.filenameVdir) =
      if m = w.store.nextId then some (w.newEntry path).filenameVdir
      else (w.store.entry m).map (·.filenameVdir) := by
  rw [created_store h, place_filenameVdir, create_entry]
  split <;> rfl

/-- The file of a new note is that of no other. -/
theorem filenameVdir_ne_new (h : w.store.Inv) (hfresh : w.FreshUuid cfg)
    (he : w.store.entry m = some e) : e.filenameVdir ≠ (w.newEntry path).filenameVdir := fun heq =>
  nomatch ((h.index _ m).2 ⟨e, he, heq⟩).symm.trans hfresh.not_indexed

theorem component_created_of_ne (h : w.store.Inv) (hfresh : w.FreshUuid cfg)
    (hm : m ≠ w.store.nextId) :
    (w.created cfg path etype p).component cfg m = w.component cfg m := by
  have hentry := created_filenameVdir cfg path etype p h m
  rw [if_neg hm] at hentry
  unfold World.component
  cases he : w.store.entry m with
  | none =>
    rw [he] at hentry
    rw [Option.map_eq_none_iff.1 hentry]
    rfl
  | some e =>
    rw [he] at hentry
    obtain ⟨e', he', hk⟩ := Option.map_eq_some_iff.1 hentry
    rw [he', Option.bind_some, Option.bind_some, hk]
    exact fileComponent_wrote_of_ne (w := w.allocated path) (filenameVdir_ne_new h hfresh he) _

theorem fileComponent_created (hL : cfg.ical.Lawful) (ho : w.outcome = .written) :
    (w.created cfg path etype p).fileComponent cfg (w.newEntry path).filenameVdir =
      some (w.createdNote cfg path etype p).reread :=
  (created_content ho).fileComponent hL (printable_createdNote path etype p)

theorem parsed_createdNote (hL : cfg.ical.Lawful) :
    (w.createdNote cfg path etype p).reread.parsed = true :=
  hL.parsed_of_newFromString
    (hL.newFromString_asIcalString _ (printable_createdNote path etype p))

/-- A new note has the UID it was made with. -/
theorem isJournal_createdNote : IsJournal (w.createdNote cfg path etype p).reread where
  inner := getInner_isSome (isNote_createdNote path etype p)
  uid := by
    have hnewId : w.newId ≠ [] := fun hnil => by
      have hlength := congrArg List.length hnil
      simp [World.newId, createNewUniqueIcsUid, bytes] at hlength
    unfold getUid
    rw [getText_eq, Icalcomponent.inner, createdNote_kind, if_pos rfl,
      view_createdNote path etype p (onlyKind_kind .uid) (by decide) (fun _ => rfl) rfl]
    cases etype <;> simp [newProperties, hnewId]

/-- A new note has no text. -/
theorem texts_createdNote : texts (w.createdNote cfg path etype p).reread = [] := by
  have hrelated : KeepsTexts (related (w.component cfg p)) :=
    keepsTexts_of_keeps (keeps_related _ fun _ => rfl)
  rw [texts_reread, World.createdNote, keepsTexts_stamp, newNote_eq, hrelated, newComponent_eq]
  cases etype <;> rfl

/-- What is shown of a new note: a file is empty. -/
def EntryType.shown : EntryType → TreeFs.Entry CStr
  | .directory => .directory
  | .file => .file []

theorem entryOf_createdNote (hL : cfg.ical.Lawful) :
    entryOf cfg (some (w.createdNote cfg path etype p).reread) = etype.shown := by
  rw [entryOf, isDirectory_createdNote path etype p hL,
    noteContent_of_parsed (parsed_createdNote hL), texts_createdNote]
  cases etype <;> rfl

/-- A file that is written for the first time can be read. -/
theorem readable_wrote_new {k : CStr} (ho : w.outcome = .written)
    (hnone : w.files (appendPath cfg.vdir k) = none) (ic : Icalcomponent) :
    (w.wrote cfg k ic).Readable cfg k := by
  refine ⟨⟨cfg.ical.asIcalString (stamp w.now ic), true⟩, ?_, rfl⟩
  simp only [World.wrote, ho, writtenFiles, hnone, if_pos, Option.all_none]

/-- The node of a new note is a note on disk. -/
theorem Mounted.created (hL : cfg.ical.Lawful) (h : Mounted cfg w) (hs : w.env.Succeeds)
    (hfresh : w.FreshUuid cfg) {status : Int}
    (hc : Created cfg w path etype status (w.created cfg path etype p)) :
    Mounted cfg (w.created cfg path etype p) where
  sound := hc.sound h.sound hfresh
  unique := hc.uniqueNames h.sound h.unique hfresh
  journals m e' he' := by
    have hentry := created_filenameVdir cfg path etype p h.inv m
    rw [he', Option.map_some] at hentry
    by_cases hm : m = w.store.nextId
    · rw [if_pos hm, Option.some.injEq] at hentry
      rw [hentry]
      exact ⟨readable_wrote_new (w := w.allocated path) hs.outcome hfresh.no_file _, _,
        fileComponent_created hL hs.outcome, isJournal_createdNote⟩
    · rw [if_neg hm] at hentry
      obtain ⟨e, he, hk⟩ := Option.map_eq_some_iff.1 hentry.symm
      rw [← hk]
      exact (h.journals m e he).congr
        (files_wrote_of_ne (w := w.allocated path) (filenameVdir_ne_new h.inv hfresh he) _)
  marks := (hc.marks hL h.sound h.marks hfresh (hs.leavesMarks _)).mono fun _ => .inr

/-- Making a note puts it into the tree. -/
theorem tree_created (hL : cfg.ical.Lawful) (h : Mounted cfg w) (hs : w.env.Succeeds)
    (hfresh : w.FreshUuid cfg) {status : Int} (hproper : ProperSegments (dir ++ [name]))
    (hp : w.store.namespace dir = some p)
    (hc : Created cfg w (normalPath (dir ++ [name])) etype status
      (w.created cfg (normalPath (dir ++ [name])) etype p)) :
    (h.created hL hs hfresh hc).tree.entry =
      Function.update h.tree.entry (dir ++ [name]) (some etype.shown) := by
  have h' := h.created hL hs hfresh hc
  have hstore : (w.created cfg (normalPath (dir ++ [name])) etype p).store =
      (w.store.create (w.newEntry (normalPath (dir ++ [name])))).place p w.store.nextId name := by
    rw [created_store h.inv, getFilename_normalPath hproper]
  have hnamespace : (w.created cfg (normalPath (dir ++ [name])) etype p).store.namespace =
      Function.update w.store.namespace (dir ++ [name]) (some w.store.nextId) := by
    have hunique := h'.unique
    rw [hstore] at hunique ⊢
    exact namespace_place_new h.inv h.unique hfresh.not_indexed hunique hp
  have hupdate := h.tree_update h' hnamespace fun segments m _ hm => by
    rw [component_created_of_ne h.inv hfresh fun heq =>
      h.inv.not_live_nextId (heq ▸ live_of_namespace h.inv hm)]
  have hnew : (w.created cfg (normalPath (dir ++ [name])) etype p).component cfg w.store.nextId =
      some (w.createdNote cfg (normalPath (dir ++ [name])) etype p).reread := by
    have hentry := created_filenameVdir cfg (normalPath (dir ++ [name])) etype p h.inv
      w.store.nextId
    rw [if_pos rfl] at hentry
    obtain ⟨e, he, hk⟩ := Option.map_eq_some_iff.1 hentry
    rw [component_of_entry he, hk, fileComponent_created hL hs.outcome]
  rw [hupdate, Option.map_some, hnew, entryOf_createdNote hL]

end Created

/-! ## Notes that are deleted -/

theorem Mounted.removed (h : Mounted cfg w) (he : w.store.entry n = some e)
    (hchildren : w.store.links.children n = []) :
    Mounted cfg (w.removed cfg n e.filenameVdir) where
  sound := h.sound.delete he hchildren
  unique := h.unique.delete h.inv hchildren _
  journals m e' he' := by
    have hentry : (w.store.delete n e.filenameVdir).entry m = some e' := he'
    rw [Inv.delete_entry] at hentry
    split at hentry
    · exact nomatch hentry
    · rename_i hmn
      refine (h.journals m e' hentry).congr (if_neg fun hk => hmn ?_)
      exact filenameVdir_inj h.inv he hentry (appendPath_inj.1 hk)
  marks := (h.marks.removed h.inv he fun hparent => hparent.2 hchildren).mono fun _ =>
    isParent_delete h.inv hchildren

theorem tree_removed (h : Mounted cfg w) (he : w.store.entry n = some e)
    (hn : w.store.namespace segments = some n) (hchildren : w.store.links.children n = []) :
    (h.removed he hchildren).tree.entry =
      Function.update h.tree.entry segments none :=
  h.tree_update (h.removed he hchildren)
    (namespace_removed h.sound h.unique he hchildren hn) fun segments' m hne hm => by
      rw [component_removed h.inv he fun heq =>
        hne (h.inv.wf.resolve_inj h.inv.root_parent (heq ▸ hm) hn)]

/-! ## Notes that are renamed -/

section Moved

variable {old : List CStr} {status : Int} {k x : CStr} {ics : Icalcomponent} {c q : NodeId}

theorem keepsJournal_updatedSummary (x : CStr) : KeepsJournal (updatedSummary cfg x) where
  toKeepsMark := keepsMark_updatedSummary x
  uid := keeps_updatedSummary (onlyKind_kind .uid) (by decide) x

theorem keepsTexts_updatedSummary (x : CStr) : KeepsTexts (updatedSummary cfg x) :=
  keepsTexts_of_keeps (keeps_updatedSummary (onlyKind_kind .description) (by decide) x)

theorem keepsJournal_stamp (now : CStr) : KeepsJournal (stamp now) where
  toKeepsMark := keepsMark_stamp now
  uid := keeps_uid_stamp now

theorem keepsJournal_setFileExtension (ext : CStr) :
    KeepsJournal (icalcomponentSetFileExtension · ext) where
  toKeepsMark := keepsMark_setFileExtension ext
  uid := keeps_setFileExtension (onlyKind_ne_xProp (onlyKind_kind .uid) (by decide) _) ext

theorem keepsTexts_setFileExtension (ext : CStr) :
    KeepsTexts (icalcomponentSetFileExtension · ext) :=
  keepsTexts_of_keeps
    (keeps_setFileExtension (onlyKind_ne_xProp (onlyKind_kind .description) (by decide) _) ext)

/-- A note is given its new name, with the time of each write. -/
theorem renamedNote_keeps (n : NodeId) (k x : CStr) :
    KeepsJournal (w.renamedNote cfg n k x) ∧ KeepsTexts (w.renamedNote cfg n k x) := by
  have htitled : KeepsJournal (w.titledNote cfg x) ∧ KeepsTexts (w.titledNote cfg x) :=
    ⟨(keepsJournal_stamp w.now).comp (keepsJournal_updatedSummary x),
      (keepsTexts_stamp w.now).comp (keepsTexts_updatedSummary x)⟩
  cases hext : getFileExtension x with
  | none =>
    have heq : w.renamedNote cfg n k x = w.titledNote cfg x := by
      funext ics
      unfold World.renamedNote World.extendedNote
      rw [hext]
    rw [heq]
    exact htitled
  | some ext =>
    have heq : w.renamedNote cfg n k x = fun ics =>
        stamp (w.tick.now) (icalcomponentSetFileExtension (w.titledNote cfg x ics) ext) := by
      funext ics
      unfold World.renamedNote World.extendedNote
      rw [hext]
      rfl
    rw [heq]
    exact ⟨(keepsJournal_stamp _).comp ((keepsJournal_setFileExtension ext).comp htitled.1),
      (keepsTexts_stamp _).comp ((keepsTexts_setFileExtension ext).comp htitled.2)⟩

theorem movedNote_keeps (n : NodeId) (k x : CStr) (p q : NodeId) :
    KeepsJournal (w.movedNote cfg n k x · p q) ∧ KeepsTexts (w.movedNote cfg n k x · p q) := by
  have hrenamed : KeepsJournal (w.renamedNote cfg n k x) ∧ KeepsTexts (w.renamedNote cfg n k x) :=
    renamedNote_keeps n k x
  have hrelation : ∀ κ, κ ≠ .relatedTo → Keeps (·.kind = κ) fun c =>
      related (w.component cfg p) (unrelated (w.component cfg q) c) := fun κ hκ =>
    have hne := onlyKind_ne_relation (onlyKind_kind κ) hκ
    (keeps_related _ hne.2).comp (keeps_unrelated _ hne.1)
  exact ⟨⟨keepsMark_movedNote n k x p q, (hrelation .uid (by decide)).comp hrenamed.1.uid⟩,
    (keepsTexts_of_keeps (hrelation .description (by decide))).comp hrenamed.2⟩

/-- What a rename writes last is an edit of the note that has been read. -/
theorem exists_storedNote (cfg : Config Text) (w : World Text) (n : NodeId) (k x : CStr) (ics : Icalcomponent) (p q : NodeId) :
    ∃ (f : Icalcomponent → Icalcomponent) (now : CStr), KeepsJournal f ∧ KeepsTexts f ∧
      w.storedNote cfg n k x ics p q = stamp now (f ics) := by
  unfold World.storedNote
  split
  · exact ⟨_, _, (movedNote_keeps n k x p q).1, (movedNote_keeps n k x p q).2, rfl⟩
  · cases hext : getFileExtension x with
    | none =>
      refine ⟨updatedSummary cfg x, w.now, keepsJournal_updatedSummary x,
        keepsTexts_updatedSummary x, ?_⟩
      unfold World.renamedNote World.extendedNote
      rw [hext]
      rfl
    | some ext =>
      refine ⟨(icalcomponentSetFileExtension · ext) ∘ stamp w.now ∘ updatedSummary cfg x,
        w.tick.now, (keepsJournal_setFileExtension ext).comp
          ((keepsJournal_stamp w.now).comp (keepsJournal_updatedSummary x)),
        (keepsTexts_setFileExtension ext).comp
          ((keepsTexts_stamp w.now).comp (keepsTexts_updatedSummary x)), ?_⟩
      unfold World.renamedNote World.extendedNote
      rw [hext]
      rfl

theorem component_moved_of_ne (h : w.store.Inv) (he : w.store.entry c = some e) (hm : m ≠ c) :
    (w.moved cfg c e.filenameVdir x ics p q).component cfg m = w.component cfg m := by
  have hentry : ((w.moved cfg c e.filenameVdir x ics p q).store.entry m) = w.store.entry m := by
    rw [moved_store, place_entry, if_neg hm]
  unfold World.component
  rw [hentry]
  refine Option.bind_congr fun e' he' => ?_
  unfold World.fileComponent
  rw [files_moved_of_ne fun hk => hm (filenameVdir_inj h he he' hk)]

/-- What is moved is on disk as the edited note. -/
theorem fileComponent_moved (hL : cfg.ical.Lawful) (hs : w.env.Succeeds)
    (hprintable : ics.printable = true) :
    (w.moved cfg c k x ics p q).fileComponent cfg k =
      some (w.storedNote cfg c k x ics p q).reread :=
  (moved_content fun o ho => hs.written o (List.mem_of_mem_take ho)).fileComponent hL
    (printable_storedNote hprintable)

theorem readable_moved (h : w.Readable cfg k) : (w.moved cfg c k x ics p q).Readable cfg k := by
  have hrenamed : (w.renamed cfg c k x ics).Readable cfg k := by
    unfold World.renamed World.extended
    split
    · exact readable_wrote h _
    · exact readable_wrote (readable_wrote (w := { w with store := w.store.rename c x }) h _) _
  unfold World.moved
  simp only
  split
  · exact readable_wrote hrenamed _
  · exact hrenamed

/-- A rename to a path that is free, into a directory that is not below the note. -/
structure FreeRename (cfg : Config Text) (w : World Text) (old dir : List CStr) (name : CStr)
    (c p : NodeId) : Prop where
  proper : ProperSegments old ∧ ProperSegments (dir ++ [name])
  source : w.store.namespace old = some c
  target : w.store.namespace dir = some p
  into : w.isDirectory cfg p = true
  free : w.store.namespace (dir ++ [name]) = none
  apart : ¬ old <+: dir ++ [name]

theorem entryOf_storedNote (hL : cfg.ical.Lawful) (hics : ics.parsed = true) :
    entryOf cfg (some (w.storedNote cfg n k x ics p q).reread) = entryOf cfg (some ics) := by
  obtain ⟨f, now, hjournal, htexts, heq⟩ := exists_storedNote cfg w n k x ics p q
  rw [heq, entryOf_restamped_texts hL hjournal.toKeepsMark htexts hics]

/-- What such a rename has done when it returns. -/
theorem FreeRename.moved (hr : FreeRename cfg w old dir name c p)
    (hc : AgendaRenamed cfg w (normalPath old) (normalPath (dir ++ [name])) status w') :
    status = 0 ∧ ∃ e ics q, w.store.entry c = some e ∧ w.component cfg c = some ics ∧
      w' = w.moved cfg c e.filenameVdir name ics p q := by
  obtain ⟨parent, hparent, hsplit⟩ := getParentPath_normalPath hr.proper.2
  have hfound : w.store.lookup parent = some p := by
    rw [Store.lookup, hsplit]
    exact hr.target
  cases hc with
  | noParent hparent' hp' =>
    cases hparent.symm.trans hparent'
    cases hfound.symm.trans hp'
  | @moved _ p' c' q e ics hparent' hp' hc' he hics hq =>
    cases hparent.symm.trans hparent'
    cases hfound.symm.trans hp'
    cases ((lookup_normalPath w.store hr.proper.1).trans hr.source).symm.trans hc'
    rw [getFilename_normalPath hr.proper.2]
    exact ⟨rfl, e, ics, q, he, hics, rfl⟩

/-- The file of the new parent parses, so the node goes there and not below the root. -/
theorem FreeRename.newParent (h : Mounted cfg w) (hr : FreeRename cfg w old dir name c p) :
    w.newParent cfg p = p := newParent_eq fun hroot => by
  obtain ⟨e, he⟩ := h.inv.entry_of_live p (live_of_namespace h.inv hr.target) hroot
  rw [component_of_entry he]
  exact (h.parses p e he).2

theorem FreeRename.uniqueNames (h : Mounted cfg w) (hr : FreeRename cfg w old dir name c p)
    (hc : AgendaRenamed cfg w (normalPath old) (normalPath (dir ++ [name])) status w') :
    w'.store.UniqueNames := by
  obtain ⟨parent, hparent, hsplit⟩ := getParentPath_normalPath hr.proper.2
  have hfound : w.store.lookup parent = some p := by
    rw [Store.lookup, hsplit]
    exact hr.target
  refine hc.uniqueNames h.sound h.unique fun parent' p' hparent' hp' => ?_
  cases hparent.symm.trans hparent'
  cases hfound.symm.trans hp'
  refine ⟨hr.newParent h, not_mem_childNames hparent hfound ?_⟩
  rw [lookup_normalPath _ hr.proper.2]
  exact hr.free

theorem Mounted.moved (hL : cfg.ical.Lawful) (h : Mounted cfg w) (hs : w.env.Succeeds)
    (hr : FreeRename cfg w old dir name c p)
    (hc : AgendaRenamed cfg w (normalPath old) (normalPath (dir ++ [name])) status w') :
    Mounted cfg w' := by
  have hsound := hc.sound h.sound
  have hunique := hr.uniqueNames h hc
  obtain ⟨_, e, ics, q, he, hics, rfl⟩ := hr.moved hc
  have hfile : w.fileComponent cfg e.filenameVdir = some ics := by
    rw [← component_of_entry he, hics]
  have hparsed := parsed_of_fileComponent hL hfile
  have hplive := live_of_namespace h.inv hr.target
  refine ⟨hsound, hunique, fun m e' he' => ?_, ?_⟩
  · rw [moved_store, place_entry] at he'
    by_cases hm : m = c
    · rw [if_pos hm, hm, he] at he'
      obtain rfl : { e with filename := name } = e' := Option.some.inj he'
      refine ⟨readable_moved (h.journals c e he).readable, _,
        fileComponent_moved hL hs (printable_of_parsed hparsed), ?_⟩
      obtain ⟨f, now, hjournal, _, heq⟩ :=
        exists_storedNote cfg w c e.filenameVdir name ics p q
      obtain ⟨c', hc', hc''⟩ := (h.journals c e he).journal
      obtain rfl : ics = c' := Option.some.inj (hfile.symm.trans hc')
      rw [heq]
      exact hc''.restamped hjournal.uid hparsed now
    · rw [if_neg hm] at he'
      exact (h.journals m e' he').congr
        (files_moved_of_ne fun hk => hm (filenameVdir_inj h.inv he he' hk))
  · -- The new parent is a directory on disk already, or the root.
    have hw := h.marks.insert h.inv (Q := (· = p)) fun n hn => by
      rw [hn]
      exact ⟨hplive, hr.into⟩
    refine (hw.moved hL h.inv hplive he hics (hs.leavesMarks _) name q).mono fun n hn => ?_
    rw [moved_store, hr.newParent h] at hn
    exact isParent_place h.inv hplive (live_of_entry he) hn

/-- Moving a note moves the subtree below it. -/
theorem tree_moved (hL : cfg.ical.Lawful) (h : Mounted cfg w) (hs : w.env.Succeeds)
    (hr : FreeRename cfg w old dir name c p)
    (hc : AgendaRenamed cfg w (normalPath old) (normalPath (dir ++ [name])) status w') :
    (h.moved hL hs hr hc).tree.entry =
      Links.moveSubtree h.tree.entry old (dir ++ [name]) := by
  have h' := h.moved hL hs hr hc
  have hunique := hr.uniqueNames h hc
  obtain ⟨_, e, ics, q, he, hics, rfl⟩ := hr.moved hc
  have hfile : w.fileComponent cfg e.filenameVdir = some ics := by
    rw [← component_of_entry he, hics]
  have hparsed := parsed_of_fileComponent hL hfile
  have hnamespace : (w.moved cfg c e.filenameVdir name ics p q).store.namespace =
      Links.moveSubtree w.store.namespace old (dir ++ [name]) := by
    rw [moved_store, hr.newParent h] at hunique ⊢
    exact namespace_moved h.inv h.unique hunique he hr.source hr.target
      (fun hpre => hr.apart (hpre.trans (List.prefix_append ..))) hr.free
  have hsame : ∀ m, entryOf cfg ((w.moved cfg c e.filenameVdir name ics p q).component cfg m) =
      entryOf cfg (w.component cfg m) := by
    intro m
    by_cases hm : m = c
    · have hentry : (w.moved cfg c e.filenameVdir name ics p q).store.entry c =
          some { e with filename := name } := by
        rw [moved_store, place_entry, if_pos rfl, he]
        rfl
      rw [hm, component_of_entry hentry, fileComponent_moved hL hs (printable_of_parsed hparsed),
        hics, entryOf_storedNote hL hparsed]
    · rw [component_moved_of_ne h.inv he hm]
  funext segments
  rw [h'.tree_entry_eq, hnamespace]
  unfold Links.moveSubtree
  split
  · rw [h.tree_entry_eq]
    simp only [hsame]
  · split
    · rfl
    · rw [h.tree_entry_eq]
      simp only [hsame]

end Moved

end Agendafs
