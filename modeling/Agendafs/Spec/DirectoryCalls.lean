import Agendafs.Spec.CreatedNotes
import Agendafs.Spec.DirectoryMarks
import Agendafs.Spec.Visibility

/-!
# Calls and directories on disk

A call gives a node a child only if the node is a directory already: a creation
checks this itself, for a rename the kernel does. So the nodes with children are
directories on disk after a call if they were before it, and those that lose
their last child stay directories.

## Key results

- `Created.marks`, `Edited.marks`, `Removed.marks`, `Renamed.marks`: each kind of call
- `Effect.marks`: any call that spares the marks
-/

namespace Agendafs

open Icalcomponent Store

variable {Text : Type} {cfg : Config Text} {w w' v : World Text} {s : Store} {o : Op}
  {n p c : NodeId} {e : AgendaEntry} {needs : NodeId → Prop} {status : Int}

/-! ## Nodes with children -/

/-- A note that has children. -/
def Store.IsParent (s : Store) (n : NodeId) : Prop :=
  n ≠ s.fuseRoot ∧ s.links.children n ≠ []

theorem Store.IsParent.live (hn : s.IsParent n) : s.Live n := by
  obtain ⟨c, rest, hcons⟩ := List.exists_cons_of_ne_nil hn.2
  exact live_of_mem_children (by rw [hcons]; exact List.mem_cons_self)

theorem isParent_create (h : s.Inv) : (s.create e).IsParent n ↔ s.IsParent n := by
  unfold Store.IsParent
  rw [h.links_create]
  rfl

/-- Placing a node gives one other node a child. -/
theorem isParent_place {x : CStr} (h : s.Inv) (hp : s.Live p) (hc : s.Live c)
    (hn : (s.place p c x).IsParent n) : s.IsParent n ∨ n = p ∧ n ≠ s.fuseRoot := by
  obtain ⟨hroot, hchildren⟩ := hn
  rw [place_fuseRoot] at hroot
  rw [place_links h.wf hp hc, h.wf.move_children] at hchildren
  split at hchildren
  · rename_i hnp
    exact .inr ⟨hnp, hroot⟩
  · refine .inl ⟨hroot, fun hnil => hchildren ?_⟩
    rw [hnil]
    rfl

theorem isParent_delete (h : s.Inv) (hc : s.links.children c = []) {k : CStr}
    (hn : (s.delete c k).IsParent n) : s.IsParent n := by
  obtain ⟨hroot, hchildren⟩ := hn
  rw [Inv.delete_fuseRoot] at hroot
  refine ⟨hroot, fun hnil => hchildren ?_⟩
  rw [h.links_delete hc, h.wf.detach_children, hnil]
  rfl

/-- The file of a node that is there stays the same when a note is updated. -/
theorem updated_filenameVdir (h : s.Inv) (hn : s.Live n) :
    ((s.updated e p).entry n).map (·.filenameVdir) = (s.entry n).map (·.filenameVdir) := by
  rw [Store.updated, place_filenameVdir]
  by_cases hne : n = (s.upsert e).1
  · cases hget : s.entriesVdir.get e.filenameVdir with
    | some m =>
      have hm : n = m := by rw [hne, upsert_of_some hget]
      obtain ⟨e', he', hk⟩ := (h.index _ _).1 hget
      rw [hm, he', ← hm, hne, upsert_entry h, Option.map_some, Option.map_some, hk]
    | none =>
      rw [upsert_of_none hget] at hne
      simp only at hne
      rw [hne] at hn
      exact absurd hn h.not_live_nextId
  · rw [upsert_entry_of_ne hne]

theorem isParent_updated (h : s.Inv) (hp : (s.upsert e).2.Live p)
    (hn : (s.updated e p).IsParent n) : s.IsParent n ∨ n = p ∧ n ≠ s.fuseRoot := by
  have hplaced := isParent_place h.upsert hp (live_of_entry (upsert_entry h)) hn
  unfold Store.IsParent at hplaced ⊢
  rw [h.upsert_links, upsert_fuseRoot] at hplaced
  exact hplaced

/-! ## Calls -/

/-- Nodes that the calls take for directories are directories on disk. -/
theorem Marks.insert (h : Marks cfg w.store.IsParent w) (hs : w.store.Inv) {Q : NodeId → Prop}
    (hQ : ∀ n, Q n → w.store.Live n ∧ w.isDirectory cfg n = true) :
    Marks cfg (fun n => w.store.IsParent n ∨ Q n ∧ n ≠ w.store.fuseRoot) w where
  once := h.once
  marked n hn := by
    rcases hn with hn | ⟨hn, hroot⟩
    · exact h.marked n hn
    obtain ⟨hlive, hd⟩ := hQ n hn
    obtain ⟨e, he⟩ := hs.entry_of_live n hlive hroot
    unfold World.isDirectory at hd
    rw [he, Option.isNone_some, Bool.false_or, Bool.or_eq_true, decide_eq_true_eq,
      Option.any_eq_true] at hd
    rcases hd with hchildren | hc
    · exact h.marked n ⟨hroot, hchildren⟩
    · exact hc

theorem once_createdNote (path : CStr) (etype : EntryType) (p : NodeId) {ps : List Icalproperty}
    (hps : directoryFlags (w.createdNote cfg path etype p).reread = some ps) : ps.length ≤ 1 := by
  unfold directoryFlags at hps
  rw [view_createdNote path etype p (onlyKind_isXProp _) (by decide) (fun _ => rfl) rfl,
    Option.some.injEq] at hps
  rw [← hps]
  refine (List.length_filter_le ..).trans ?_
  cases etype with
  | directory => exact Nat.le_refl 1
  | file => exact Nat.zero_le 1

/-- What holds after a step: the nodes that had children and those that have some now are
    directories on disk. -/
def MarksParents (cfg : Config Text) (w w' : World Text) : Prop :=
  Marks cfg (fun n => w.store.IsParent n ∨ w'.store.IsParent n) w'

/-- A step that changes neither the tree nor the files. -/
theorem MarksParents.same (h : Marks cfg w.store.IsParent w) (hstore : w'.store = w.store)
    (hfiles : w'.files = w.files) : MarksParents cfg w w' := by
  have hsame : Marks cfg w.store.IsParent w' := h.congr hfiles fun n _ => by rw [hstore]
  refine hsame.mono fun n hn => ?_
  rw [hstore] at hn
  exact hn.elim id id

/-- The node of a new note has a number of its own. -/
theorem Marks.allocated (h : Marks cfg needs w) (hs : w.store.Inv)
    (hlive : ∀ n, needs n → w.store.Live n) (path : CStr) : Marks cfg needs (w.allocated path) :=
  h.congr rfl fun n hn => by
    rw [allocated_entry fun heq => hs.not_live_nextId (heq ▸ hlive n hn)]

theorem printable_newNote (path : CStr) (etype : EntryType) (p : NodeId) :
    (w.newNote cfg path etype p).printable = true := by
  rw [newNote_eq, newComponent_eq]
  refine printable_related _ _ ?_
  cases etype <;> rfl

/-- A new note has a file of its own. -/
theorem Marks.created (hL : cfg.ical.Lawful) (h : Marks cfg needs w) (hs : w.store.Inv)
    (hlive : ∀ n, needs n → w.store.Live n) {path : CStr} {etype : EntryType}
    (hfresh : w.FreshUuid cfg) (hleft : w.LeavesMarks cfg False) :
    Marks cfg needs (w.created cfg path etype p) := by
  have hallocated := h.allocated hs hlive path
  have hwritten : Marks cfg needs ((w.allocated path).wrote cfg (w.newEntry path).filenameVdir
      (w.newNote cfg path etype p)) := by
    refine hallocated.refiled rfl (fun k' hk' => fileComponent_wrote_of_ne hk' _) ?_ ?_
    · have hread : ReadsMarked cfg
          (cfg.ical.asIcalString (stamp (w.allocated path).now (w.newNote cfg path etype p)))
          False :=
        readsMarked_of_printable hL (printable_newNote path etype p)
          (fun _ hps => once_createdNote path etype p hps) False.elim
      exact fun _ _ hc hps => hallocated.once_wrote hleft hread hc hps
    · intro n e hn he hk
      -- No node had the file of the new note before.
      rw [allocated_entry fun heq => hs.not_live_nextId (heq ▸ hlive n hn)] at he
      have hindex := (hs.index _ n).2 ⟨e, he, hk⟩
      have hnone : w.store.entriesVdir.get (w.newEntry path).filenameVdir = none :=
        hfresh.not_indexed
      exact absurd (hnone.symm.trans hindex) (Option.some_ne_none n).symm
  refine hwritten.congr rfl fun n hn => ?_
  rw [created_store hs, place_filenameVdir]
  rfl

theorem Created.marks (hL : cfg.ical.Lawful) (h : w.store.Sound)
    (hm : Marks cfg w.store.IsParent w) {path : CStr} {etype : EntryType}
    (hfresh : w.FreshUuid cfg) (hleft : w.LeavesMarks cfg False)
    (hc : Created cfg w path etype status w') : MarksParents cfg w w' := by
  have allocated : MarksParents cfg w (w.allocated path) :=
    (hm.allocated h.toInv (fun n hn => hn.live) path).mono fun n hn =>
      hn.elim id fun hn => (isParent_create h.toInv).1 hn
  cases hc with
  | rejected => exact .same hm rfl rfl
  | noParent => exact allocated
  | notDirectory => exact allocated
  | @created _ p _ _ hp hd =>
    have hplive := h.live_of_lookup hp
    -- The note is created in a directory, so one that is marked or has children.
    have hw := hm.insert h.toInv (Q := (· = p)) fun n hn => by
      rw [hn]
      exact ⟨hplive, hd⟩
    have hlive : ∀ n, w.store.IsParent n ∨ n = p ∧ n ≠ w.store.fuseRoot → w.store.Live n :=
      fun n hn => hn.elim (·.live) fun hn => hn.1 ▸ hplive
    have hcreated : Marks cfg _ (w.created cfg path etype p) :=
      hw.created hL h.toInv hlive hfresh hleft
    refine hcreated.mono fun n hn => hn.elim .inl fun hn => ?_
    rw [created_store h.toInv] at hn
    rcases isParent_place (h.toInv.create hfresh.not_indexed) ((create_live ..).2 (.inr hplive))
      ((create_live ..).2 (.inl rfl)) hn with hn | hn
    · exact .inl ((isParent_create h.toInv).1 hn)
    · exact .inr hn

/-- What an edit of a note writes to its file is read with the marks the note needs. -/
def World.WritesMarks (cfg : Config Text) (w : World Text) (o : Op) : Prop :=
  ∀ n f c, w.edit cfg o = some (n, f) → w.component cfg n = some c →
    ReadsMarked cfg (cfg.ical.asIcalString (stamp w.now (f c))) (w.store.IsParent n)

/-- An edit of a note keeps its file a directory. -/
theorem Edited.marks (hL : cfg.ical.Lawful) (h : w.store.Sound)
    (hm : Marks cfg w.store.IsParent w) (hkey : o.SetsPrintable ∨ w.WritesMarks cfg o)
    (hleft : ∀ n f, w.edit cfg o = some (n, f) → w.LeavesMarks cfg (w.store.IsParent n))
    (hc : Edited cfg w o status w') : MarksParents cfg w w' := by
  cases hc with
  | rejected => exact .same hm rfl rfl
  | noComponent => exact .same hm rfl rfl
  | notOpened => exact .same hm rfl rfl
  | @written n f e c hf he hc =>
    have hwrote : Marks cfg w.store.IsParent (w.wrote cfg e.filenameVdir (f c)) := by
      rcases hkey with hkey | hwrites
      · have hkeeps := keepsMark_noteEdit (noteEdit_of_edit hf) hkey
        have hfile : w.fileComponent cfg e.filenameVdir = some c := by
          rw [← component_of_entry he, hc]
        have hdir : w.store.IsParent n → isDirectoryComponent cfg.ical c = true := fun hn => by
          obtain ⟨c', hc', hd⟩ := hm.marked n hn
          rw [Option.some.inj (hc.symm.trans hc')]
          exact hd
        exact hm.wrote hL h.toInv he hkeeps (parsed_of_fileComponent hL hfile)
          (fun ps hps => hm.once _ c ps hfile hps) hdir (hleft n f hf)
      · exact hm.wroteText h.toInv he (hwrites n f c hf hc) (hleft n f hf)
    exact hwrote.mono fun n hn => hn.elim id id

/-- A note that is removed is none of those that have to be directories. -/
theorem Marks.removed (h : Marks cfg needs w) (hs : w.store.Inv) (he : w.store.entry n = some e)
    (hn : ¬ needs n) : Marks cfg needs (w.removed cfg n e.filenameVdir) where
  once k c ps hc := by
    refine h.once k c ps ?_
    unfold World.fileComponent at hc ⊢
    by_cases hk : appendPath cfg.vdir k = appendPath cfg.vdir e.filenameVdir
    · have hgone : (w.removed cfg n e.filenameVdir).files (appendPath cfg.vdir k) = none :=
        if_pos hk
      rw [hgone] at hc
      cases hc
    · have hsame : (w.removed cfg n e.filenameVdir).files (appendPath cfg.vdir k) =
          w.files (appendPath cfg.vdir k) := if_neg hk
      rw [← hsame]
      exact hc
  marked m hm := by
    obtain ⟨c, hc, hd⟩ := h.marked m hm
    refine ⟨c, ?_, hd⟩
    rw [component_removed hs he fun heq => hn (heq ▸ hm)]
    exact hc

theorem Removed.marks (h : w.store.Sound) (hm : Marks cfg w.store.IsParent w) {path : CStr}
    (hc : Removed cfg w path status w') : MarksParents cfg w w' := by
  cases hc with
  | rejected => exact .same hm rfl rfl
  | failed => exact .same hm rfl rfl
  | removed _ he hchildren =>
    have hremoved := hm.removed h.toInv he fun hn => hn.2 hchildren
    exact hremoved.mono fun n hn => hn.elim id fun hn => isParent_delete h.toInv hchildren hn

/-! ## Renames -/

theorem keepsMark_titledNote (x : CStr) : KeepsMark (w.titledNote cfg x) :=
  (keepsMark_stamp w.now).comp (keepsMark_updatedSummary x)

theorem keepsMark_renamedNote (n : NodeId) (k x : CStr) : KeepsMark (w.renamedNote cfg n k x) where
  flags := keeps_renamedNote (onlyKind_isXProp _) (by decide) extension_ne_flag n k x
  child := keeps_renamedNote (onlyKind_hasReltype _) (by decide) extension_ne_child n k x
  printable := printable_renamedNote n k x

theorem keepsMark_movedNote (n : NodeId) (k x : CStr) (p q : NodeId) :
    KeepsMark (w.movedNote cfg n k x · p q) :=
  (keepsMark_related (w.component cfg q) (w.component cfg p)).comp (keepsMark_renamedNote n k x)

/-- The writes of a rename are those of edits, whatever the tree is meanwhile. -/
theorem renamed_with_store (s : Store) (c : NodeId) (k x : CStr) (ics : Icalcomponent) :
    { w.renamed cfg c k x ics with store := s } =
      (World.wrote cfg { w with store := s } k (updatedSummary cfg x ics)).extended cfg k x
        (w.titledNote cfg x ics) := by
  unfold World.renamed World.extended World.titled
  cases getFileExtension x with
  | none => rfl
  | some ext => rfl

/-- A rename keeps the files of directories, that of the note it moves too. -/
theorem Marks.moved (hL : cfg.ical.Lawful) (h : Marks cfg needs w) (hs : w.store.Inv)
    {ics : Icalcomponent} (hp : w.store.Live p) (he : w.store.entry c = some e)
    (hics : w.component cfg c = some ics) (hleft : w.LeavesMarks cfg (needs c)) (x : CStr)
    (q : NodeId) : Marks cfg needs (w.moved cfg c e.filenameVdir x ics p q) := by
  have hplive : w.store.Live (w.newParent cfg p) := live_newParent hs hp
  have hplaced : Marks cfg needs { w with store := w.store.place (w.newParent cfg p) c x } :=
    h.congr rfl fun n _ => place_filenameVdir ..
  have hinv : (w.store.place (w.newParent cfg p) c x).Inv := hs.place hplive he
  have hentry : (w.store.place (w.newParent cfg p) c x).entry c =
      some { e with filename := x } := by
    rw [place_entry, if_pos rfl, he]
    rfl
  have hfile : w.fileComponent cfg e.filenameVdir = some ics := by
    rw [← component_of_entry he, hics]
  have hparsed := parsed_of_fileComponent hL hfile
  have honce : ∀ ps, directoryFlags ics = some ps → ps.length ≤ 1 := fun ps hps =>
    h.once _ ics ps hfile hps
  have hdir : needs c → isDirectoryComponent cfg.ical ics = true := fun hn => by
    obtain ⟨ics', hics', hd⟩ := h.marked c hn
    rw [Option.some.inj (hics.symm.trans hics')]
    exact hd
  -- Each of the writes edits the component that has been read at the start.
  have write : ∀ {v : World Text} {f : Icalcomponent → Icalcomponent},
      v.store = w.store.place (w.newParent cfg p) c x → Marks cfg needs v →
      v.LeavesMarks cfg (needs c) → KeepsMark f →
        Marks cfg needs (v.wrote cfg e.filenameVdir (f ics)) := by
    intro v f hstore hv hv' hf
    refine hv.wrote (e := { e with filename := x }) hL (by rw [hstore]; exact hinv) (n := c) ?_ hf
      hparsed honce hdir hv'
    rw [hstore]
    exact hentry
  have htitled := write (f := updatedSummary cfg x) rfl hplaced hleft (keepsMark_updatedSummary x)
  have hleftTitled : (w.titled cfg c e.filenameVdir x ics).LeavesMarks cfg (needs c) :=
    hleft.of_subset (List.tail_subset _)
  have hextended : Marks cfg needs { w.renamed cfg c e.filenameVdir x ics with
      store := w.store.place (w.newParent cfg p) c x } ∧
        (w.renamed cfg c e.filenameVdir x ics).LeavesMarks cfg (needs c) := by
    rw [renamed_with_store]
    unfold World.renamed World.extended
    cases getFileExtension x with
    | none => exact ⟨htitled, hleftTitled⟩
    | some ext =>
      have hextension : KeepsMark fun ics =>
          icalcomponentSetFileExtension (w.titledNote cfg x ics) ext :=
        (keepsMark_setFileExtension ext).comp (keepsMark_titledNote x)
      have hwrite := write rfl htitled hleftTitled hextension
      exact ⟨hwrite, hleftTitled.of_subset (List.tail_subset _)⟩
  unfold World.moved
  simp only
  split
  · have hmoved : KeepsMark (w.movedNote cfg c e.filenameVdir x · p q) :=
      keepsMark_movedNote c e.filenameVdir x p q
    have hwrite := write rfl hextended.1 hextended.2 hmoved
    exact hwrite
  · exact hextended.1

/-- A note is moved into a directory on disk, which is another note. -/
theorem AgendaRenamed.marks (hL : cfg.ical.Lawful) (h : w.store.Sound) (hm : Marks cfg needs w)
    {old new : CStr} (hbelow : ¬ splitPath old <+: splitPath new)
    (hparents : ∀ n, w.store.IsParent n → needs n)
    (htarget : ∀ p, (getParentPath new).bind w.store.lookup = some p → p ≠ w.store.fuseRoot →
      needs p)
    (hleft : ∀ m, w.move cfg old new = some m →
      (getParentPath new).bind w.store.lookup ≠ some m.node → w.LeavesMarks cfg (needs m.node))
    (hc : AgendaRenamed cfg w old new status w') :
    Marks cfg (fun n => needs n ∨ w'.store.IsParent n) w' := by
  cases hc with
  | noParent => exact hm.mono fun n hn => hn.elim id (hparents n)
  | @moved newParentPath p c q e ics hnew hp hc he hics hq =>
    have hplive := h.live_of_lookup hp
    have hlookup : (getParentPath new).bind w.store.lookup = some p := by
      rw [hnew, Option.bind_some, hp]
    have hnot : ¬ w.store.links.Below c (w.newParent cfg p) :=
      not_below_newParent h hbelow hnew hp hc hq
    -- Below the root nothing has to be marked; any other parent has a component.
    have hparent : w.newParent cfg p = p ∨ w.newParent cfg p = w.store.fuseRoot := by
      unfold World.newParent
      split
      · exact .inl rfl
      · exact .inr rfl
    have hother : (getParentPath new).bind w.store.lookup ≠ some c := by
      intro hself
      have hpc : p = c := Option.some.inj (hlookup.symm.trans hself)
      have hroot : p ≠ w.store.fuseRoot := by
        rw [hpc]
        exact h.ne_root he
      obtain ⟨pic, hpic, _⟩ := hm.marked p (htarget p hlookup hroot)
      have hnewParent : w.newParent cfg p = p := if_pos (by rw [hpic]; rfl)
      rw [hnewParent, hpc] at hnot
      exact hnot .refl
    have hleft := hleft ⟨c, e.filenameVdir, ics, q, p⟩
      (move_eq_some.2 ⟨⟨_, hnew, hp⟩, hc, ⟨_, he, rfl⟩, hics, hq⟩) hother
    have hmoved := hm.moved hL h.toInv hplive he hics hleft (getFilename new) q
    refine hmoved.mono fun n hn => hn.elim id fun hn => ?_
    rw [moved_store] at hn
    rcases isParent_place h.toInv (live_newParent h.toInv hplive) (live_of_entry he) hn with
      hn | ⟨hn, hroot⟩
    · exact hparents n hn
    · rcases hparent with hparent | hparent
      · rw [hn, hparent]
        exact htarget p hlookup (by rw [← hparent, ← hn]; exact hroot)
      · exact absurd (hn.trans hparent) hroot

/-- The node whose file a call writes anew. -/
def World.rewritten (cfg : Config Text) (w : World Text) : Op → Option NodeId
  | .rename old new _ => (w.renames cfg old new).map (·.2.node)
  | o => (w.edit cfg o).map (·.1)

/-- The directory that a rename moves into is one, as the kernel has checked. -/
def World.IntoDirectory (cfg : Config Text) (w : World Text) : Op → Prop
  | .rename _ new _ => ∀ p, (getParentPath new).bind w.store.lookup = some p →
      w.isDirectory cfg p = true
  | _ => True

/-- What is in the way of a rename is no directory on disk that has to stay one. -/
theorem Renamed.marks (hL : cfg.ical.Lawful) (h : w.store.Sound)
    (hm : Marks cfg w.store.IsParent w) {old new : CStr} {flags : Nat}
    (hv : (Op.rename old new flags).Valid cfg w)
    (hinto : w.IntoDirectory cfg (.rename old new flags))
    (hleft : w.LeavesMarks cfg
      (∃ n, w.rewritten cfg (.rename old new flags) = some n ∧ w.store.IsParent n))
    (hc : Renamed cfg w old new status w') : MarksParents cfg w w' := by
  have htarget : ∀ p, (getParentPath new).bind w.store.lookup = some p → w.store.Live p := by
    intro p hp
    obtain ⟨parentPath, _, hp⟩ := Option.bind_eq_some_iff.1 hp
    exact h.live_of_lookup hp
  have hw := hm.insert h.toInv (Q := fun n => (getParentPath new).bind w.store.lookup = some n)
    fun n hn => ⟨htarget n hn, hinto n hn⟩
  have hneeded : ∀ {m : Move} {v : World Text}, w.cleared cfg new = some v →
      v.move cfg old new = some m → v.env.writes = w.env.writes →
      (getParentPath new).bind w.store.lookup ≠ some m.node →
        v.LeavesMarks cfg (w.store.IsParent m.node ∨
          (getParentPath new).bind w.store.lookup = some m.node ∧ m.node ≠ w.store.fuseRoot) := by
    intro m v hv hmove hwrites hother
    have hrewritten : w.rewritten cfg (.rename old new flags) = some m.node := by
      change (w.renames cfg old new).map (·.2.node) = some m.node
      unfold World.renames
      rw [hv, Option.bind_some, hmove]
      rfl
    refine (hleft.of_subset (v := v) (by rw [hwrites]; exact List.Subset.refl _)).mono fun hn => ?_
    exact ⟨m.node, hrewritten, hn.resolve_right fun hn => hother hn.1⟩
  cases hc with
  | notEmpty => exact .same hm rfl rfl
  | removeFailed => exact .same hm rfl rfl
  | fresh hfree hr =>
    have hmoved := hr.marks hL h hw hv.2.1 (fun n hn => .inl hn)
      (fun p hp hroot => .inr ⟨hp, hroot⟩) fun m hmove => hneeded (cleared_of_none hfree) hmove rfl
    exact hmoved.mono fun n hn => hn.elim (fun hn => .inl (.inl hn)) .inr
  | @replaced n e _ _ hn he hchildren hremove hr =>
    have hcleared : w.cleared cfg new = some (w.removed cfg n e.filenameVdir) := by
      rw [cleared_of_entry hn he, if_pos ⟨hchildren, hremove⟩]
    -- The parent of the note that is taken away is found as before, and is another node.
    have hsame : (getParentPath new).bind (w.store.delete n e.filenameVdir).lookup =
          (getParentPath new).bind w.store.lookup ∧
        (getParentPath new).bind w.store.lookup ≠ some n := by
      cases hnew : getParentPath new with
      | none => exact ⟨rfl, fun heq => absurd heq.symm (Option.some_ne_none n)⟩
      | some parentPath =>
        obtain ⟨p, hp, hp', hne⟩ := lookup_parent_removed (k := e.filenameVdir) h.toInv hnew hv.2.2
          hn hchildren
        rw [Option.bind_some, Option.bind_some, hp, hp']
        exact ⟨rfl, fun heq => hne (Option.some.inj heq)⟩
    have hremoved := hw.removed h.toInv he fun hneeds =>
      hneeds.elim (fun hn => hn.2 hchildren) fun hn => hsame.2 hn.1
    have hmoved := hr.marks hL (h.delete he hchildren) hremoved hv.2.1
      (fun m hm => .inl (isParent_delete h.toInv hchildren hm))
      (fun p hp hroot => .inr ⟨hsame.1.symm.trans hp, fun heq =>
        hroot (heq.trans (Inv.delete_fuseRoot ..).symm)⟩)
      fun m hmove hother => hneeded hcleared hmove rfl fun heq => hother (hsame.1.trans heq)
    exact hmoved.mono fun n hn => hn.elim (fun hn => .inl (.inl hn)) .inr

/-! ## Any call -/

/-- What a call needs to keep the directories: a write that fails midway does not cut a mark
    off, and neither does an attribute whose name cannot be printed. -/
structure World.SparesMarks (cfg : Config Text) (w : World Text) (o : Op) : Prop where
  left : w.LeavesMarks cfg (∃ n, w.rewritten cfg o = some n ∧ w.store.IsParent n)
  key : o.SetsPrintable ∨ w.WritesMarks cfg o

theorem rewritten_of_edit {f : Icalcomponent → Icalcomponent} (hf : w.edit cfg o = some (n, f)) :
    w.rewritten cfg o = some n := by
  have hnode : (w.edit cfg o).map (·.1) = some n := by
    rw [hf]
    rfl
  cases o with
  | rename => cases hf
  | _ => exact hnode

theorem Effect.marks (hL : cfg.ical.Lawful) (h : w.store.Sound)
    (hm : Marks cfg w.store.IsParent w) (ho : ∀ event, o ≠ .event event) (hv : o.Valid cfg w)
    (hinto : w.IntoDirectory cfg o) (hspares : w.SparesMarks cfg o)
    (hc : Effect cfg w o status w') : MarksParents cfg w w' := by
  have edited : Edited cfg w o status w' → MarksParents cfg w w' := fun hc =>
    hc.marks hL h hm hspares.key fun n f hf =>
      hspares.left.mono fun hn => ⟨n, rewritten_of_edit hf, hn⟩
  have hleft : w.LeavesMarks cfg False := hspares.left.mono False.elim
  cases o with
  | create filepath => exact Created.marks hL h hm hv hleft hc
  | mkdir filepath => exact Created.marks hL h hm hv hleft hc
  | write path buf size offset => exact edited hc
  | setxattr path attrib value s flags => exact edited hc
  | removexattr path attrib => exact edited hc
  | unlink file => exact Removed.marks h hm hc
  | rmdir filepath => exact Removed.marks h hm hc
  | rename old new flags => exact Renamed.marks hL h hm hv hinto hspares.left hc
  | event event => exact absurd rfl (ho event)

end Agendafs
