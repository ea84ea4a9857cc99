import Agendafs.Spec.NamesCorrect
import Agendafs.Spec.RelationsCorrect
import Agendafs.Spec.Runs
import Agendafs.Spec.WritesCorrect

/-!
# Whether a created note comes back

`create_vjournal_entry` cuts the name at its last dot and stores the two halves;
`parse_ics_to_agenda_entry` joins them again. A half that is empty is lost: an
empty SUMMARY is not written, and an empty extension is stored as the sentinel
for no extension at all. The name of a directory is stored as it is.

## Key results

- `view_createdNote`: what is read of the file of a new note
- `created_comes_back_iff`: when name, kind and parent are read as they were given
-/

namespace Agendafs

open Icalcomponent

variable {Text : Type} {cfg : Config Text} {w w' : World Text}

/-! ## The component of a new note -/

/-- The text that is stored for an extension. -/
def sentinel (ext : CStr) : CStr := if ext = [] then bytes "." else ext

/-- The properties of a new note. -/
def newProperties (etype : EntryType) (id dtstamp name : CStr) : List Icalproperty :=
  match etype with
  | .directory =>
    [{ kind := .uid, value := id }, { kind := .dtstamp, value := dtstamp },
      { kind := .summary, value := name },
      { kind := .classification, value := IcalClass.classPrivate.text },
      { kind := .status, value := IcalStatus.final.text },
      { kind := .x, xName := isDirectoryProperty, value := bytes "YES" }]
  | .file =>
    [{ kind := .uid, value := id },
      { kind := .classification, value := IcalClass.classPrivate.text },
      { kind := .dtstamp, value := dtstamp },
      { kind := .classification, value := IcalClass.classPrivate.text },
      { kind := .status, value := IcalStatus.draft.text },
      { kind := .summary, value := withoutFileExtension name },
      { kind := .x, xName := fileExtensionProperty,
        value := sentinel ((getFileExtension name).getD []) },
      { kind := .description, value := [] }]

theorem newComponent_eq (etype : EntryType) (id dtstamp name : CStr) :
    newComponent etype id dtstamp name =
      newCalendar ⟨.vjournal, newProperties etype id dtstamp name, []⟩ := by
  cases etype with
  | directory => rfl
  | file =>
    unfold newComponent createVjournalEntry newProperties sentinel icalcomponentSetFileExtension
    simp only
    split <;> rfl

theorem newNote_eq (path : CStr) (etype : EntryType) (p : NodeId) :
    w.newNote cfg path etype p =
      related (w.component cfg p) (newComponent etype w.newId w.now (getFilename path)) := by
  unfold World.newNote related
  cases w.component cfg p <;> rfl

/-- The component that a creation writes. -/
def World.createdNote (cfg : Config Text) (w : World Text) (path : CStr) (etype : EntryType)
    (p : NodeId) : Icalcomponent :=
  stamp (w.allocated path).now (w.newNote cfg path etype p)

theorem printable_createdNote (path : CStr) (etype : EntryType) (p : NodeId) :
    (w.createdNote cfg path etype p).printable = true := by
  refine printable_stamp _ _ ?_
  rw [newNote_eq, newComponent_eq]
  refine printable_related _ _ ?_
  cases etype <;> rfl

section Views

variable {q : Icalproperty → Bool} {κ : PropertyKind} (path : CStr) (etype : EntryType)
  (p : NodeId)

theorem keeps_createdNote (h : OnlyKind κ q) (hκ : κ ≠ .lastModified ∧ κ ≠ .description)
    (hq : ∀ uid, q (parentRelation uid) = false) :
    Keeps q fun c => stamp (w.allocated path).now (related (w.component cfg p) c) :=
  (keeps_stamp h hκ _).comp (keeps_related _ hq)

/-- What is read of the file of a new note: the properties it was made with, without
    those that are empty. -/
theorem view_createdNote (h : OnlyKind κ q)
    (hκ : κ ≠ .lastModified ∧ κ ≠ .description ∧ κ ≠ .categories)
    (hq : ∀ uid, q (parentRelation uid) = false) {P : ComponentKind → Bool}
    (hP : P .vjournal = true) :
    (w.createdNote cfg path etype p).reread.view P q =
      some (((newProperties etype w.newId w.now (getFilename path)).filter q).filter
        (·.value ≠ [])) := by
  rw [view_reread (h.ne_categories hκ.2.2), World.createdNote, newNote_eq,
    (keeps_createdNote path p h ⟨hκ.1, hκ.2.1⟩ hq).view, newComponent_eq]
  simp only [view, newCalendar, List.find?_cons, hP, Option.map_some]

theorem createdNote_kind : (w.createdNote cfg path etype p).reread.kind = .vcalendar := by
  rw [reread_kind, World.createdNote, newNote_eq,
    (keeps_createdNote (q := fun _ => false) (κ := .uid) path p nofun ⟨nofun, nofun⟩
      fun _ => rfl).kind, newComponent_eq]
  rfl

theorem isNote_createdNote : IsNote (w.createdNote cfg path etype p).reread := by
  unfold IsNote
  rw [reread_kinds, World.createdNote, newNote_eq,
    (keeps_createdNote (q := fun _ => false) (κ := .uid) path p nofun ⟨nofun, nofun⟩
      fun _ => rfl).kinds, newComponent_eq]
  rfl

end Views

/-! ## What is read of it -/

/-- The name of a new note is restored from its two halves. -/
def Restorable (cfg : Config Text) (name : CStr) : Prop :=
  withoutFileExtension name ≠ [] ∧
    ∀ ext, getFileExtension name = some ext → ext ≠ [] ∧ cfg.ical.valueAsString ext = ext

section Read

variable (path : CStr) (etype : EntryType) (p : NodeId)

theorem isDirectory_createdNote (hL : cfg.ical.Lawful) :
    isDirectoryComponent cfg.ical (w.createdNote cfg path etype p).reread =
      decide (etype = .directory) := by
  have hyes : cfg.ical.valueAsString (bytes "YES") = bytes "YES" :=
    hL.valueAsString_plain _ (by decide)
  have hchild : (newProperties etype w.newId w.now (getFilename path)).filter
      (hasReltype (bytes "CHILD")) = [] := by cases etype <;> rfl
  rw [isDirectoryComponent_eq, icalcomponentGetUniqXValue_eq,
    view_createdNote path etype p (onlyKind_hasReltype _) (by decide) (fun _ => rfl) rfl,
    view_createdNote path etype p (onlyKind_isXProp _) (by decide) (fun _ => rfl) rfl, hchild]
  cases etype with
  | directory =>
    have hx : ((newProperties .directory w.newId w.now (getFilename path)).filter
        (isXProp isDirectoryProperty)).filter (·.value ≠ []) =
          [{ kind := .x, xName := isDirectoryProperty, value := bytes "YES" }] := rfl
    rw [hx]
    simp [hyes]
  | file =>
    have hx : (newProperties .file w.newId w.now (getFilename path)).filter
        (isXProp isDirectoryProperty) = [] := rfl
    rw [hx]
    simp

theorem getSummary_createdNote (hname : getFilename path ≠ []) :
    (w.createdNote cfg path etype p).reread.getSummary =
      match etype with
      | .directory => some (getFilename path)
      | .file => if withoutFileExtension (getFilename path) = [] then none
        else some (withoutFileExtension (getFilename path)) := by
  have hsummary : ∀ v, (newProperties etype w.newId w.now (getFilename path)).filter
      (·.kind = .summary) = [{ kind := .summary, value := v }] →
      (w.createdNote cfg path etype p).reread.getSummary = if v = [] then none else some v := by
    intro v hv
    unfold getSummary
    rw [getText_eq, Icalcomponent.inner, if_pos (createdNote_kind path etype p),
      view_createdNote path etype p (onlyKind_kind _) (by decide) (fun _ => rfl) rfl, hv]
    by_cases h : v = []
    · simp [h]
    · simp [h]
  cases etype with
  -- The title of a directory is its name, which is not empty; that of a file may be.
  | directory => exact (hsummary _ rfl).trans (if_neg hname)
  | file => exact hsummary _ rfl

theorem sentinel_ne_nil (ext : CStr) : sentinel ext ≠ [] := by
  unfold sentinel
  split
  · decide
  · assumption

theorem storedExtension_createdNote :
    storedExtension cfg (w.createdNote cfg path .file p).reread =
      some (cfg.ical.valueAsString (sentinel ((getFileExtension (getFilename path)).getD []))) := by
  have hx : (newProperties .file w.newId w.now (getFilename path)).filter
      (isXProp fileExtensionProperty) =
        [⟨.x, fileExtensionProperty, none, sentinel ((getFileExtension (getFilename path)).getD [])⟩] :=
    rfl
  unfold storedExtension
  rw [icalcomponentGetUniqXValue_eq,
    view_createdNote path .file p (onlyKind_isXProp _) (by decide) (fun _ => rfl) rfl, hx]
  simp [sentinel_ne_nil]

/-- The file of a new note names the directory it is in. -/
theorem getParentUid_createdNote
    (hparsed : ∀ pic, w.component cfg p = some pic →
      pic.parsed = true ∧ ∃ uid, pic.getUid = some uid) :
    getParentUid cfg.ical (w.createdNote cfg path etype p).reread =
      (w.uid cfg p).map cfg.ical.valueAsString := by
  have hnew : relations (newComponent etype w.newId w.now (getFilename path)) = some [] := by
    rw [newComponent_eq]
    cases etype <;> rfl
  rw [getParentUid_relations, relations_reread, World.createdNote,
    relations_of_keeps (keeps_relations_stamp _), newNote_eq]
  unfold World.uid
  cases hpic : w.component cfg p with
  | none =>
    rw [related, hnew]
    rfl
  | some pic =>
    -- The new relation is the only one, and its UID is not lost when it is written.
    obtain ⟨hpic, uid, huid⟩ := hparsed pic hpic
    rw [relations_related huid, hnew, Option.bind_some, huid]
    simp [parentRelation, getText_ne_nil hpic huid]

end Read

/-! ## Whether the note comes back -/

/-- The name in the file of a new note is the given one, if it can be restored. -/
theorem entry_createdNote (hL : cfg.ical.Lawful) (path vdirPath : CStr) (etype : EntryType)
    (p : NodeId) (hname : getFilename path ≠ []) :
    agendaEntryOf cfg vdirPath (w.createdNote cfg path etype p).reread =
        some ⟨getFilename path, getFilename vdirPath⟩ ↔
      (etype = .file → Restorable cfg (getFilename path)) := by
  rw [agendaEntryOf_eq, if_pos (isNote_createdNote path etype p),
    getSummary_createdNote path etype p hname]
  cases etype with
  -- The name of a directory is its summary.
  | directory =>
    simp only [Option.map_some, shownFilename_eq, isDirectory_createdNote path .directory p hL]
    exact iff_of_true rfl nofun
  | file =>
    have hshown : ∀ summary, shownFilename cfg (w.createdNote cfg path .file p).reread summary =
        join summary (unsentinel (cfg.ical.valueAsString
          (sentinel ((getFileExtension (getFilename path)).getD [])))) := fun summary => by
      rw [shownFilename_eq, isDirectory_createdNote path .file p hL, storedExtension_createdNote]
      rfl
    simp only [forall_const]
    rcases name_cases (getFilename path) with hdot | ⟨base, ext, heq, hdot⟩
    · -- Without a dot the name is stored whole.
      obtain ⟨hext, hbase⟩ := extension_of_not_mem hdot
      have hsentinel : cfg.ical.valueAsString (bytes ".") = bytes "." :=
        hL.valueAsString_plain _ (by decide)
      rw [hbase, if_neg hname, Option.map_some, hshown, hext]
      refine iff_of_true ?_ ⟨by rw [hbase]; exact hname, fun ext h => nomatch hext.symm.trans h⟩
      rw [Option.getD_none, sentinel, if_pos rfl, hsentinel, join_unsentinel_self.2 (.inr rfl)]
    · -- With a dot, base and extension are stored on their own, unless they are empty.
      have hslash : slash ∉ ext := fun hm => slash_not_mem_getFilename path
        (heq ▸ List.mem_append_right _ (List.mem_cons_of_mem _ hm))
      obtain ⟨hext, hbase⟩ := extension_of_append base hdot hslash
      rw [← heq] at hext hbase
      unfold Restorable
      rw [hbase, hext]
      by_cases hnil : base = []
      · rw [if_pos hnil]
        exact iff_of_false nofun fun h => h.1 hnil
      · rw [if_neg hnil, Option.map_some, hshown, hext, heq]
        simp only [Option.some.injEq, AgendaEntry.mk.injEq, and_true, Option.getD_some,
          forall_eq']
        rw [join_eq_iff hdot]
        unfold sentinel
        constructor
        · rintro ⟨hne, hv⟩
          rw [if_neg hne] at hv
          exact ⟨hnil, hne, hv⟩
        · rintro ⟨_, hne, hv⟩
          rw [if_neg hne]
          exact ⟨hne, hv⟩

/-- The call that creates an entry. -/
def EntryType.op (path : CStr) : EntryType → Op
  | .file => .create path
  | .directory => .mkdir path

/-- The stored file is read as a note with the given name, kind and parent. -/
structure ComesBack (cfg : Config Text) (w' : World Text) (entry : AgendaEntry)
    (etype : EntryType) (parentUid : Option CStr) : Prop where
  name : w'.loadable cfg entry.filenameVdir = some entry
  kind : (w'.fileComponent cfg entry.filenameVdir).map (isDirectoryComponent cfg.ical) =
    some (decide (etype = .directory))
  parent : w'.parentUid cfg entry.filenameVdir = parentUid

/-- A new entry comes back as it was exactly when the UID of its directory is printed as
    it is and, for a file, its name can be restored from its halves. -/
theorem created_comes_back_iff (hL : cfg.ical.Lawful) (h : Reachable cfg w)
    (hnamed : w.WellNamed cfg) {path : CStr} {etype : EntryType}
    (hv : (etype.op path).Valid cfg w) (hname : getFilename path ≠ [])
    (hrun : exec cfg (etype.op path) w = .ok (0, w'))
    (hwritten : ∀ x ∈ w.madeWrites w', x = .written) :
    ∃ p, w.createParent cfg path = some p ∧
      (ComesBack cfg w' (w.newEntry path) etype (w.uid cfg p) ↔
        (∀ uid, w.uid cfg p = some uid → cfg.ical.valueAsString uid = uid) ∧
        (etype = .file → Restorable cfg (getFilename path))) := by
  have hfresh : w.FreshUuid cfg := by cases etype <;> exact hv
  have hc : Created cfg w path etype 0 w' := by
    cases etype <;> exact exec_effect (Run.sound h) hv hrun
  rcases hc.cases with ⟨p, hp, _, rfl⟩ | ⟨_, hs, _⟩
  · refine ⟨p, hp, ?_⟩
    -- A creation makes one write, the next one.
    have ho : w.outcome = .written := by
      rw [madeWrites_eq created_writes] at hwritten
      exact ((allWritten_succ cfg (n := 0) [] (w.newNote cfg path etype p)).1 hwritten).1
    have hfile : (w.created cfg path etype p).fileComponent cfg (w.newEntry path).filenameVdir =
        some (w.createdNote cfg path etype p).reread :=
      (created_content ho).fileComponent hL (printable_createdNote path etype p)
    have hparsed : ∀ pic, w.component cfg p = some pic →
        pic.parsed = true ∧ ∃ uid, pic.getUid = some uid := fun pic => hnamed.component hL
    have hloadable : (w.created cfg path etype p).loadable cfg (w.newEntry path).filenameVdir =
        some (w.newEntry path) ↔ (etype = .file → Restorable cfg (getFilename path)) := by
      unfold World.loadable
      rw [hfile, Option.bind_some, ← entry_createdNote hL path _ etype p hname,
        getFilename_appendPath _ (hfresh.flat_newEntry path)]
      rfl
    have hparent : (w.created cfg path etype p).parentUid cfg (w.newEntry path).filenameVdir =
        (w.uid cfg p).map cfg.ical.valueAsString := by
      unfold World.parentUid
      rw [hfile, Option.bind_some, getParentUid_createdNote path etype p hparsed]
    have huid : (w.uid cfg p).map cfg.ical.valueAsString = w.uid cfg p ↔
        ∀ uid, w.uid cfg p = some uid → cfg.ical.valueAsString uid = uid := by
      cases w.uid cfg p with
      | none => simp
      | some uid => simp
    -- The kind always comes back, so what is left are the name and the parent.
    rw [← hloadable, ← huid]
    constructor
    · rintro ⟨hname, _, hp⟩
      exact ⟨hparent.symm.trans hp, hname⟩
    · rintro ⟨hp, hname⟩
      refine ⟨hname, ?_, hparent.trans hp⟩
      rw [hfile, Option.map_some, isDirectory_createdNote path etype p hL]
  · exact absurd hs (Int.lt_irrefl 0)

/-! ## A name that ends in a dot -/

theorem wellNamed_emptyMount : emptyMount.WellNamed sampleConfig :=
  wellNamed_of_check (Run.sound reachable_emptyMount) (by decide +kernel)

theorem emptyMount_createDot_run : exec sampleConfig (.create (bytes "/foo.")) emptyMount =
    .ok (0, (exec sampleConfig (.create (bytes "/foo."))).final emptyMount) :=
  exec_sample (by decide +kernel)

theorem emptyMount_createDot_written : ∀ x ∈ emptyMount.madeWrites
    ((exec sampleConfig (.create (bytes "/foo."))).final emptyMount), x = .written :=
  fun _ hx => absurd (List.mem_of_mem_take hx) List.not_mem_nil

theorem created_comes_back_iff_createDot :
    ∃ p, emptyMount.createParent sampleConfig (bytes "/foo.") = some p ∧
      (ComesBack sampleConfig ((exec sampleConfig (.create (bytes "/foo."))).final emptyMount)
          (emptyMount.newEntry (bytes "/foo.")) .file (emptyMount.uid sampleConfig p) ↔
        (∀ uid, emptyMount.uid sampleConfig p = some uid →
          sampleConfig.ical.valueAsString uid = uid) ∧
        (EntryType.file = .file → Restorable sampleConfig (bytes "foo."))) :=
  have valid : (EntryType.file.op (bytes "/foo.")).Valid sampleConfig emptyMount :=
    valid_emptyMount _
  created_comes_back_iff structuralIcal_lawful reachable_emptyMount wellNamed_emptyMount valid
    (by decide) emptyMount_createDot_run emptyMount_createDot_written

/-- So a created file need not come back: this one loses its last dot. -/
theorem not_all_created_come_back :
    ¬ ∀ (w w' : World Icalcomponent) (path : CStr), Reachable sampleConfig w →
      w.WellNamed sampleConfig → (Op.create path).Valid sampleConfig w → getFilename path ≠ [] →
      getFilename path ≠ bytes "." → getFilename path ≠ bytes ".." →
      exec sampleConfig (.create path) w = .ok (0, w') → (∀ x ∈ w.madeWrites w', x = .written) →
        w'.loadable sampleConfig (w.newEntry path).filenameVdir = some (w.newEntry path) := by
  intro hall
  have hentry := hall _ _ (bytes "/foo.") reachable_emptyMount wellNamed_emptyMount
    (valid_emptyMount _) (by decide) (by decide) (by decide) emptyMount_createDot_run
    emptyMount_createDot_written
  have hname : (((exec sampleConfig (.create (bytes "/foo."))).final emptyMount).loadable
      sampleConfig (bytes "u-caldavfs.ics")).map (·.filename) = some (bytes "foo") := by
    decide +kernel
  have hother := congrArg (Option.map (·.filename)) hentry
  exact absurd (hname.symm.trans hother) (by decide)

end Agendafs
