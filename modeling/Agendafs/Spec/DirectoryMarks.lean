import Agendafs.Spec.Categories
import Agendafs.Spec.RenamedNotes
import Agendafs.Spec.UpsertCorrect

/-!
# The mark of a directory

A file is a directory by its first flag or by its relation to a child. The edits
of notes leave both alone, so a file that is rewritten stays what it was, unless
the write fails midway. `Marks` says that some of the nodes are directories on
disk; the single writes and changes of the tree keep it.

## Key results

- `KeepsMark.restamped`: a file that is edited and written is a directory as before
- `Marks.wroteText`, `Marks.wrote`: a write keeps the marks
- `Marks.marked_parent`: marking a parent adds its own
-/

namespace Agendafs

open Icalcomponent Store

variable {Text : Type} {cfg : Config Text} {w v : World Text} {c : Icalcomponent} {o : Op}
  {f g : Icalcomponent → Icalcomponent}

/-! ## Edits -/

/-- The edit touches neither the flags of a directory nor its relations to children. -/
structure KeepsMark (f : Icalcomponent → Icalcomponent) : Prop where
  flags : Keeps (isXProp isDirectoryProperty) f
  child : Keeps (hasReltype (bytes "CHILD")) f
  printable : Printable f

theorem KeepsMark.comp (hg : KeepsMark g) (hf : KeepsMark f) : KeepsMark (g ∘ f) where
  flags := hg.flags.comp hf.flags
  child := hg.child.comp hf.child
  printable := hg.printable.comp hf.printable

/-- The X properties of another name are not the flags. -/
theorem extension_ne_flag (p : Icalproperty) (hp : isXProp fileExtensionProperty p = true) :
    isXProp isDirectoryProperty p = false := by
  have hne : fileExtensionProperty ≠ isDirectoryProperty := by decide
  unfold isXProp at hp ⊢
  have hname := (of_decide_eq_true hp).2
  exact decide_eq_false fun h => hne (hname.symm.trans h.2)

theorem extension_ne_child (p : Icalproperty) (hp : isXProp fileExtensionProperty p = true) :
    hasReltype (bytes "CHILD") p = false :=
  (onlyKind_hasReltype _).eq_false (by rw [onlyKind_isXProp _ p hp]; decide)

theorem keepsMark_stamp (now : CStr) : KeepsMark (stamp now) where
  flags := keeps_stamp (onlyKind_isXProp _) (by decide) now
  child := keeps_stamp (onlyKind_hasReltype _) (by decide) now
  printable := printable_stamp now

theorem keepsMark_updatedSummary (name : CStr) : KeepsMark (updatedSummary cfg name) where
  flags := keeps_updatedSummary (onlyKind_isXProp _) (by decide) name
  child := keeps_updatedSummary (onlyKind_hasReltype _) (by decide) name
  printable := printable_updatedSummary name

theorem keepsMark_setFileExtension (ext : CStr) :
    KeepsMark (icalcomponentSetFileExtension · ext) where
  flags := keeps_setFileExtension extension_ne_flag ext
  child := keeps_setFileExtension extension_ne_child ext
  printable := printable_setFileExtension ext

/-- Moving a note takes out and adds relations to parents. -/
theorem keepsMark_related (oldParentIcs newParentIcs : Option Icalcomponent) :
    KeepsMark fun c => related newParentIcs (unrelated oldParentIcs c) where
  flags :=
    have hrelation := onlyKind_ne_relation (onlyKind_isXProp isDirectoryProperty) (by decide)
    (keeps_related newParentIcs hrelation.2).comp (keeps_unrelated oldParentIcs hrelation.1)
  child := by
    refine (keeps_related newParentIcs fun uid => ?_).comp
      (keeps_unrelated oldParentIcs fun uid p hp => not_isParentRelation_of_child hp)
    simp only [hasReltype]
    decide
  printable := (printable_related newParentIcs).comp (printable_unrelated oldParentIcs)

/-- A custom attribute is kept under a name that can be printed. -/
def PrintableKey (key : CStr) : Prop :=
  Icalproperty.printable { kind := .x, xName := customPropertyPrefix ++ key, value := [] } = true

theorem printable_setxattrEdit {attrib : CStr} {value : List UInt8} {s : Nat}
    (hf : setxattrEdit cfg attrib value s = some f)
    (hkey : attrib ∉ ownKindXattrs → PrintableKey (attrib.drop 5)) : Printable f := by
  unfold setxattrEdit at hf
  split at hf
  · cases hf
  split at hf
  · cases hf
  split at hf
  · split at hf
    · cases hf
      exact Preserves.removeFirst _
    · obtain ⟨time, _, rfl⟩ := Option.map_eq_some_iff.1 hf
      exact (printable_setFirstProperty .dtstart time).modifyInner
  rename_i hdtstart
  split at hf
  · cases hf
    exact printable_withCategories value s
  rename_i hcategories
  split at hf
  · split at hf
    · cases hf
    · cases hf
      exact (printable_setExistingProperty .classification _).modifyInner
  rename_i hclass
  split at hf
  · split at hf
    · cases hf
    · cases hf
      exact (printable_setFirstProperty .status _).modifyInner
  rename_i hstatus
  split at hf
  · cases hf
    -- Only the name of a custom attribute reaches the file.
    have hcustom : attrib ∉ ownKindXattrs := by
      simp [ownKindXattrs, hdtstart, hcategories, hclass, hstatus]
    exact printable_setUniqueXValue (hkey hcustom) _
  · cases hf

theorem printable_removexattrEdit {attrib : CStr} (hf : removexattrEdit attrib = some f) :
    Printable f := by
  unfold removexattrEdit at hf
  split at hf
  · cases hf
    exact printable_withCategories [] 0
  split at hf
  · cases hf
    exact (Preserves.removeFirst _).modifyInner
  split at hf
  · cases hf
  split at hf
  · cases hf
    exact Preserves.removeFirst _
  split at hf
  · cases hf
    exact (Preserves.removeFirst _).modifyInnermost
  · cases hf

/-- An attribute that the call sets has a name that can be printed. -/
def Op.SetsPrintable : Op → Prop
  | .setxattr _ attrib _ _ _ => attrib ∉ ownKindXattrs → PrintableKey (attrib.drop 5)
  | _ => True

theorem printable_noteEdit (hf : o.noteEdit cfg = some f) (hkey : o.SetsPrintable) :
    Printable f := by
  cases o with
  | write path buf size offset =>
    cases hf
    exact printable_insertDescription buf size offset
  | setxattr path attrib value s flags => exact printable_setxattrEdit hf hkey
  | removexattr path attrib => exact printable_removexattrEdit hf
  | _ => cases hf

/-- The text of a note, or one of its attributes under a name that can be printed. -/
theorem keepsMark_noteEdit (hf : o.noteEdit cfg = some f) (hkey : o.SetsPrintable) :
    KeepsMark f where
  flags := keeps_xProp hf fun written _ => reserved_ne_custom (by decide) written
  child := keeps_noteEdit hf (onlyKind_hasReltype _) (by decide) fun key _ p hp =>
    (onlyKind_hasReltype _).eq_false (by rw [onlyKind_isXProp _ p hp]; decide)
  printable := printable_noteEdit hf hkey

/-! ## Files -/

/-- The flags that are looked for when a file is read as a directory. -/
def directoryFlags (c : Icalcomponent) : Option (List Icalproperty) :=
  c.view anyKind (isXProp isDirectoryProperty)

theorem getInnermost_flags {ps : List Icalproperty} (h : directoryFlags c = some ps) :
    (icalcomponentGetInnermost c).properties.filter (isXProp isDirectoryProperty) = ps := by
  unfold directoryFlags at h
  rw [view_any] at h
  obtain ⟨a, ha, rfl⟩ := Option.map_eq_some_iff.1 h
  rw [icalcomponentGetInnermost, ha, Option.getD_some]

theorem exists_directoryFlags (hc : c.components ≠ []) : ∃ ps, directoryFlags c = some ps := by
  obtain ⟨a, rest, hcons⟩ := List.exists_cons_of_ne_nil hc
  refine ⟨a.properties.filter (isXProp isDirectoryProperty), ?_⟩
  unfold directoryFlags view
  rw [hcons]
  rfl

/-- A component in which the flag is looked for has it once at most. -/
theorem oneFlag_iff (hc : c.components ≠ []) :
    OneFlag c ↔ ∀ ps, directoryFlags c = some ps → ps.length ≤ 1 := by
  obtain ⟨ps, hps⟩ := exists_directoryFlags hc
  unfold OneFlag
  rw [getInnermost_flags hps]
  constructor
  · intro hone ps' hps'
    rw [← Option.some.inj (hps.symm.trans hps')]
    exact hone
  · intro hall
    exact hall ps hps

theorem OneFlag.flags (h : OneFlag c) {ps : List Icalproperty} (hps : directoryFlags c = some ps) :
    ps.length ≤ 1 := by
  rw [← getInnermost_flags hps]
  exact h

/-- A directory has the component that its flag or relation is in. -/
theorem components_of_isDirectory (h : isDirectoryComponent cfg.ical c = true) :
    c.components ≠ [] := by
  intro hnil
  rw [isDirectoryComponent_eq, icalcomponentGetUniqXValue_eq] at h
  unfold view at h
  rw [hnil] at h
  exact absurd h (by simp)

theorem isDirectory_congr {c' : Icalcomponent} (hflags : directoryFlags c' = directoryFlags c)
    (hchild : c'.view isJournal (hasReltype (bytes "CHILD")) =
      c.view isJournal (hasReltype (bytes "CHILD"))) :
    isDirectoryComponent cfg.ical c' = isDirectoryComponent cfg.ical c := by
  unfold directoryFlags at hflags
  rw [isDirectoryComponent_eq, isDirectoryComponent_eq, icalcomponentGetUniqXValue_eq,
    icalcomponentGetUniqXValue_eq, hflags, hchild]

/-- The flags of a file that is edited and written are those it had. -/
theorem KeepsMark.flags_restamped (hf : KeepsMark f) (hc : c.parsed = true) (now : CStr) :
    directoryFlags (stamp now (f c)).reread = directoryFlags c :=
  hf.flags.view_restamped (onlyKind_isXProp _) (by decide) hc now anyKind

/-- So it is a directory if it was one. -/
theorem KeepsMark.restamped (hf : KeepsMark f) (hc : c.parsed = true) (now : CStr) :
    isDirectoryComponent cfg.ical (stamp now (f c)).reread = isDirectoryComponent cfg.ical c :=
  isDirectory_congr (hf.flags_restamped hc now)
    (hf.child.view_restamped (onlyKind_hasReltype _) (by decide) hc now isJournal)

/-! ## Nodes that are directories on disk -/

/-- The file of the node says that it is a directory. -/
def World.IsMarked (cfg : Config Text) (w : World Text) (n : NodeId) : Prop :=
  ∃ c, w.component cfg n = some c ∧ isDirectoryComponent cfg.ical c = true

/-- Read as a file, the text has the flag that is looked for once at most, and is a directory
    where one is needed. -/
structure ReadsMarked (cfg : Config Text) (content : Text) (needed : Prop) : Prop where
  once : ∀ c ps, cfg.ical.newFromString content = some c → directoryFlags c = some ps →
    ps.length ≤ 1
  directory : needed → ∃ c, cfg.ical.newFromString content = some c ∧
    isDirectoryComponent cfg.ical c = true

/-- So is what writes leave that fail midway. -/
def World.LeavesMarks (cfg : Config Text) (w : World Text) (needed : Prop) : Prop :=
  ∀ left, .writeFailed left ∈ w.env.writes → ReadsMarked cfg left needed

/-- No file has the flag twice, and the nodes in `needs` are directories on disk. -/
structure Marks (cfg : Config Text) (needs : NodeId → Prop) (w : World Text) : Prop where
  once : ∀ k c ps, w.fileComponent cfg k = some c → directoryFlags c = some ps → ps.length ≤ 1
  marked : ∀ n, needs n → w.IsMarked cfg n

variable {needs : NodeId → Prop} {n p : NodeId} {e : AgendaEntry} {k : CStr} {P : Prop}

theorem World.LeavesMarks.mono {Q : Prop} (h : w.LeavesMarks cfg P) (hQ : Q → P) :
    w.LeavesMarks cfg Q := fun left hleft =>
  ⟨(h left hleft).once, fun hq => (h left hleft).directory (hQ hq)⟩

/-- Writes only take outcomes away. -/
theorem World.LeavesMarks.of_subset (h : w.LeavesMarks cfg P)
    (hsub : v.env.writes ⊆ w.env.writes) : v.LeavesMarks cfg P := fun left hleft =>
  h left (hsub hleft)

theorem Marks.mono {needs' : NodeId → Prop} (h : Marks cfg needs w)
    (hsub : ∀ n, needs' n → needs n) : Marks cfg needs' w :=
  ⟨h.once, fun n hn => h.marked n (hsub n hn)⟩

/-- Nodes that keep their files stay directories. -/
theorem Marks.congr (h : Marks cfg needs w) (hfiles : v.files = w.files)
    (hentry : ∀ n, needs n →
      (v.store.entry n).map (·.filenameVdir) = (w.store.entry n).map (·.filenameVdir)) :
    Marks cfg needs v where
  once k c ps hc := by
    refine h.once k c ps ?_
    rw [← hc]
    unfold World.fileComponent
    rw [hfiles]
  marked n hn := by
    obtain ⟨c, hc, hd⟩ := h.marked n hn
    exact ⟨c, (component_congr (hentry n hn) hfiles).trans hc, hd⟩

/-- Another file in one place: it must be a directory if a node that needs it has that file. -/
theorem Marks.refiled (h : Marks cfg needs w) (hstore : v.store = w.store)
    (hother : ∀ k', k' ≠ k → v.fileComponent cfg k' = w.fileComponent cfg k')
    (honce : ∀ c ps, v.fileComponent cfg k = some c → directoryFlags c = some ps → ps.length ≤ 1)
    (hdir : ∀ n e, needs n → w.store.entry n = some e → e.filenameVdir = k →
      ∃ c, v.fileComponent cfg k = some c ∧ isDirectoryComponent cfg.ical c = true) :
    Marks cfg needs v where
  once k' c ps hc hps := by
    by_cases hk : k' = k
    · rw [hk] at hc
      exact honce c ps hc hps
    · rw [hother k' hk] at hc
      exact h.once k' c ps hc hps
  marked n hn := by
    obtain ⟨c, hc, hd⟩ := h.marked n hn
    obtain ⟨e, he⟩ := exists_entry_of_component hc
    have he' : v.store.entry n = some e := by rw [hstore, he]
    rw [component_of_entry he] at hc
    unfold World.IsMarked
    rw [component_of_entry he']
    by_cases hk : e.filenameVdir = k
    · rw [hk]
      exact hdir n e hn he hk
    · rw [hother _ hk]
      exact ⟨c, hc, hd⟩

/-! ## Writes -/

/-- A component that can be printed is read back from what is written of it. -/
theorem readsMarked_of_printable (hL : cfg.ical.Lawful) {ic : Icalcomponent}
    (hic : ic.printable = true) {now : CStr}
    (honce : ∀ ps, directoryFlags (stamp now ic).reread = some ps → ps.length ≤ 1)
    (hdir : P → isDirectoryComponent cfg.ical (stamp now ic).reread = true) :
    ReadsMarked cfg (cfg.ical.asIcalString (stamp now ic)) P := by
  have hread := hL.newFromString_asIcalString _ (printable_stamp now ic hic)
  refine ⟨fun c ps hc hps => ?_, fun hP => ⟨_, hread, hdir hP⟩⟩
  rw [← Option.some.inj (hread.symm.trans hc)] at hps
  exact honce ps hps

/-- After a write a file has what was in it, or a text that keeps the marks. -/
theorem World.LeavesMarks.wrote (hleft : w.LeavesMarks cfg P) {ic : Icalcomponent}
    (hread : ReadsMarked cfg (cfg.ical.asIcalString (stamp w.now ic)) P) (k : CStr) :
    w.outcome = .openFailed ∧
        (w.wrote cfg k ic).fileComponent cfg k = w.fileComponent cfg k ∨
      ∃ content, (w.wrote cfg k ic).fileComponent cfg k = cfg.ical.newFromString content ∧
        ReadsMarked cfg content P := by
  cases ho : w.outcome with
  | openFailed => exact .inl ⟨rfl, fileComponent_openFailed ho k ic⟩
  | written =>
    refine .inr ⟨_, ?_, hread⟩
    simp only [World.fileComponent, World.wrote, ho, writtenFiles, if_true, Option.bind_some]
  | writeFailed left =>
    have hmem := List.mem_of_mem_take (mem_of_outcome ho)
    exact .inr ⟨left, fileComponent_writeFailed ho k ic, hleft left hmem⟩

/-- A write leaves the flag once at most. -/
theorem Marks.once_wrote (h : Marks cfg needs w) (hleft : w.LeavesMarks cfg P)
    {ic : Icalcomponent} (hread : ReadsMarked cfg (cfg.ical.asIcalString (stamp w.now ic)) P)
    {ps : List Icalproperty} (hc : (w.wrote cfg k ic).fileComponent cfg k = some c)
    (hps : directoryFlags c = some ps) : ps.length ≤ 1 := by
  rcases hleft.wrote hread k with ⟨_, hsame⟩ | ⟨content, hcontent, hmarked⟩
  · exact h.once k c ps (hsame.symm.trans hc) hps
  · exact hmarked.once c ps (hcontent.symm.trans hc) hps

/-- A write of a directory leaves one, unless the file cannot be opened. -/
theorem World.LeavesMarks.directory_wrote (hleft : w.LeavesMarks cfg P) {ic : Icalcomponent}
    (hread : ReadsMarked cfg (cfg.ical.asIcalString (stamp w.now ic)) P) (hP : P)
    (hopen : w.outcome = .openFailed →
      ∃ c, w.fileComponent cfg k = some c ∧ isDirectoryComponent cfg.ical c = true) :
    ∃ c, (w.wrote cfg k ic).fileComponent cfg k = some c ∧
      isDirectoryComponent cfg.ical c = true := by
  rcases hleft.wrote hread k with ⟨ho, hsame⟩ | ⟨content, hcontent, hmarked⟩
  · rw [hsame]
    exact hopen ho
  · rw [hcontent]
    exact hmarked.directory hP

/-- Writing to the file of a note, by what is read of it. -/
theorem Marks.wroteText (h : Marks cfg needs w) (hs : w.store.Inv)
    (he : w.store.entry n = some e) {ic : Icalcomponent}
    (hread : ReadsMarked cfg (cfg.ical.asIcalString (stamp w.now ic)) (needs n))
    (hleft : w.LeavesMarks cfg (needs n)) : Marks cfg needs (w.wrote cfg e.filenameVdir ic) := by
  refine h.refiled rfl (fun k' hk' => fileComponent_wrote_of_ne hk' _)
    (fun _ _ hc hps => h.once_wrote hleft hread hc hps) ?_
  intro m e' hm he' hk
  -- The file belongs to the note that is written and to no other.
  have hnm : m = n := by
    have hindex := (hs.index e.filenameVdir m).2 ⟨e', he', hk⟩
    exact Option.some.inj (hindex.symm.trans ((hs.index e.filenameVdir n).2 ⟨e, he, rfl⟩))
  rw [hnm] at hm
  refine hleft.directory_wrote hread hm fun _ => ?_
  obtain ⟨c, hc, hd⟩ := h.marked n hm
  rw [component_of_entry he] at hc
  exact ⟨c, hc, hd⟩

/-- Writing the edit of a component to the file of a note. -/
theorem Marks.wrote (hL : cfg.ical.Lawful) (h : Marks cfg needs w) (hs : w.store.Inv)
    (he : w.store.entry n = some e) (hf : KeepsMark f) (hparsed : c.parsed = true)
    (honce : ∀ ps, directoryFlags c = some ps → ps.length ≤ 1)
    (hdir : needs n → isDirectoryComponent cfg.ical c = true)
    (hleft : w.LeavesMarks cfg (needs n)) :
    Marks cfg needs (w.wrote cfg e.filenameVdir (f c)) := by
  refine h.wroteText hs he (readsMarked_of_printable hL ?_ (fun ps hps => ?_) fun hn => ?_) hleft
  · exact hf.printable c (printable_of_parsed hparsed)
  · rw [hf.flags_restamped hparsed] at hps
    exact honce ps hps
  · rw [hf.restamped hparsed]
    exact hdir hn

/-- A parent without mark that has been marked: its file needs a component for the flag. -/
theorem Marks.markedFile (hL : cfg.ical.Lawful) (h : Marks cfg needs w)
    (hfile : w.markedFile cfg p = some k) (hopen : w.outcome ≠ .openFailed)
    (hinside : ∀ c, w.fileComponent cfg k = some c → c.components ≠ [])
    (hleft : w.LeavesMarks cfg True) :
    Marks cfg (fun n => needs n ∨ n = p) (w.marked cfg p) := by
  obtain ⟨e, c, he, hk, hc, _, hwrote⟩ := marked_of_markedFile hfile
  have hparsed := parsed_of_fileComponent hL hc
  have hinner := hinside c hc
  obtain ⟨flags, hflags⟩ := exists_directoryFlags hinner
  have hlength := h.once k c flags hc hflags
  have hread : ReadsMarked cfg (cfg.ical.asIcalString (stamp w.now (icalcomponentMarkAsDirectory c)))
      True := by
    refine readsMarked_of_printable hL (printable_markAsDirectory c (printable_of_parsed hparsed))
      (fun ps hps => ?_) fun _ => ?_
    · -- The flag that was there makes way for the new one.
      have hmarked : directoryFlags (stamp w.now (icalcomponentMarkAsDirectory c)).reread = _ :=
        flags_marked hparsed (fun hnil => hinner (components_eq_nil_iff.2 hnil)) w.now
      unfold directoryFlags at hflags
      rw [hmarked, hflags, Option.map_some, Option.some.injEq] at hps
      rw [← hps, List.length_append, List.length_tail, List.length_singleton]
      omega
    · have hone := (oneFlag_iff hinner).2 fun ps hps => h.once k c ps hc hps
      exact isDirectoryComponent_marked hL hparsed hone hinner w.now
  have hdir : ∃ c', (w.marked cfg p).fileComponent cfg k = some c' ∧
      isDirectoryComponent cfg.ical c' = true := by
    rw [hwrote]
    exact hleft.directory_wrote hread trivial fun ho => absurd ho hopen
  have hneeds : Marks cfg needs (w.marked cfg p) := by
    refine h.refiled (marked_store p) (fun k' hk' => ?_) (fun c' ps hc' hps => ?_)
      fun _ _ _ _ _ => hdir
    · rw [hwrote]
      exact fileComponent_wrote_of_ne hk' _
    · rw [hwrote] at hc'
      exact h.once_wrote hleft hread hc' hps
  refine ⟨hneeds.once, fun n hn => ?_⟩
  rcases hn with hn | rfl
  · exact hneeds.marked n hn
  · obtain ⟨c', hc', hd'⟩ := hdir
    refine ⟨c', ?_, hd'⟩
    rw [component_of_entry (e := e) (by rw [marked_store, he]), hk]
    exact hc'

/-- Marking a node as a parent makes it a directory on disk, if it was none. -/
theorem Marks.marked_parent (hL : cfg.ical.Lawful) (h : Marks cfg needs w)
    (hmarkable : w.Markable cfg p)
    (hinside : ∀ k c, w.markedFile cfg p = some k → w.fileComponent cfg k = some c →
      c.components ≠ [])
    (hleft : w.LeavesMarks cfg True) :
    Marks cfg (fun n => needs n ∨ n = p) (w.marked cfg p) := by
  obtain ⟨pic, hpic, hwritable⟩ := hmarkable
  obtain ⟨e, he⟩ := exists_entry_of_component hpic
  unfold World.markedFile at hinside
  rw [he, hpic] at hinside
  by_cases hd : isDirectoryComponent cfg.ical pic = true
  · have hnone : w.markedFile cfg p = none := by
      unfold World.markedFile
      rw [he, hpic]
      exact if_pos hd
    rw [marked_of_markedFile_none hnone]
    refine ⟨h.once, fun n hn => ?_⟩
    rcases hn with hn | rfl
    · exact h.marked n hn
    · exact ⟨pic, hpic, hd⟩
  · have hsome : w.markedFile cfg p = some e.filenameVdir := by
      unfold World.markedFile
      rw [he, hpic]
      exact if_neg hd
    simp only [if_neg hd] at hinside
    -- The status of the write that marks a parent is asserted to be 0.
    exact h.markedFile hL hsome (WriteOutcome.status_eq_zero.1 (hwritable.resolve_left hd))
      (fun c hc => hinside _ c rfl hc) hleft

/-- After a node has been marked as a parent, a file still has a component for the flag. -/
theorem components_of_marked (hL : cfg.ical.Lawful) (hleft : w.LeavesMarks cfg True)
    (hinside : ∀ c, w.fileComponent cfg k = some c → c.components ≠ [])
    (hc : (w.marked cfg p).fileComponent cfg k = some c) : c.components ≠ [] := by
  cases hfile : w.markedFile cfg p with
  | none =>
    rw [marked_of_markedFile_none hfile] at hc
    exact hinside c hc
  | some k' =>
    obtain ⟨_, pic, _, _, hpic, _, hwrote⟩ := marked_of_markedFile hfile
    rw [hwrote] at hc
    by_cases hk : k = k'
    · rw [hk] at hc hinside
      have hprintable := printable_of_parsed (parsed_of_fileComponent hL hpic)
      rw [fileComponent_stored hL k' (printable_markAsDirectory pic hprintable)] at hc
      unfold World.stored at hc
      cases ho : w.outcome with
      | written =>
        rw [ho] at hc
        cases hc
        intro hnil
        have hkinds : (markedComponent w.now pic).kinds = [] := components_eq_nil_iff.1 hnil
        rw [markedComponent_kinds] at hkinds
        exact hinside pic hpic (components_eq_nil_iff.2 hkinds)
      | openFailed =>
        rw [ho] at hc
        exact hinside c hc
      | writeFailed left =>
        rw [ho] at hc
        have hmem := List.mem_of_mem_take (mem_of_outcome ho)
        obtain ⟨c', hc', hd⟩ := (hleft left hmem).directory trivial
        rw [Option.some.inj (hc.symm.trans hc')]
        exact components_of_isDirectory hd
    · rw [fileComponent_wrote_of_ne hk] at hc
      exact hinside c hc

theorem World.LeavesMarks.marked (h : w.LeavesMarks cfg P) (p : NodeId) :
    (w.marked cfg p).LeavesMarks cfg P :=
  h.of_subset fun o ho => marked_env_writes p o ho

end Agendafs
