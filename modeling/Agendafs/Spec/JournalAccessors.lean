import Agendafs.Spec.XattrCalls

/-!
# Which component the accessors of a note look at

The relations, the flag of a directory, the file extension and the custom attributes
are looked for in the first subcomponent of any kind, the texts in the first real one.
In a file of another client a VTIMEZONE may stand before the VJOURNAL, and then the
two are different components.

## Key results

- `onJournal_iff`: all accessors act on the VJOURNAL if and only if it comes first
-/

namespace Agendafs

open Icalcomponent

variable {Text : Type} {cfg : Config Text} {c j : Icalcomponent} {rest : List Icalcomponent}

/-! ## The journal of a calendar -/

/-- A calendar with one VJOURNAL, which is its first real component. -/
structure JournalCalendar (c j : Icalcomponent) : Prop where
  calendar : c.kind = .vcalendar
  only : c.components.filter (·.kind = .vjournal) = [j]
  real : c.getFirstRealComponent = some j

/-- Edit the VJOURNAL, where it stands. -/
def modifyJournal (f : Icalcomponent → Icalcomponent) (c : Icalcomponent) : Icalcomponent :=
  { c with components := modifyFirst (·.kind = .vjournal) f c.components }

/-- The calendar without its other components. -/
def withOnly (j c : Icalcomponent) : Icalcomponent := { c with components := [j] }

theorem JournalCalendar.kind (h : JournalCalendar c j) : j.kind = .vjournal := by
  have hmem : j ∈ c.components.filter (·.kind = .vjournal) := by
    rw [h.only]
    exact List.mem_singleton_self j
  exact of_decide_eq_true (List.mem_filter.1 hmem).2

theorem JournalCalendar.getInner (h : JournalCalendar c j) : c.getInner = some j := by
  unfold Icalcomponent.getInner
  rw [if_pos h.calendar, h.real]

theorem JournalCalendar.withOnly (h : JournalCalendar c j) : JournalCalendar (withOnly j c) j := by
  have hkind := h.kind
  refine ⟨h.calendar, ?_, ?_⟩
  · exact List.filter_cons_of_pos (decide_eq_true hkind)
  · exact List.find?_cons_of_pos (by rw [hkind]; rfl)

/-! ## What the accessors are for -/

/-- The value of an X property of a journal. -/
def xValueIn (L : Libical Text) (j : Icalcomponent) (key : CStr) : Option CStr :=
  (j.properties.find? (isXProp key)).map fun p => L.valueAsString p.value

/-- The parent that a journal names first. -/
def parentIn (L : Libical Text) (j : Icalcomponent) : Option CStr :=
  (j.properties.find? (hasReltype (bytes "PARENT"))).map fun p => L.valueAsString p.value

/-- The journal is a directory: it has a child, or the flag. -/
def isDirectoryIn (L : Libical Text) (j : Icalcomponent) : Bool :=
  j.properties.any (hasReltype (bytes "CHILD")) ||
    xValueIn L j isDirectoryProperty = some (bytes "YES")

/-- The file extension of a journal. -/
def fileExtensionIn (L : Libical Text) (j : Icalcomponent) : Option CStr :=
  (xValueIn L j fileExtensionProperty).map fun ext => if ext = bytes "." then [] else ext

/-- The names of the custom attributes of a journal. -/
def customNamesIn (j : Icalcomponent) : List CStr :=
  (j.properties.filter fun p => p.kind = .x && startsWithStr p.xName customPropertyPrefix).map
    fun p => bytes "user." ++ p.xName.drop customPropertyPrefix.length

/-- Set an X property of a journal. -/
def setXIn (key value : CStr) (j : Icalcomponent) : Icalcomponent :=
  (j.removeFirst (isXProp key)).addProperty { kind := .x, xName := key, value := value }

/-- Relate a journal to a parent. -/
def relateIn (uid : CStr) (j : Icalcomponent) : Icalcomponent :=
  j.addProperty { kind := .relatedTo, reltype := some (bytes "PARENT"), value := uid }

/-- Remove the relations of a journal to a parent. -/
def unrelateIn (uid : CStr) (j : Icalcomponent) : Icalcomponent :=
  { j with properties := j.properties.filter (!isParentRelation uid ·) }

/-- All accessors act on the journal `j` of the calendar `c`, and the note is the one that the
    journal alone would make. -/
structure OnJournal (cfg : Config Text) (c j : Icalcomponent) : Prop where
  getParent : getParentUid cfg.ical c = parentIn cfg.ical j
  setParent : ∀ parent uid, parent.getUid = some uid →
    setParentChildRelationshipToComponent parent c = modifyJournal (relateIn uid) c
  removeParent : ∀ parent uid, parent.getUid = some uid →
    removeParentChildRelationshipFromComponent parent c = .ok (modifyJournal (unrelateIn uid) c)
  getDirectory : isDirectoryComponent cfg.ical c = isDirectoryIn cfg.ical j
  setDirectory : icalcomponentMarkAsDirectory c =
    modifyJournal (setXIn isDirectoryProperty (bytes "YES")) c
  getExtension : icalcomponentGetFileExtension cfg.ical c = fileExtensionIn cfg.ical j
  setExtension : ∀ ext, icalcomponentSetFileExtension c ext =
    modifyJournal (setXIn fileExtensionProperty (if ext = [] then bytes "." else ext)) c
  getCustom : ∀ key, icalcomponentGetCustomXValue cfg.ical c key =
    xValueIn cfg.ical j (customPropertyPrefix ++ key)
  setCustom : ∀ key value, icalcomponentSetCustomXValue c key value =
    modifyJournal (setXIn (customPropertyPrefix ++ key) value) c
  removeCustom : ∀ key, icalcomponentRemoveCustomProp c key =
    modifyJournal (removeFirst (isXProp (customPropertyPrefix ++ key))) c
  customs : customNames c = customNamesIn j
  entry : ∀ vdirFilepath, agendaEntryOf cfg vdirFilepath c =
    agendaEntryOf cfg vdirFilepath (withOnly j c)
  xattr : ∀ attrib, xattrOf cfg c attrib = xattrOf cfg (withOnly j c) attrib

/-! ## A journal that comes first -/

section First

variable (h : JournalCalendar c j) (hfirst : c.components = j :: rest)

include hfirst

theorem getUniqXValue_first (L : Libical Text) (key : CStr) :
    icalcomponentGetUniqXValue L c key = xValueIn L j key := by
  unfold icalcomponentGetUniqXValue getFirstAnyComponent
  rw [hfirst]
  rfl

theorem modifyFirstAny_first (f : Icalcomponent → Icalcomponent) :
    modifyFirstAny f c = { c with components := f j :: rest } := by
  unfold modifyFirstAny
  rw [hfirst]
  rfl

theorem modifyInnermost_first (f : Icalcomponent → Icalcomponent) :
    modifyInnermost f c = { c with components := f j :: rest } := by
  unfold modifyInnermost
  rw [if_neg (by rw [hfirst]; exact List.cons_ne_nil _ _), modifyFirstAny_first hfirst]

theorem getFileExtension_first (L : Libical Text) :
    icalcomponentGetFileExtension L c = fileExtensionIn L j := by
  unfold icalcomponentGetFileExtension fileExtensionIn
  rw [getUniqXValue_first hfirst]
  cases xValueIn L j fileExtensionProperty with
  | none => rfl
  | some ext =>
    simp only [Option.map_some]
    split <;> rfl

include h

theorem modifyJournal_first (f : Icalcomponent → Icalcomponent) :
    modifyJournal f c = { c with components := f j :: rest } := by
  unfold modifyJournal
  rw [hfirst]
  unfold modifyFirst
  rw [if_pos (decide_eq_true h.kind)]

theorem setUniqueXValue_first (key value : CStr) :
    icalcomponentSetUniqueXValue c key value = modifyJournal (setXIn key value) c := by
  unfold icalcomponentSetUniqueXValue icalcomponentRemoveXProp
  rw [modifyInnermost_first hfirst, modifyInnermost_first (j := removeFirst (isXProp key) j) rfl,
    modifyJournal_first h hfirst]
  rfl

theorem isDirectoryComponent_first (L : Libical Text) :
    isDirectoryComponent L c = isDirectoryIn L j := by
  have hjournal : c.getFirstComponent .vjournal = some j := by
    unfold getFirstComponent
    rw [hfirst]
    exact List.find?_cons_of_pos (decide_eq_true h.kind)
  unfold isDirectoryComponent isDirectoryIn
  rw [hjournal, getUniqXValue_first hfirst]

end First

theorem getText_withOnly (h : JournalCalendar c j) (κ : PropertyKind) :
    (withOnly j c).getText κ = c.getText κ := by
  unfold getText
  rw [h.getInner, h.withOnly.getInner]

theorem agendaEntryOf_first (h : JournalCalendar c j) (hfirst : c.components = j :: rest)
    (vdirFilepath : CStr) :
    agendaEntryOf cfg vdirFilepath c = agendaEntryOf cfg vdirFilepath (withOnly j c) := by
  unfold agendaEntryOf shownFilename getSummary
  rw [h.real, h.withOnly.real, getText_withOnly h, isDirectoryComponent_first h hfirst,
    getFileExtension_first hfirst, isDirectoryComponent_first h.withOnly rfl,
    getFileExtension_first (c := withOnly j c) rfl]

theorem xattrOf_first (h : JournalCalendar c j) (hfirst : c.components = j :: rest)
    (attrib : CStr) : xattrOf cfg c attrib = xattrOf cfg (withOnly j c) attrib := by
  unfold xattrOf categoriesOf classOf statusOf dtstartOf getUid icalcomponentGetCustomXValue
  rw [h.getInner, h.withOnly.getInner, getText_withOnly h, getText_withOnly h,
    getUniqXValue_first hfirst, getUniqXValue_first (c := withOnly j c) rfl]

/-- The journal is the first component, so every accessor finds it. -/
theorem onJournal_of_first (h : JournalCalendar c j) (hfirst : c.components = j :: rest) :
    OnJournal cfg c j where
  -- Each accessor goes through the first component, which is the journal here.
  getParent := by
    unfold getParentUid getFirstAnyComponent
    rw [hfirst]
    rfl
  setParent parent uid huid := by
    unfold setParentChildRelationshipToComponent
    rw [huid, modifyJournal_first h hfirst]
    exact modifyFirstAny_first hfirst _
  removeParent parent uid huid := by
    unfold removeParentChildRelationshipFromComponent
    rw [huid, modifyJournal_first h hfirst]
    exact congrArg Except.ok (modifyFirstAny_first hfirst _)
  getDirectory := isDirectoryComponent_first h hfirst cfg.ical
  setDirectory := setUniqueXValue_first h hfirst _ _
  getExtension := getFileExtension_first hfirst cfg.ical
  setExtension ext := by
    unfold icalcomponentSetFileExtension
    split
    · exact setUniqueXValue_first h hfirst _ _
    · exact setUniqueXValue_first h hfirst _ _
  getCustom key := getUniqXValue_first hfirst cfg.ical _
  setCustom key value := setUniqueXValue_first h hfirst _ _
  removeCustom key := by
    rw [modifyJournal_first h hfirst]
    exact modifyInnermost_first hfirst _
  customs := by
    unfold customNames icalcomponentGetInnermost getFirstAnyComponent
    rw [hfirst]
    rfl
  entry := agendaEntryOf_first h hfirst
  xattr := xattrOf_first h hfirst

/-! ## A journal behind another component -/

/-- The relation to a parent is put into the first component, whatever it is. -/
theorem first_of_onJournal (h : JournalCalendar c j) (hon : OnJournal cfg c j) :
    c.components.head? = some j := by
  have hset := congrArg components
    (hon.setParent ⟨.vjournal, [{ kind := .uid, value := bytes "p" }], []⟩ (bytes "p") rfl)
  have honly := h.only
  have hreal := h.real
  unfold getFirstRealComponent at hreal
  change modifyFirst (fun _ => true) (relateIn (bytes "p")) c.components =
    modifyFirst (·.kind = .vjournal) (relateIn (bytes "p")) c.components at hset
  cases hcs : c.components with
  | nil =>
    rw [hcs] at hreal
    cases hreal
  | cons a rest =>
    rw [hcs] at honly hset
    by_cases ha : a.kind = .vjournal
    · rw [List.filter_cons, if_pos (decide_eq_true ha)] at honly
      rw [(List.cons.inj honly).1]
      rfl
    -- A component that is not a journal gains a property.
    · unfold modifyFirst at hset
      rw [if_pos rfl, if_neg (by simpa using ha)] at hset
      have hproperties := congrArg (·.properties.length) (List.cons.inj hset).1
      simp only [relateIn, addProperty, List.length_append, List.length_singleton] at hproperties
      omega

/-- All accessors act on the journal exactly if no other component precedes it. -/
theorem onJournal_iff (h : JournalCalendar c j) :
    OnJournal cfg c j ↔ c.components.head? = some j := by
  constructor
  · exact first_of_onJournal h
  · intro hhead
    obtain ⟨rest, hfirst⟩ := List.head?_eq_some_iff.1 hhead
    exact onJournal_of_first h hfirst

/-- A note with the parent `p` and the extension `md`. -/
def foreignJournal : Icalcomponent :=
  ⟨.vjournal, [{ kind := .uid, value := bytes "n" }, { kind := .summary, value := bytes "Note" },
    { kind := .relatedTo, reltype := some (bytes "PARENT"), value := bytes "p" },
    { kind := .x, xName := fileExtensionProperty, value := bytes "md" }], []⟩

/-- The calendar of another client, with the time zone before or behind the note. -/
def foreignCalendar (components : List Icalcomponent) : Icalcomponent :=
  ⟨.vcalendar, [{ kind := .version, value := bytes "2.0" }], components⟩

theorem onJournal_iff_foreignCalendar :
    OnJournal sampleConfig (foreignCalendar [foreignJournal, ⟨.vtimezone, [], []⟩])
      foreignJournal :=
  (onJournal_iff ⟨rfl, rfl, rfl⟩).2 rfl

/-- The parent of a note behind a time zone is not found. -/
theorem not_all_onJournal :
    ¬ ∀ c j : Icalcomponent, JournalCalendar c j → OnJournal sampleConfig c j := by
  intro hall
  have hon := hall (foreignCalendar [⟨.vtimezone, [], []⟩, foreignJournal]) foreignJournal
    ⟨rfl, rfl, rfl⟩
  exact absurd hon.getParent (by decide)

end Agendafs
