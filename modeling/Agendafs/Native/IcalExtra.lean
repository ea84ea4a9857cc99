import Agendafs.Native.Ical
import Agendafs.Native.Crash

/-!
# ical_extra.c

The program's own accessors of a note's component: the directory flag, the file
extension and the custom attributes, all kept in X properties, the parent
relation, and the components of new notes.

Three notions of the component inside the calendar are in use, as in the source:
the first subcomponent of any kind (`getFirstAnyComponent`), the first VJOURNAL
and libical's inner component.
-/

namespace Agendafs

open Icalcomponent

/-- `IS_DIRECTORY_PROPERTY`. -/
def isDirectoryProperty : CStr := bytes "X-CALDAVFS-ISDIRECTORY"

/-- `FILE_EXTENSION_PROPERTY`. -/
def fileExtensionProperty : CStr := bytes "X-CALDAVFS-FILEEXT"

/-- `CUSTOM_PROPERTY_PREFIX`. -/
def customPropertyPrefix : CStr := bytes "X-CALDAVFS-CUSTOM-"

/-- An X property with this name. -/
def isXProp (key : CStr) (p : Icalproperty) : Bool := p.kind = .x ∧ p.xName = key

/-- `icalproperty_class`, as far as the program names it. -/
inductive IcalClass
  | none | classPrivate | classPublic | classConfidential
deriving DecidableEq

/-- The class as libical prints it. -/
def IcalClass.text : IcalClass → CStr
  | .none => bytes "NONE"
  | .classPrivate => bytes "PRIVATE"
  | .classPublic => bytes "PUBLIC"
  | .classConfidential => bytes "CONFIDENTIAL"

/-- `icalproperty_status`, as far as the program names it. -/
inductive IcalStatus
  | none | draft | final
deriving DecidableEq

/-- The status as libical prints it. -/
def IcalStatus.text : IcalStatus → CStr
  | .none => bytes "NONE"
  | .draft => bytes "DRAFT"
  | .final => bytes "FINAL"

/-- `parse_ical_class`. -/
def parseIcalClass (input : CStr) : IcalClass :=
  if input = bytes "private" then .classPrivate
  else if input = bytes "public" then .classPublic
  else if input = bytes "confidential" then .classConfidential
  else .none

/-- `parse_ical_status`. The source returns `ICAL_STATUS_FINAL` for any other text. -/
def parseIcalStatus (input : CStr) : IcalStatus :=
  if input = bytes "draft" then .draft
  else if input = bytes "final" then .final
  else .final

/-- `icalproperty_get_class`: libical reads the class regardless of case. -/
def icalpropertyGetClass (p : Icalproperty) : IcalClass :=
  if strcaseEq p.value IcalClass.classPrivate.text then .classPrivate
  else if strcaseEq p.value IcalClass.classPublic.text then .classPublic
  else if strcaseEq p.value IcalClass.classConfidential.text then .classConfidential
  else .none

/-- `icalproperty_get_status`, likewise. -/
def icalpropertyGetStatus (p : Icalproperty) : IcalStatus :=
  if strcaseEq p.value IcalStatus.draft.text then .draft
  else if strcaseEq p.value IcalStatus.final.text then .final
  else .none

/-- `format_ical_class`. -/
def formatIcalClass : IcalClass → Option CStr
  | .classPrivate => some (bytes "private")
  | .classPublic => some (bytes "public")
  | .classConfidential => some (bytes "confidential")
  | .none => none

/-- `format_ical_status`. -/
def formatIcalStatus : IcalStatus → Option CStr
  | .draft => some (bytes "draft")
  | .final => some (bytes "final")
  | .none => none

section

variable {Text : Type} (L : Libical Text)

/-- `icalcomponent_get_uniq_x_value`. -/
def icalcomponentGetUniqXValue (component : Icalcomponent) (key : CStr) : Option CStr :=
  match component.getFirstAnyComponent with
  | none => none
  | some inner => (inner.properties.find? (isXProp key)).map fun p => L.valueAsString p.value

/-- A RELATED-TO property whose RELTYPE reads as `reltype`. -/
def hasReltype (reltype : CStr) (p : Icalproperty) : Bool :=
  p.kind = .relatedTo && p.reltype.any (strcaseEq · reltype)

/-- `is_directory_component`. -/
def isDirectoryComponent (component : Icalcomponent) : Bool :=
  (match component.getFirstComponent .vjournal with
    | none => false
    | some journal => journal.properties.any (hasReltype (bytes "CHILD"))) ||
  icalcomponentGetUniqXValue L component isDirectoryProperty = some (bytes "YES")

/-- `get_parent_uid`. -/
def getParentUid (component : Icalcomponent) : Option CStr :=
  match component.getFirstAnyComponent with
  | none => none
  | some inner =>
    (inner.properties.find? (hasReltype (bytes "PARENT"))).map fun p => L.valueAsString p.value

/-- `icalcomponent_get_custom_x_value`. -/
def icalcomponentGetCustomXValue (component : Icalcomponent) (key : CStr) : Option CStr :=
  icalcomponentGetUniqXValue L component (customPropertyPrefix ++ key)

/-- `icalcomponent_get_file_extension`: the stored `.` stands for no extension. -/
def icalcomponentGetFileExtension (component : Icalcomponent) : Option CStr :=
  match icalcomponentGetUniqXValue L component fileExtensionProperty with
  | none => none
  | some ext => if ext = bytes "." then some [] else some ext

end

/-- A RELATED-TO property of RELTYPE PARENT to this UID, as the remover tests it. -/
def isParentRelation (parentUid : CStr) (p : Icalproperty) : Bool :=
  p.kind = .relatedTo && p.value = parentUid &&
    p.reltype.any (icalparameterGetReltype · = .parent)

/-- `remove_parent_child_relationship_from_component`. A parent without UID is
    compared through a NULL pointer as soon as the child has a relation. -/
def removeParentChildRelationshipFromComponent (parent child : Icalcomponent) :
    Except Crash Icalcomponent :=
  match parent.getUid with
  | some parentUid => .ok <| child.modifyFirstAny fun inner =>
      { inner with properties := inner.properties.filter (!isParentRelation parentUid ·) }
  | none =>
    if (child.getFirstAnyComponent.bind (·.getFirstProperty .relatedTo)).isSome then
      .error .nullDereference
    else .ok child

/-- `set_parent_child_relationship_to_component`. libical makes no property of a NULL UID. -/
def setParentChildRelationshipToComponent (parent child : Icalcomponent) : Icalcomponent :=
  match parent.getUid with
  | none => child
  | some uid =>
    child.modifyFirstAny
      (addProperty { kind := .relatedTo, reltype := some (bytes "PARENT"), value := uid })

/-- `icalcomponent_get_innermost`. -/
def icalcomponentGetInnermost (c : Icalcomponent) : Icalcomponent := c.getFirstAnyComponent.getD c

/-- `icalcomponent_print_x_props`: the bytes it puts on the stream. -/
def icalcomponentPrintXProps (component : Icalcomponent) : List UInt8 :=
  ((icalcomponentGetInnermost component).properties.filter fun p =>
      p.kind = .x && startsWithStr p.xName customPropertyPrefix).flatMap fun p =>
    bytes "user." ++ p.xName.drop customPropertyPrefix.length ++ [0]

/-- Edit what `icalcomponent_get_innermost` returns, where it stands. -/
def modifyInnermost (f : Icalcomponent → Icalcomponent) (c : Icalcomponent) : Icalcomponent :=
  if c.components = [] then f c else c.modifyFirstAny f

/-- `icalcomponent_remove_x_prop`. -/
def icalcomponentRemoveXProp (component : Icalcomponent) (key : CStr) : Icalcomponent :=
  modifyInnermost (removeFirst (isXProp key)) component

/-- `icalcomponent_set_unique_x_value`. -/
def icalcomponentSetUniqueXValue (component : Icalcomponent) (key value : CStr) : Icalcomponent :=
  modifyInnermost (addProperty { kind := .x, xName := key, value := value })
    (icalcomponentRemoveXProp component key)

/-- `icalcomponent_remove_custom_prop`. -/
def icalcomponentRemoveCustomProp (component : Icalcomponent) (key : CStr) : Icalcomponent :=
  icalcomponentRemoveXProp component (customPropertyPrefix ++ key)

/-- `icalcomponent_set_custom_x_value`. -/
def icalcomponentSetCustomXValue (component : Icalcomponent) (key value : CStr) : Icalcomponent :=
  icalcomponentSetUniqueXValue component (customPropertyPrefix ++ key) value

/-- `icalcomponent_set_file_extension`. -/
def icalcomponentSetFileExtension (component : Icalcomponent) (extension : CStr) : Icalcomponent :=
  if extension = [] then
    icalcomponentSetUniqueXValue component fileExtensionProperty (bytes ".")
  else icalcomponentSetUniqueXValue component fileExtensionProperty extension

/-- `icalcomponent_mark_as_directory`. -/
def icalcomponentMarkAsDirectory (ic : Icalcomponent) : Icalcomponent :=
  icalcomponentSetUniqueXValue ic isDirectoryProperty (bytes "YES")

/-- `rstrins`: the old text up to the offset, then the buffer. -/
def rstrins (str : CStr) (offset : Nat) (buf : List UInt8) (size : Nat) : List UInt8 :=
  str.take offset ++ buf.take size

/-- `icalcomponent_insert_description`. libical takes the result as a C string. -/
def icalcomponentInsertDescription (ic : Icalcomponent) (buf : List UInt8) (size offset : Nat) :
    Icalcomponent :=
  ic.setDescription (cString (rstrins (ic.getDescription.getD []) offset buf size))

/-- `icalcomponent_get_description_size`. libical finds nothing in a NULL component. -/
def icalcomponentGetDescriptionSize (component : Option Icalcomponent) : Nat :=
  match component.bind (·.getDescription) with
  | none => 0
  | some description => description.length

/-! ## New notes -/

/-- `create_new_unique_ics_uid`, for the UUID that `uuid_generate` returned. -/
def createNewUniqueIcsUid (uuid : CStr) : CStr := uuid ++ bytes "-caldavfs"

/-- The calendar around a new note. -/
def newCalendar (journal : Icalcomponent) : Icalcomponent where
  kind := .vcalendar
  properties := [{ kind := .version, value := bytes "2.0" },
    { kind := .prodid, value := bytes "-//caldavfs//EN" }]
  components := [journal]

/-- `create_vjournal_directory`. -/
def createVjournalDirectory (id dtstamp summary : CStr) : Icalcomponent :=
  let journal : Icalcomponent :=
    { kind := .vjournal
      properties := [{ kind := .uid, value := id }, { kind := .dtstamp, value := dtstamp },
        { kind := .summary, value := summary },
        { kind := .classification, value := IcalClass.classPrivate.text }]
      components := [] }
  newCalendar <| (journal.setStatus IcalStatus.final.text).addProperty
    { kind := .x, xName := isDirectoryProperty, value := bytes "YES" }

/-- `create_vjournal_entry`. -/
def createVjournalEntry (id dtstamp summary : CStr) : Icalcomponent :=
  let journal : Icalcomponent :=
    { kind := .vjournal
      properties := [{ kind := .uid, value := id },
        { kind := .classification, value := IcalClass.classPrivate.text },
        { kind := .dtstamp, value := dtstamp },
        { kind := .classification, value := IcalClass.classPrivate.text }]
      components := [] }
  -- The source adds the class twice.
  let fileExtension := (getFileExtension summary).getD []
  let withoutExtension := withoutFileExtension summary
  let journal := (journal.setStatus IcalStatus.draft.text).addProperty
    { kind := .summary, value := withoutExtension }
  -- The journal has no subcomponent yet, so the extension is set in the journal itself.
  newCalendar <| (icalcomponentSetFileExtension journal fileExtension).addProperty
    { kind := .description, value := [] }

end Agendafs
