import Agendafs.Native.Path

/-!
# iCalendar components

The part of libical the program edits notes with. A component is its kind, its
list of properties and its list of subcomponents; the accessors follow libical,
which looks at the first property of a kind and appends new ones. What reads and
writes the text of a file is not under our control and is a parameter,
`Libical`; `Libical.Lawful` states what the program relies on of it.
-/

namespace Agendafs

/-- `icalcomponent_kind`. -/
inductive ComponentKind
  | vcalendar | vjournal | vevent | vtodo | vfreebusy | vavailability | vpoll | vpatch | vagenda
  | vtimezone | other
deriving DecidableEq

/-- The kinds `icalcomponent_get_first_real_component` stops at. -/
def ComponentKind.isReal : ComponentKind → Bool
  | .vevent | .vtodo | .vjournal | .vfreebusy | .vavailability | .vpoll | .vpatch | .vagenda => true
  | .vcalendar | .vtimezone | .other => false

/-- `icalproperty_kind`. -/
inductive PropertyKind
  | uid | summary | description | relatedTo | x | classification | status | categories | dtstart
  | dtstamp | lastModified | version | prodid | other
deriving DecidableEq

/-- A property: its kind, the name of an X property, its RELTYPE parameter and its text. -/
structure Icalproperty where
  kind : PropertyKind
  xName : CStr := []
  reltype : Option CStr := none
  value : CStr
deriving DecidableEq

/-- `icalparameter_reltype`. -/
inductive Reltype
  | parent | child | sibling | x
deriving DecidableEq

/-- `icalparameter_get_reltype`: libical reads the parameter regardless of case. -/
def icalparameterGetReltype (s : CStr) : Reltype :=
  if strcaseEq s (bytes "PARENT") then .parent
  else if strcaseEq s (bytes "CHILD") then .child
  else if strcaseEq s (bytes "SIBLING") then .sibling
  else .x

/-- An iCalendar component. -/
structure Icalcomponent where
  kind : ComponentKind
  properties : List Icalproperty
  components : List Icalcomponent

/-- Apply `f` to the first element that satisfies `p`. -/
def modifyFirst {α : Type} (p : α → Bool) (f : α → α) : List α → List α
  | [] => []
  | a :: as => if p a then f a :: as else a :: modifyFirst p f as

namespace Icalcomponent

/-- `icalcomponent_get_first_component`, for one kind. -/
def getFirstComponent (kind : ComponentKind) (c : Icalcomponent) : Option Icalcomponent :=
  c.components.find? (·.kind = kind)

/-- `icalcomponent_get_first_component` with `ICAL_ANY_COMPONENT`. -/
def getFirstAnyComponent (c : Icalcomponent) : Option Icalcomponent := c.components.head?

/-- `icalcomponent_get_first_real_component`. -/
def getFirstRealComponent (c : Icalcomponent) : Option Icalcomponent :=
  c.components.find? (·.kind.isReal)

/-- `icalcomponent_get_inner`. -/
def getInner (c : Icalcomponent) : Option Icalcomponent :=
  if c.kind = .vcalendar then c.getFirstRealComponent else some c

/-- `icalcomponent_get_first_property`. -/
def getFirstProperty (kind : PropertyKind) (c : Icalcomponent) : Option Icalproperty :=
  c.properties.find? (·.kind = kind)

/-- `icalcomponent_add_property`. -/
def addProperty (p : Icalproperty) (c : Icalcomponent) : Icalcomponent :=
  { c with properties := c.properties ++ [p] }

/-- `icalcomponent_remove_property` of the first property that satisfies `p`. -/
def removeFirst (p : Icalproperty → Bool) (c : Icalcomponent) : Icalcomponent :=
  { c with properties := c.properties.eraseP p }

/-- Set the text of the first property of a kind, if there is one. -/
def setExistingProperty (kind : PropertyKind) (value : CStr) (c : Icalcomponent) :
    Icalcomponent :=
  { c with properties := modifyFirst (·.kind = kind) ({ · with value := value }) c.properties }

/-- Set the text of the first property of a kind, which is appended when there is none. -/
def setFirstProperty (kind : PropertyKind) (value : CStr) (c : Icalcomponent) : Icalcomponent :=
  if (c.getFirstProperty kind).isSome then c.setExistingProperty kind value
  else c.addProperty { kind := kind, value := value }

/-- Edit what `icalcomponent_get_inner` returns, where it stands. -/
def modifyInner (f : Icalcomponent → Icalcomponent) (c : Icalcomponent) : Icalcomponent :=
  if c.kind = .vcalendar then
    { c with components := modifyFirst (·.kind.isReal) f c.components }
  else f c

/-- Edit the first subcomponent of any kind, where it stands. -/
def modifyFirstAny (f : Icalcomponent → Icalcomponent) (c : Icalcomponent) : Icalcomponent :=
  { c with components := modifyFirst (fun _ => true) f c.components }

/-- The text of the first property of a kind in the inner component. -/
def getText (kind : PropertyKind) (c : Icalcomponent) : Option CStr :=
  (c.getInner.bind (·.getFirstProperty kind)).map (·.value)

/-- `icalcomponent_get_summary`. -/
def getSummary (c : Icalcomponent) : Option CStr := c.getText .summary

/-- `icalcomponent_set_summary`. -/
def setSummary (v : CStr) (c : Icalcomponent) : Icalcomponent :=
  c.modifyInner (setFirstProperty .summary v)

/-- `icalcomponent_get_uid`. -/
def getUid (c : Icalcomponent) : Option CStr := c.getText .uid

/-- `icalcomponent_get_description`. -/
def getDescription (c : Icalcomponent) : Option CStr := c.getText .description

/-- `icalcomponent_set_description`. -/
def setDescription (v : CStr) (c : Icalcomponent) : Icalcomponent :=
  c.modifyInner (setFirstProperty .description v)

/-- `icalcomponent_set_dtstart`, with the time in its printed form. -/
def setDtstart (v : CStr) (c : Icalcomponent) : Icalcomponent :=
  c.modifyInner (setFirstProperty .dtstart v)

/-- `icalcomponent_set_status`, with the status in its printed form. -/
def setStatus (v : CStr) (c : Icalcomponent) : Icalcomponent :=
  c.modifyInner (setFirstProperty .status v)

end Icalcomponent

/-! ## Writing a component and reading it back -/

/-- The text items of a comma-separated list. -/
def splitCommas : CStr → List CStr
  | [] => [[]]
  | b :: s =>
    if b = 44 then [] :: splitCommas s
    else match splitCommas s with
      | [] => [[b]]
      | item :: items => (b :: item) :: items

/-- How the parser reads back a property: a CATEGORIES line yields one property
    for each of its items. -/
def Icalproperty.reread (p : Icalproperty) : List Icalproperty :=
  if p.kind = .categories then (splitCommas p.value).map ({ p with value := · }) else [p]

/-- How the parser reads back a list of properties: those without a text are dropped. -/
def rereadProperties (ps : List Icalproperty) : List Icalproperty :=
  (ps.flatMap Icalproperty.reread).filter (·.value ≠ [])

/-- A property whose line the parser splits where the printer joined it: the
    name of an X property has no colon, semicolon or line break. -/
def Icalproperty.printable (p : Icalproperty) : Bool :=
  p.xName.all fun b => b ≠ 58 && b ≠ 59 && b ≠ 10 && b ≠ 13

namespace Icalcomponent

mutual

/-- The component that is read back after it has been written. -/
def reread : Icalcomponent → Icalcomponent
  | ⟨kind, properties, components⟩ => ⟨kind, rereadProperties properties, rereadAll components⟩

/-- `reread` on each component of a list. -/
def rereadAll : List Icalcomponent → List Icalcomponent
  | [] => []
  | c :: cs => c.reread :: rereadAll cs

end

mutual

/-- Every property in the component, at any depth, satisfies `p`. -/
def allProperties (p : Icalproperty → Bool) : Icalcomponent → Bool
  | ⟨_, properties, components⟩ => properties.all p && allPropertiesIn p components

/-- `allProperties` on each component of a list. -/
def allPropertiesIn (p : Icalproperty → Bool) : List Icalcomponent → Bool
  | [] => true
  | c :: cs => c.allProperties p && allPropertiesIn p cs

end

/-- A component the printer writes in a form the parser reads back. -/
def printable (c : Icalcomponent) : Bool := c.allProperties Icalproperty.printable

/-- A property as the parser yields it. -/
def parsedProperty (p : Icalproperty) : Bool :=
  p.printable && p.value ≠ [] && (p.kind ≠ .categories || 44 ∉ p.value)

/-- A component as the parser yields it: printable, without empty texts and with
    its CATEGORIES split. -/
def parsed (c : Icalcomponent) : Bool := c.allProperties parsedProperty

end Icalcomponent

/-- A text that needs no escaping in an iCalendar file. -/
def plainText (v : CStr) : Bool := v.all fun b => 32 ≤ b && b ≠ 44 && b ≠ 59 && b ≠ 92 && b ≠ 34

/-- What the program calls of libical beyond the component structure. `Text` is
    the content of a file. -/
structure Libical (Text : Type) where
  /-- `icalcomponent_as_ical_string_r`. -/
  asIcalString : Icalcomponent → Text
  /-- `icalcomponent_new_from_string`. -/
  newFromString : Text → Option Icalcomponent
  /-- `icalproperty_get_value_as_string`: the text of a property as it is printed. -/
  valueAsString : CStr → CStr
  /-- `icaltime_from_string`, in printed form; `none` is the null time. -/
  timeFromString : CStr → Option CStr

/-- The documented behaviour of libical the program relies on. -/
structure Libical.Lawful {Text : Type} (L : Libical Text) : Prop where
  /-- The parser yields parsed components. -/
  parsed_of_newFromString : ∀ {t c}, L.newFromString t = some c → c.parsed = true
  /-- Writing a component and reading it back. -/
  newFromString_asIcalString : ∀ c, c.printable = true →
    L.newFromString (L.asIcalString c) = some c.reread
  /-- A text that needs no escaping is printed as it is. -/
  valueAsString_plain : ∀ v, plainText v = true → L.valueAsString v = v

end Agendafs
