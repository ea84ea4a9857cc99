import Agendafs.Spec.IcalCorrect

/-!
# A libical whose files are components

`structuralIcal` prints a component as the component itself and parses it the way
`Icalcomponent.reread` says. It behaves as documented, so the assumptions on
libical are satisfiable, and it lets the program run on concrete files.

## Key results

- `structuralIcal_lawful`
-/

namespace Agendafs

open Icalcomponent

/-- The items of a list have no comma. -/
theorem not_mem_splitCommas (v : CStr) : ∀ item ∈ splitCommas v, (44 : UInt8) ∉ item := by
  induction v with
  | nil =>
    intro item hitem
    rw [splitCommas, List.mem_singleton] at hitem
    rw [hitem]
    exact List.not_mem_nil
  | cons b v ih =>
    unfold splitCommas
    split
    · intro item hitem
      rcases List.mem_cons.1 hitem with rfl | hitem
      · exact List.not_mem_nil
      · exact ih item hitem
    · rename_i hb
      cases hs : splitCommas v with
      | nil =>
        intro item hitem
        rw [List.mem_singleton] at hitem
        rw [hitem, List.mem_singleton]
        exact fun h => hb h.symm
      | cons first rest =>
        rw [hs] at ih
        intro item hitem
        rcases List.mem_cons.1 hitem with rfl | hitem
        · rw [List.mem_cons, not_or]
          exact ⟨fun h => hb h.symm, ih first List.mem_cons_self⟩
        · exact ih item (List.mem_cons_of_mem _ hitem)

/-- A property that is read back is one the parser yields. -/
theorem parsedProperty_of_mem_reread {ps : List Icalproperty}
    (h : ∀ p ∈ ps, p.printable = true) :
    ∀ p ∈ rereadProperties ps, parsedProperty p = true := by
  intro p hp
  unfold rereadProperties at hp
  obtain ⟨hp, hvalue⟩ := List.mem_filter.1 hp
  obtain ⟨p', hp', hp⟩ := List.mem_flatMap.1 hp
  have hprint := h p' hp'
  unfold Icalproperty.reread at hp
  unfold parsedProperty
  rw [hvalue, Bool.and_true]
  split at hp
  · rename_i hk
    obtain ⟨v, hv, rfl⟩ := List.mem_map.1 hp
    have hprint' : Icalproperty.printable { p' with value := v } = true := hprint
    rw [hprint']
    simpa using Or.inr (not_mem_splitCommas _ v hv)
  · rename_i hk
    rw [List.mem_singleton] at hp
    subst hp
    rw [hprint]
    simpa using Or.inl hk

/-- A component that is read back is one the parser yields. -/
theorem parsed_reread {c : Icalcomponent} (h : c.printable = true) : c.reread.parsed = true := by
  unfold printable at h
  unfold parsed
  induction c using induction_components with
  | step c ih =>
    rw [allProperties_iff] at h ⊢
    constructor
    · rw [reread_properties]
      exact parsedProperty_of_mem_reread h.1
    · rw [reread_components]
      intro a ha
      obtain ⟨b, hb, rfl⟩ := List.mem_map.1 ha
      exact ih b hb (h.2 b hb)

/-- The parser ends the name of a property at its first colon; what follows belongs to the text. -/
def Icalproperty.endName (p : Icalproperty) : Icalproperty :=
  if 58 ∈ p.xName then
    { p with
      xName := p.xName.takeWhile (· ≠ 58)
      value := (p.xName.dropWhile (· ≠ 58)).tail ++ 58 :: p.value }
  else p

namespace Icalcomponent

mutual

/-- `endName` on each property, at any depth. -/
def endNames : Icalcomponent → Icalcomponent
  | ⟨kind, properties, components⟩ =>
    ⟨kind, properties.map Icalproperty.endName, endNamesAll components⟩

/-- `endNames` on each component of a list. -/
def endNamesAll : List Icalcomponent → List Icalcomponent
  | [] => []
  | c :: cs => c.endNames :: endNamesAll cs

end

theorem endNamesAll_eq_map (cs : List Icalcomponent) : endNamesAll cs = cs.map endNames := by
  induction cs with
  | nil => rfl
  | cons c cs ih => rw [endNamesAll, ih, List.map_cons]

/-- A component that is printable has no colon in a name. -/
theorem endNames_of_printable {c : Icalcomponent} (h : c.printable = true) : c.endNames = c := by
  unfold printable at h
  induction c using induction_components with
  | step c ih =>
    obtain ⟨hproperties, hcomponents⟩ := allProperties_iff.1 h
    obtain ⟨kind, properties, components⟩ := c
    have hname : ∀ p ∈ properties, p.endName = id p := fun p hp => by
      refine if_neg fun hcolon => ?_
      have hb := List.all_eq_true.1 (hproperties p hp) 58 hcolon
      exact absurd hb (by decide)
    rw [endNames, endNamesAll_eq_map, List.map_congr_left hname, List.map_id]
    congr 1
    exact (List.map_congr_left fun a ha => ih a ha (hcomponents a ha)).trans (List.map_id _)

end Icalcomponent

/-- A libical whose files are components. A file with a semicolon or a line break in a name is
    not parsed. -/
def structuralIcal : Libical Icalcomponent where
  asIcalString c := c
  newFromString c := if c.endNames.printable then some c.endNames.reread else none
  valueAsString v := v
  timeFromString v := if v = [] then none else some v

/-- It behaves as libical is documented to. -/
theorem structuralIcal_lawful : structuralIcal.Lawful where
  parsed_of_newFromString {t c} h := by
    simp only [structuralIcal] at h
    split at h
    · rename_i ht
      exact Option.some.inj h ▸ parsed_reread ht
    · exact nomatch h
  newFromString_asIcalString c hc := by
    simp only [structuralIcal]
    rw [endNames_of_printable hc, if_pos hc]
  valueAsString_plain _ _ := rfl

/-! ## Sample files -/

/-- A mount of the directory `/vdir` with the default extension `txt`. -/
def sampleConfig : Config Icalcomponent where
  ical := structuralIcal
  vdir := bytes "/vdir"
  fileExtension := bytes "txt"

/-- A calendar with one journal entry. -/
def sampleNote (uid summary : CStr) (more : List Icalproperty) : Icalcomponent :=
  newCalendar ⟨.vjournal, { kind := .uid, value := uid } :: { kind := .summary, value := summary } ::
    more, []⟩

/-- A RELATED-TO property to a parent. -/
def sampleParent (uid : CStr) : Icalproperty :=
  { kind := .relatedTo, reltype := some (bytes "PARENT"), value := uid }

/-- The property that marks a directory. -/
def sampleDirectory : Icalproperty := { kind := .x, xName := isDirectoryProperty, value := bytes "YES" }

/-- A directory and a note in it. -/
def nestedNote : List (CStr × Icalcomponent) :=
  [(bytes "d.ics", sampleNote (bytes "d") (bytes "Dir") [sampleDirectory]),
    (bytes "n.ics", sampleNote (bytes "n") (bytes "Note") [sampleParent (bytes "d")])]

/-- The files of `/vdir`, by their names. -/
def sampleFiles (files : List (CStr × Icalcomponent)) : CStr → Option (File Icalcomponent) := fun f =>
  (files.find? fun p => appendPath sampleConfig.vdir p.1 = f).map fun p => { content := p.2 }

/-- The program before its load, with these files. -/
def sampleStart (files : List (CStr × Icalcomponent)) : World Icalcomponent where
  store := { heap := fun _ => none, nextId := 0, fuseRoot := 0, entriesVdir := Hashmap.new }
  files := sampleFiles files
  env := {}

/-- What `readdir` lists for these files. -/
def sampleListing (files : List (CStr × Icalcomponent)) : Option (List Dirent) :=
  some (files.map fun p => { dName := p.1, dType := .reg })

/-- The program after its load of these files, before calls that find this environment. -/
def sampleMount (files : List (CStr × Icalcomponent)) (env : Environment Icalcomponent) :
    World Icalcomponent :=
  let w := (loadRootNodeTree sampleConfig (sampleListing files)).final (sampleStart files)
  { store := w.store, files := w.files, env := env }

end Agendafs
