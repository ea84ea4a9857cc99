import Agendafs.Spec.IcalCorrect
import Agendafs.Spec.RenameCorrect

/-!
# What the edits of the program do to a component

Which views the edits of `ical_extra.c` and `fuse_node.c` keep, by the kind of
property they touch, and that they leave a component the printer can print. So
the parent relation, the directory flag, the title and the extension of a note
after a call can be read off the views before it.

## Key results

- `keeps_stamp`, `keeps_markAsDirectory`, `keeps_setFileExtension`,
  `keeps_updatedSummary`, `keeps_unrelated`, `keeps_related`
- `printable_stamp` and its siblings
- `fileComponent_wrote`: the component in a file that has been written
-/

namespace Agendafs

open Icalcomponent

variable {Text : Type} {cfg : Config Text} {w : World Text} {q : Icalproperty → Bool}
  {κ : PropertyKind} {c : Icalcomponent}

/-! ## Views kept -/

/-- Only properties of the kind `κ` satisfy `q`. -/
def OnlyKind (κ : PropertyKind) (q : Icalproperty → Bool) : Prop := ∀ p, q p = true → p.kind = κ

theorem OnlyKind.eq_false (h : OnlyKind κ q) {p : Icalproperty} (hp : p.kind ≠ κ) :
    q p = false := by
  cases hq : q p with
  | false => rfl
  | true => exact absurd (h p hq) hp

theorem onlyKind_hasReltype (r : CStr) : OnlyKind .relatedTo (hasReltype r) := fun p hp => by
  simp only [hasReltype, Bool.and_eq_true, decide_eq_true_eq] at hp
  exact hp.1

theorem onlyKind_isXProp (key : CStr) : OnlyKind .x (isXProp key) := fun p hp => by
  simp only [isXProp, decide_eq_true_eq] at hp
  exact hp.1

theorem onlyKind_kind (k : PropertyKind) : OnlyKind k (·.kind = k) := fun p hp => by simpa using hp

theorem OnlyKind.ne_categories (h : OnlyKind κ q) (hκ : κ ≠ .categories) :
    ∀ p, q p = true → p.kind ≠ .categories := fun p hp => by
  rw [h p hp]
  exact hκ

/-- `write_ical_file` touches LAST-MODIFIED and DESCRIPTION. -/
theorem keeps_stamp (h : OnlyKind κ q) (hκ : κ ≠ .lastModified ∧ κ ≠ .description) (now : CStr) :
    Keeps q (stamp now) := by
  have hremove : Keeps q fun inner : Icalcomponent =>
      if (inner.getFirstProperty .description).any (·.value = []) then
        inner.removeFirst (·.kind = .description)
      else inner := by
    have hr : Keeps q (removeFirst (·.kind = .description)) := .removeFirst fun p hp =>
      h.eq_false (by rw [of_decide_eq_true hp]; exact hκ.2.symm)
    exact .ite hr .id
  exact hremove.modifyInner.comp (.setFirstProperty fun p hp =>
    h.eq_false (by rw [hp]; exact hκ.1.symm))

/-- Setting an X property touches the X properties of that name. -/
theorem keeps_setUniqueXValue {key : CStr} (h : ∀ p, isXProp key p = true → q p = false)
    (value : CStr) : Keeps q (icalcomponentSetUniqueXValue · key value) := by
  have hadd : Keeps q (addProperty { kind := .x, xName := key, value := value }) :=
    .addProperty (h _ (by simp [isXProp]))
  have hremove : Keeps q (removeFirst (isXProp key)) := .removeFirst h
  exact hadd.modifyInnermost.comp hremove.modifyInnermost

theorem keeps_markAsDirectory (h : ∀ p, isXProp isDirectoryProperty p = true → q p = false) :
    Keeps q icalcomponentMarkAsDirectory := keeps_setUniqueXValue h _

theorem keeps_setFileExtension (h : ∀ p, isXProp fileExtensionProperty p = true → q p = false)
    (ext : CStr) : Keeps q (icalcomponentSetFileExtension · ext) := by
  unfold icalcomponentSetFileExtension
  split
  · exact keeps_setUniqueXValue h _
  · exact keeps_setUniqueXValue h _

/-- `update_summary` touches SUMMARY. -/
theorem keeps_updatedSummary (h : OnlyKind κ q) (hκ : κ ≠ .summary) (name : CStr) :
    Keeps q (updatedSummary cfg name) := by
  have hset : ∀ v, Keeps q (setSummary v) := fun v =>
    (Keeps.setFirstProperty fun p hp => h.eq_false (by rw [hp]; exact hκ.symm)).modifyInner
  exact .ite (hset _) (hset _)

/-- Renaming touches LAST-MODIFIED, DESCRIPTION, SUMMARY and the extension. -/
theorem keeps_renamedNote (h : OnlyKind κ q)
    (hκ : κ ≠ .lastModified ∧ κ ≠ .description ∧ κ ≠ .summary)
    (hext : ∀ p, isXProp fileExtensionProperty p = true → q p = false) (n : NodeId)
    (k x : CStr) : Keeps q (w.renamedNote cfg n k x) := by
  have htitled : Keeps q (w.titledNote cfg x) :=
    (keeps_stamp h ⟨hκ.1, hκ.2.1⟩ w.now).comp (keeps_updatedSummary h hκ.2.2 x)
  -- A name without extension leaves the stored one alone.
  have hextended : ∀ v : World Text, Keeps q (v.extendedNote x) := by
    intro v
    unfold World.extendedNote
    split
    · exact .id
    · exact (keeps_stamp h ⟨hκ.1, hκ.2.1⟩ v.now).comp (keeps_setFileExtension hext _)
  exact {
    kind := fun c => ((hextended _).kind _).trans (htitled.kind c)
    kinds := fun c => ((hextended _).kinds _).trans (htitled.kinds c)
    own := fun c => ((hextended _).own _).trans (htitled.own c)
    view := fun P c => ((hextended _).view P _).trans (htitled.view P c) }

theorem keeps_unrelated (oldParentIcs : Option Icalcomponent)
    (h : ∀ uid p, q p = true → isParentRelation uid p = false) :
    Keeps q (unrelated oldParentIcs) := by
  unfold unrelated
  split
  · exact (Keeps.filterProperties fun p hp => by rw [h _ p hp]; rfl).modifyFirstAny
  · exact .id

theorem keeps_related (newParentIcs : Option Icalcomponent)
    (h : ∀ uid, q { kind := .relatedTo, reltype := some (bytes "PARENT"), value := uid } = false) :
    Keeps q (related newParentIcs) := by
  unfold related setParentChildRelationshipToComponent
  split
  · split
    · exact .id
    · exact (Keeps.addProperty (h _)).modifyFirstAny
  · exact .id

theorem view_modifyFirstAny (q : Icalproperty → Bool) (f : Icalcomponent → Icalcomponent)
    (c : Icalcomponent) :
    (modifyFirstAny f c).view anyKind q =
      c.getFirstAnyComponent.map fun a => (f a).properties.filter q := by
  obtain ⟨kind, properties, components⟩ := c
  rw [view_any]
  cases components with
  | nil => rfl
  | cons a as => rfl

/-- A property that is added stands behind the others. -/
theorem view_addProperty {p : Icalproperty} (hp : q p = true) (c : Icalcomponent) :
    (modifyFirstAny (addProperty p) c).view anyKind q = (c.view anyKind q).map (· ++ [p]) := by
  rw [view_modifyFirstAny, view_any, Option.map_map]
  refine congrArg (Option.map · _) (funext fun a => ?_)
  rw [Function.comp_apply, addProperty, List.filter_append, List.filter_cons_of_pos hp,
    List.filter_nil]

theorem filter_eraseP (ps : List Icalproperty) : (ps.eraseP q).filter q = (ps.filter q).tail := by
  induction ps with
  | nil => rfl
  | cons a ps ih =>
    -- The first that satisfies `q` is the head of the filtered list.
    by_cases ha : q a = true
    · rw [List.eraseP_cons_of_pos ha, List.filter_cons_of_pos ha, List.tail_cons]
    · rw [List.eraseP_cons_of_neg ha, List.filter_cons_of_neg ha, List.filter_cons_of_neg ha, ih]

/-- The property that is removed is the first. -/
theorem view_removeFirst (c : Icalcomponent) :
    (modifyFirstAny (removeFirst q) c).view anyKind q = (c.view anyKind q).map (·.tail) := by
  rw [view_modifyFirstAny, view_any, Option.map_map]
  exact congrArg (Option.map · _) (funext fun a => filter_eraseP a.properties)

theorem modifyInnermost_eq {f : Icalcomponent → Icalcomponent} (hc : c.kinds ≠ []) :
    modifyInnermost f c = modifyFirstAny f c := if_neg fun h => hc (by rw [kinds, h]; rfl)

/-- The first X property of the name is taken out, and the new one put behind the others. -/
theorem view_setUniqueXValue (hc : c.kinds ≠ []) (key value : CStr) :
    (icalcomponentSetUniqueXValue c key value).view anyKind (isXProp key) =
      (c.view anyKind (isXProp key)).map (·.tail ++ [⟨.x, key, none, value⟩]) := by
  have hremove : Keeps (fun _ => false) (modifyFirstAny (removeFirst (isXProp key))) :=
    (Keeps.removeFirst fun _ _ => rfl).modifyFirstAny
  unfold icalcomponentSetUniqueXValue icalcomponentRemoveXProp
  rw [modifyInnermost_eq hc, modifyInnermost_eq (by rw [hremove.kinds]; exact hc),
    view_addProperty (by simp [isXProp]), view_removeFirst, Option.map_map]
  rfl

/-! ## What can be printed stays so -/

/-- The edit leaves a component that can be printed. -/
abbrev Printable (f : Icalcomponent → Icalcomponent) : Prop := Preserves Icalproperty.printable f

theorem printable_setExistingProperty (k : PropertyKind) (v : CStr) :
    Printable (setExistingProperty k v) := .setExistingProperty fun _ hp => hp

theorem printable_setFirstProperty (k : PropertyKind) (v : CStr) :
    Printable (setFirstProperty k v) := .setFirstProperty (fun _ hp => hp) rfl

theorem printable_stamp (now : CStr) : Printable (stamp now) := by
  have hremove : Printable fun inner : Icalcomponent =>
      if (inner.getFirstProperty .description).any (·.value = []) then
        inner.removeFirst (·.kind = .description)
      else inner := fun c hc => by
    simp only
    split
    · exact Preserves.removeFirst _ c hc
    · exact hc
  exact hremove.modifyInner.comp (printable_setFirstProperty _ _)

theorem printable_setUniqueXValue {key : CStr}
    (hkey : Icalproperty.printable { kind := .x, xName := key, value := [] } = true)
    (value : CStr) : Printable (icalcomponentSetUniqueXValue · key value) := by
  have hadd : Printable (addProperty { kind := .x, xName := key, value := value }) :=
    .addProperty hkey
  have hremove : Printable (removeFirst (isXProp key)) := .removeFirst _
  exact hadd.modifyInnermost.comp hremove.modifyInnermost

theorem printable_markAsDirectory : Printable icalcomponentMarkAsDirectory :=
  printable_setUniqueXValue (by decide) _

theorem printable_setFileExtension (ext : CStr) :
    Printable (icalcomponentSetFileExtension · ext) := by
  unfold icalcomponentSetFileExtension
  split
  · exact printable_setUniqueXValue (by decide) _
  · exact printable_setUniqueXValue (by decide) _

theorem printable_updatedSummary (name : CStr) : Printable (updatedSummary cfg name) := by
  intro c hc
  unfold updatedSummary
  split
  · exact (printable_setFirstProperty _ _).modifyInner c hc
  · exact (printable_setFirstProperty _ _).modifyInner c hc

theorem printable_renamedNote (n : NodeId) (k x : CStr) :
    Printable (w.renamedNote cfg n k x) := by
  intro c hc
  have htitled : (w.titledNote cfg x c).printable = true :=
    printable_stamp _ _ (printable_updatedSummary x c hc)
  unfold World.renamedNote World.extendedNote
  split
  · exact htitled
  · exact printable_stamp _ _ (printable_setFileExtension _ _ htitled)

theorem printable_unrelated (oldParentIcs : Option Icalcomponent) :
    Printable (unrelated oldParentIcs) := by
  unfold unrelated
  split
  · exact (Preserves.filterProperties _).modifyFirstAny
  · exact fun c hc => hc

theorem printable_related (newParentIcs : Option Icalcomponent) :
    Printable (related newParentIcs) := by
  unfold related setParentChildRelationshipToComponent
  split
  · split
    · exact fun c hc => hc
    · exact (Preserves.addProperty rfl).modifyFirstAny
  · exact fun c hc => hc

/-! ## The file after a write -/

/-- Writing a file of VDIR leaves the others alone. -/
theorem files_wrote_of_ne {k k' : CStr} (h : k' ≠ k) (ic : Icalcomponent) :
    (w.wrote cfg k ic).files (appendPath cfg.vdir k') = w.files (appendPath cfg.vdir k') := by
  -- Different names give different paths below VDIR.
  have hne : appendPath cfg.vdir k' ≠ appendPath cfg.vdir k := fun he => h (appendPath_inj.1 he)
  unfold World.wrote
  cases w.outcome with
  | openFailed => rfl
  | writeFailed left => exact if_neg hne
  | written => exact if_neg hne

theorem fileComponent_wrote_of_ne {k k' : CStr} (h : k' ≠ k) (ic : Icalcomponent) :
    (w.wrote cfg k ic).fileComponent cfg k' = w.fileComponent cfg k' := by
  unfold World.fileComponent
  rw [files_wrote_of_ne h]

/-- A file that cannot be opened keeps its component. -/
theorem fileComponent_openFailed (ho : w.outcome = .openFailed) (k : CStr) (ic : Icalcomponent) :
    (w.wrote cfg k ic).fileComponent cfg k = w.fileComponent cfg k := by
  unfold World.fileComponent World.wrote
  rw [ho]

/-- After a write that fails midway the file has what is left of it. -/
theorem fileComponent_writeFailed {left : Text} (ho : w.outcome = .writeFailed left) (k : CStr)
    (ic : Icalcomponent) :
    (w.wrote cfg k ic).fileComponent cfg k = cfg.ical.newFromString left := by
  unfold World.fileComponent World.wrote
  rw [ho]
  simp only [writtenFiles, if_true, Option.bind_some]

/-- A file that has been written is read back. -/
theorem fileComponent_wrote (hL : cfg.ical.Lawful) {k : CStr} {ic : Icalcomponent}
    (hic : ic.printable = true) (ho : w.outcome = .written) :
    (w.wrote cfg k ic).fileComponent cfg k = some (stamp w.now ic).reread := by
  unfold World.fileComponent World.wrote
  rw [ho]
  simp only [writtenFiles, if_true, Option.bind_some]
  exact hL.newFromString_asIcalString _ (printable_stamp w.now ic hic)

/-- A component read from a file is one the parser yields. -/
theorem parsed_of_fileComponent (hL : cfg.ical.Lawful) {k : CStr}
    (h : w.fileComponent cfg k = some c) : c.parsed = true := by
  obtain ⟨f, _, hf⟩ := Option.bind_eq_some_iff.1 h
  exact hL.parsed_of_newFromString hf

/-! ## Writing back what was read -/

/-- The component without the time of writing. -/
def unstamped (c : Icalcomponent) : Icalcomponent :=
  { c with properties := c.properties.filter (·.kind ≠ .lastModified) }

theorem unstamped_setFirstProperty (now : CStr) (c : Icalcomponent) :
    unstamped (setFirstProperty .lastModified now c) = unstamped c := by
  have hkeeps : Keeps (fun p => p.kind ≠ .lastModified) (setFirstProperty .lastModified now) :=
    .setFirstProperty fun p hp => decide_eq_false (not_not.2 hp)
  have hown := hkeeps.own c
  unfold unstamped
  rw [hown]
  unfold setFirstProperty
  split <;> rfl


/-- On a component the parser yields, `write_ical_file` only sets the time of writing: no
    description is empty. -/
theorem stamp_of_parsed (hc : c.parsed = true) (now : CStr) :
    stamp now c = setFirstProperty .lastModified now c := by
  refine modifyInner_eq_self fun a ha => if_neg fun hempty => ?_
  obtain ⟨p, hp, hvalue⟩ := (Option.any_eq_true ..).1 hempty
  have hkeeps : Keeps (·.kind = .description) (setFirstProperty .lastModified now) :=
    .setFirstProperty fun p hp => by rw [hp]; decide
  have hkind := List.find?_some hp
  have hmem : p ∈ a.properties.filter (·.kind = .description) :=
    List.mem_filter.2 ⟨List.mem_of_find?_eq_some hp, hkind⟩
  have hinner := hkeeps.inner c
  rw [inner_eq, inner_eq, ha, Option.map_some] at hinner
  obtain ⟨b, hb, heq⟩ := Option.map_eq_some_iff.1 hinner.symm
  rw [← heq] at hmem
  exact value_ne_nil_of_mem (parsed_of_getInner hc hb) (List.mem_of_mem_filter hmem)
    (of_decide_eq_true hvalue)

/-- Reading properties back commutes with a choice among their kinds. -/
theorem rereadProperties_filter_kind (r : PropertyKind → Bool) (ps : List Icalproperty) :
    (rereadProperties ps).filter (r ·.kind) = rereadProperties (ps.filter (r ·.kind)) := by
  induction ps with
  | nil => rfl
  | cons p ps ih =>
    -- The items of a property have its kind.
    have hitems : p.reread.filter (r ·.kind) = if r p.kind then p.reread else [] := by
      have hkind : ∀ item ∈ p.reread, item.kind = p.kind := fun item hitem => by
        unfold Icalproperty.reread at hitem
        split at hitem
        · obtain ⟨_, _, rfl⟩ := List.mem_map.1 hitem
          rfl
        · rw [List.mem_singleton.1 hitem]
      split
      · rename_i hp
        exact List.filter_eq_self.2 fun item hitem => hkind item hitem ▸ hp
      · rename_i hp
        exact List.filter_eq_nil_iff.2 fun item hitem hne => hp (hkind item hitem ▸ hne)
    unfold rereadProperties at ih ⊢
    rw [List.flatMap_cons, List.filter_append, List.filter_append, ih, List.filter_comm, hitems,
      List.filter_cons]
    by_cases hp : r p.kind = true
    · rw [if_pos hp, if_pos hp, List.flatMap_cons, List.filter_append]
    · rw [if_neg hp, if_neg hp]
      rfl

/-- The parser reads the other properties as if the time of writing were not there. -/
theorem unstamped_reread (c : Icalcomponent) : unstamped c.reread = (unstamped c).reread := by
  obtain ⟨kind, properties, components⟩ := c
  rw [reread]
  unfold unstamped
  rw [reread]
  congr 1
  exact rereadProperties_filter_kind (· ≠ .lastModified) properties

/-- Writing what has been read changes nothing but the time of writing. -/
theorem unstamped_restamped (hc : c.parsed = true) (now : CStr) :
    unstamped (stamp now c).reread = unstamped c := by
  have hparsed : (unstamped c).parsed = true := Preserves.filterProperties _ c hc
  rw [stamp_of_parsed hc, unstamped_reread, unstamped_setFirstProperty, reread_of_parsed hparsed]

/-! ## Marking a directory -/

/-- The component that is read from a file after it has been marked. -/
def markedComponent (now : CStr) (c : Icalcomponent) : Icalcomponent :=
  (stamp now (icalcomponentMarkAsDirectory c)).reread

/-- Writing and reading back changes no view of a component the parser yields, but for the
    properties that `write_ical_file` touches. -/
theorem view_restamped (h : OnlyKind κ q) (hκ : κ ≠ .lastModified ∧ κ ≠ .description ∧ κ ≠ .categories)
    (hc : c.parsed = true) (now : CStr) (P : ComponentKind → Bool) :
    (stamp now c).reread.view P q = c.view P q := by
  rw [view_reread (h.ne_categories hκ.2.2), (keeps_stamp h ⟨hκ.1, hκ.2.1⟩ now).view,
    view_filter_of_parsed hc]

theorem parsed_markAsDirectory (hc : c.parsed = true) :
    (icalcomponentMarkAsDirectory c).parsed = true := by
  have hadd : Preserves parsedProperty
      (addProperty { kind := .x, xName := isDirectoryProperty, value := bytes "YES" }) :=
    .addProperty (by decide)
  have hremove : Preserves parsedProperty (removeFirst (isXProp isDirectoryProperty)) :=
    .removeFirst _
  exact (hadd.modifyInnermost.comp hremove.modifyInnermost) c hc

/-- The mark of a directory leaves the parent UID that is read as it was. -/
theorem getParentUid_marked (hc : c.parsed = true) (now : CStr) :
    getParentUid cfg.ical (markedComponent now c) = getParentUid cfg.ical c := by
  have honly := onlyKind_hasReltype (bytes "PARENT")
  unfold markedComponent
  rw [getParentUid_eq, getParentUid_eq, view_restamped honly (by decide) (parsed_markAsDirectory hc),
    (keeps_markAsDirectory fun p hp => honly.eq_false (by
      rw [onlyKind_isXProp _ p hp]; decide)).view]

/-- A mark that is written is read in the file of the parent, and nowhere else. -/
theorem fileComponent_marked (hL : cfg.ical.Lawful) (ho : w.outcome = .written) (p : NodeId)
    (k : CStr) :
    (w.marked cfg p).fileComponent cfg k =
      if w.markedFile cfg p = some k then (w.fileComponent cfg k).map (markedComponent w.now)
      else w.fileComponent cfg k := by
  cases hm : w.markedFile cfg p with
  | none => rw [marked_of_markedFile_none hm, if_neg nofun]
  | some k' =>
    obtain ⟨e, pic, _, _, hpic, _, hmarked⟩ := marked_of_markedFile hm
    rw [hmarked]
    by_cases hk : k' = k
    · subst hk
      have hprintable := printable_of_parsed (parsed_of_fileComponent hL hpic)
      rw [if_pos rfl, hpic, fileComponent_wrote hL (printable_markAsDirectory _ hprintable) ho]
      rfl
    · rw [if_neg fun he => hk (Option.some.inj he), fileComponent_wrote_of_ne (Ne.symm hk)]

/-- Only the file of the parent is written by a mark. -/
theorem files_marked_of_ne {p : NodeId} {k : CStr} (h : w.markedFile cfg p ≠ some k) :
    (w.marked cfg p).files (appendPath cfg.vdir k) = w.files (appendPath cfg.vdir k) := by
  cases hm : w.markedFile cfg p with
  | none => rw [marked_of_markedFile_none hm]
  | some k' =>
    obtain ⟨_, _, _, _, _, _, hmarked⟩ := marked_of_markedFile hm
    rw [hmarked, files_wrote_of_ne fun heq => h (hm.trans (congrArg some heq.symm))]

/-- Marking a parent as a directory leaves the parent relation of every file as it
    is; a write that fails midway may leave anything. -/
theorem parentUid_marked (hL : cfg.ical.Lawful) (p : NodeId) (k : CStr) :
    (w.marked cfg p).parentUid cfg k = w.parentUid cfg k ∨
      ∃ left, w.outcome = .writeFailed left ∧
        (w.marked cfg p).parentUid cfg k =
          (cfg.ical.newFromString left).bind (getParentUid cfg.ical) := by
  cases he : w.store.entry p with
  | none => exact .inl (by rw [marked_of_entry_none he])
  | some e =>
    cases hc : w.component cfg p with
    | none => exact .inl (by unfold World.marked; rw [he, hc])
    | some pic =>
      have hpic : w.fileComponent cfg e.filenameVdir = some pic :=
        (component_of_entry he).symm.trans hc
      unfold World.marked
      rw [he, hc]
      simp only
      split
      · exact .inl rfl
      -- Only the file of the marked node is written, and its mark is no relation.
      by_cases hk : k = e.filenameVdir
      · subst hk
        cases ho : w.outcome with
        | openFailed =>
          refine .inl ?_
          unfold World.parentUid
          rw [fileComponent_openFailed ho]
        | writeFailed left =>
          refine .inr ⟨left, rfl, ?_⟩
          unfold World.parentUid
          rw [fileComponent_writeFailed ho]
        | written =>
          refine .inl ?_
          have hparsed := parsed_of_fileComponent hL hpic
          unfold World.parentUid
          rw [fileComponent_wrote hL (printable_markAsDirectory _ (printable_of_parsed hparsed)) ho,
            hpic, Option.bind_some, Option.bind_some]
          exact getParentUid_marked hparsed w.now
      · refine .inl ?_
        unfold World.parentUid
        rw [fileComponent_wrote_of_ne hk]

end Agendafs
