import Agendafs.ForStd.Cursor
import Agendafs.Spec.RelationsCorrect
import Agendafs.Spec.StructuralIcal

/-!
# Removing and adding a parent

`remove_parent_child_relationship_from_component` deletes from the list that it
iterates over. It asks libical for the next RELATED-TO property before it removes
the one at hand, so of two relations side by side none is skipped. The remover
compares the value of a relation; `get_parent_uid` returns it as libical prints it.

## Key results

- `removeRelations_run`: the loop removes the relations that the model filters out
- `remove_set`: removing a parent after adding it
- `parent_edits_iff`
-/

namespace Agendafs

open Icalcomponent

variable {Text : Type} {L : Libical Text} {parent newParent child : Icalcomponent}
  {uid newUid : CStr}

/-! ## The deletion loop -/

/-- A property and the address of its structure. -/
abbrev Cell := Nat × Icalproperty

/-- The loop of `remove_parent_child_relationship_from_component` over the properties of the
    component in the calendar, for at most this many tests of its condition. -/
def removeRelations (parentUid : CStr) (fuel : Nat) (properties : Cursor Cell) :
    Option (Cursor Cell) :=
  let (prop, properties) := properties.first (·.2.kind = .relatedTo)
  properties.sweep (·.2.kind = .relatedTo)
    (fun prop => prop.2.value = parentUid &&
      prop.2.reltype.any (icalparameterGetReltype · = .parent)) fuel prop

/-- The loop ends and removes the relations to the parent, wherever the properties lie. -/
theorem removeRelations_run {properties : Cursor Cell}
    (h : (properties.items.map Prod.fst).Nodup) {fuel : Nat}
    (hfuel : (properties.items.filter (·.2.kind = .relatedTo)).length < fuel) :
    removeRelations uid fuel properties =
      some ⟨properties.items.filter (!isParentRelation uid ·.2), none⟩ := by
  unfold removeRelations
  simp only
  rw [Cursor.sweep_first (List.Nodup.of_map _ h) hfuel]
  simp only [isParentRelation, Bool.and_assoc]

/-- What is left in the list of a component are the properties that the component keeps. -/
theorem removeRelations_deletes {journal : Icalcomponent} {properties : Cursor Cell} {fuel : Nat}
    (hproperties : properties.items.map Prod.snd = journal.properties)
    (hnodup : (properties.items.map Prod.fst).Nodup)
    (hfuel : (journal.properties.filter (·.kind = .relatedTo)).length < fuel) :
    ∃ left, removeRelations uid fuel properties = some left ∧
      left.items = properties.items.filter fun cell =>
        !(hasReltype (bytes "PARENT") cell.2 && cell.2.value = uid) := by
  have hcount : (properties.items.filter (·.2.kind = .relatedTo)).length < fuel := by
    rw [← hproperties, List.filter_map, List.length_map] at hfuel
    exact hfuel
  refine ⟨_, removeRelations_run hnodup hcount, ?_⟩
  simp only [isParentRelation_eq]

theorem removeParentChildRelationshipFromComponent_run (h : parent.getUid = some uid)
    (child : Icalcomponent) :
    removeParentChildRelationshipFromComponent parent child =
      .ok (child.modifyFirstAny fun journal => { journal with
        properties := journal.properties.filter fun p =>
          !(hasReltype (bytes "PARENT") p && p.value = uid) }) := by
  unfold removeParentChildRelationshipFromComponent
  rw [h]
  simp only [isParentRelation_eq]

/-! ## Edits one after the other -/

theorem modifyFirstAny_comp (f g : Icalcomponent → Icalcomponent) (c : Icalcomponent) :
    (c.modifyFirstAny g).modifyFirstAny f = c.modifyFirstAny (f ∘ g) := by
  unfold modifyFirstAny
  cases c.components with
  | nil => rfl
  | cons a cs => rfl

theorem isParentRelation_parentRelation (uid : CStr) :
    isParentRelation uid (parentRelation uid) = true := by
  rw [isParentRelation_eq, hasReltype_parentRelation]
  exact decide_eq_true rfl

/-- The parent that has just been added is removed again. -/
theorem remove_set (h : parent.getUid = some uid) (child : Icalcomponent) :
    removeParentChildRelationshipFromComponent parent
        (setParentChildRelationshipToComponent parent child) =
      removeParentChildRelationshipFromComponent parent child := by
  unfold removeParentChildRelationshipFromComponent setParentChildRelationshipToComponent
  rw [h]
  simp only
  rw [modifyFirstAny_comp]
  refine congrArg (Except.ok <| modifyFirstAny · child) (funext fun a => ?_)
  have hadded := isParentRelation_parentRelation uid
  rw [parentRelation] at hadded
  simp only [Function.comp_apply, addProperty, List.filter_append]
  rw [List.filter_cons_of_neg (by simp [hadded]), List.filter_nil, List.append_nil]

/-! ## The parent that is read -/

/-- The note names this parent and no other. -/
def OnlyParent (uid : CStr) (child : Icalcomponent) : Prop :=
  ∃ ps, relations child = some ps ∧ ps ≠ [] ∧ ∀ p ∈ ps, p.value = uid

/-- Without its only parent the note has none. -/
theorem relations_of_onlyParent (hparent : parent.getUid = some uid) (h : OnlyParent uid child)
    {left : Icalcomponent}
    (hleft : removeParentChildRelationshipFromComponent parent child = .ok left) :
    relations left = some [] := by
  obtain ⟨ps, hps, _, hvalue⟩ := h
  rw [remove_eq_unrelated hleft, relations_unrelated, hps, Option.bind_some, hparent,
    Option.map_some]
  refine congrArg some (List.filter_eq_nil_iff.2 fun p hp => ?_)
  simp [hvalue p hp]

/-- With a new parent behind it, `get_parent_uid` returns what libical prints of its UID. -/
theorem getParentUid_set (hnew : newParent.getUid = some newUid) {left : Icalcomponent}
    (hleft : relations left = some []) :
    getParentUid L (setParentChildRelationshipToComponent newParent left) =
      some (L.valueAsString newUid) := by
  have hrelations : relations (setParentChildRelationshipToComponent newParent left) =
      (relations left).map (· ++ [parentRelation newUid]) := relations_related hnew left
  rw [hleft] at hrelations
  rw [relations] at hrelations
  rw [getParentUid_eq, hrelations]
  rfl

theorem getParentUid_none {left : Icalcomponent} (hleft : relations left = some []) :
    getParentUid L left = none := by
  rw [relations] at hleft
  rw [getParentUid_eq, hleft]
  rfl

/-- What removing and adding parents should do to a note. -/
structure ParentEdits (L : Libical Text) (parent newParent child : Icalcomponent)
    (uid newUid : CStr) : Prop where
  /-- Exactly the relations of RELTYPE PARENT with the value are deleted. -/
  removed : removeParentChildRelationshipFromComponent parent child =
    .ok (child.modifyFirstAny fun journal => { journal with
      properties := journal.properties.filter fun p =>
        !(hasReltype (bytes "PARENT") p && p.value = uid) })
  /-- And these are what the loop deletes from the properties, wherever they lie. -/
  loop : ∀ journal (properties : Cursor Cell) fuel, child.getFirstAnyComponent = some journal →
    properties.items.map Prod.snd = journal.properties →
    (properties.items.map Prod.fst).Nodup →
    (journal.properties.filter (·.kind = .relatedTo)).length < fuel →
    ∃ left, removeRelations uid fuel properties = some left ∧
      left.items = properties.items.filter fun cell =>
        !(hasReltype (bytes "PARENT") cell.2 && cell.2.value = uid)
  /-- Adding the parent before does not matter. -/
  readded : removeParentChildRelationshipFromComponent parent
      (setParentChildRelationshipToComponent parent child) =
    removeParentChildRelationshipFromComponent parent child
  /-- Instead of its only parent the note has the new one, or none. -/
  moved : OnlyParent uid child → ∀ left,
    removeParentChildRelationshipFromComponent parent child = .ok left →
    getParentUid L (setParentChildRelationshipToComponent newParent left) = some newUid ∧
      getParentUid L left = none

/-- The edits do what they should exactly when libical prints the UID of the new parent as it is,
    if the old one is the only one. -/
theorem parent_edits_iff (hparent : parent.getUid = some uid)
    (hnew : newParent.getUid = some newUid) :
    ParentEdits L parent newParent child uid newUid ↔
      (OnlyParent uid child → L.valueAsString newUid = newUid) := by
  have hremoved := removeParentChildRelationshipFromComponent_run hparent child
  constructor
  · intro h honly
    have hrelations := relations_of_onlyParent hparent honly hremoved
    have hread := (h.moved honly _ hremoved).1
    rw [getParentUid_set hnew hrelations] at hread
    exact Option.some.inj hread
  · intro h
    refine ⟨hremoved, fun _ _ _ _ => removeRelations_deletes, remove_set hparent child,
      fun honly left hleft => ?_⟩
    have hrelations := relations_of_onlyParent hparent honly hleft
    refine ⟨?_, getParentUid_none hrelations⟩
    rw [getParentUid_set hnew hrelations, h honly]

/-! ## Samples -/

/-- A note in the directory `d`, which it names twice in a row. -/
def movedNote : Icalcomponent :=
  sampleNote (bytes "n") (bytes "Note") [sampleParent (bytes "d"), sampleParent (bytes "d"),
    { kind := .relatedTo, reltype := some (bytes "CHILD"), value := bytes "d" }]

theorem onlyParent_movedNote : OnlyParent (bytes "d") movedNote :=
  ⟨[sampleParent (bytes "d"), sampleParent (bytes "d")], rfl, List.cons_ne_nil _ _,
    by simp [sampleParent]⟩

theorem parent_edits_iff_movedNote :
    ParentEdits structuralIcal (sampleNote (bytes "d") (bytes "Dir") [sampleDirectory])
      (sampleNote (bytes "e") (bytes "Else") [sampleDirectory]) movedNote (bytes "d") (bytes "e") :=
  (parent_edits_iff (L := structuralIcal) rfl rfl).2 fun _ => rfl

/-- A text as libical prints it. -/
def escapeText (v : CStr) : CStr :=
  v.flatMap fun b =>
    if b = 10 then [92, 110] else if b = 34 ∨ b = 44 ∨ b = 59 ∨ b = 92 then [92, b] else [b]

theorem escapeText_plain {v : CStr} (h : plainText v = true) : escapeText v = v := by
  unfold plainText at h
  unfold escapeText
  induction v with
  | nil => rfl
  | cons b v ih =>
    simp only [List.all_cons, Bool.and_eq_true, decide_eq_true_eq, ne_eq] at h
    obtain ⟨⟨⟨⟨⟨hctl, hcomma⟩, hsemicolon⟩, hbackslash⟩, hquote⟩, hrest⟩ := h
    have hline : b ≠ 10 := by
      rintro rfl
      exact absurd hctl (by decide)
    rw [List.flatMap_cons, ih hrest, if_neg hline,
      if_neg (by simp [hcomma, hsemicolon, hbackslash, hquote])]
    rfl

/-- A libical whose files are components and which escapes the texts that it prints. -/
def escapingIcal : Libical Icalcomponent := { structuralIcal with valueAsString := escapeText }

theorem escapingIcal_lawful : escapingIcal.Lawful where
  parsed_of_newFromString := structuralIcal_lawful.parsed_of_newFromString
  newFromString_asIcalString := structuralIcal_lawful.newFromString_asIcalString
  valueAsString_plain _ := escapeText_plain

/-- A parent whose UID has a comma is read with a backslash. -/
theorem not_all_parent_edits :
    ¬ ∀ (L : Libical Icalcomponent) (parent newParent child : Icalcomponent) (uid newUid : CStr),
      L.Lawful → parent.getUid = some uid → newParent.getUid = some newUid → uid ≠ newUid →
        ParentEdits L parent newParent child uid newUid := by
  intro hall
  have hedits := hall escapingIcal (sampleNote (bytes "d") (bytes "Dir") [sampleDirectory])
    (sampleNote (bytes "a,b") (bytes "Else") [sampleDirectory]) movedNote (bytes "d") (bytes "a,b")
    escapingIcal_lawful rfl rfl (by decide)
  have hread := (hedits.moved onlyParent_movedNote _ rfl).1
  revert hread
  decide +kernel

end Agendafs
