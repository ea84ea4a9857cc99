import Agendafs.Spec.EditsCorrect

/-!
# The parent relations of a note

`get_parent_uid` reads the first property RELATED-TO of RELTYPE PARENT. A rename
takes out those with the UID of the old parent and appends one with the UID of
the new; every other edit keeps them.

## Key results

- `getParentUid_relations`: the parent UID of a component
- `relations_unrelated`, `relations_related`: what a rename does to the relations
-/

namespace Agendafs

open Icalcomponent Store

variable {Text : Type} {cfg : Config Text} {w v : World Text}

/-! ## UIDs and relations -/

/-- The UID in the file of a node; the root has none. -/
def World.uid (cfg : Config Text) (w : World Text) (n : NodeId) : Option CStr :=
  (w.component cfg n).bind (·.getUid)

/-- The files of the nodes parse and are called by their UIDs. -/
def World.WellNamed (cfg : Config Text) (w : World Text) : Prop :=
  ∀ n e, w.store.entry n = some e →
    ∃ uid, w.uid cfg n = some uid ∧ e.filenameVdir = uid ++ bytes ".ics"

/-- The names of the files are known from those of the nodes that have been allocated. -/
theorem wellNamed_of_check (hs : w.store.Sound)
    (h : ∀ n < w.store.nextId, (w.store.entry n).all (fun e =>
      (w.uid cfg n).any fun uid => e.filenameVdir = uid ++ bytes ".ics") = true) :
    w.WellNamed cfg := by
  intro n e he
  have hn := h n (hs.lt_nextId n (live_of_entry he))
  rw [he, Option.all_some, Option.any_eq_true] at hn
  obtain ⟨uid, huid, hk⟩ := hn
  exact ⟨uid, huid, of_decide_eq_true hk⟩

/-- What is read for a node is a parsed component with a UID. -/
theorem World.WellNamed.component (h : w.WellNamed cfg) (hL : cfg.ical.Lawful) {n : NodeId}
    {c : Icalcomponent} (hc : w.component cfg n = some c) :
    c.parsed = true ∧ ∃ uid, c.getUid = some uid := by
  obtain ⟨e, he⟩ := exists_entry_of_component hc
  obtain ⟨uid, huid, _⟩ := h n e he
  rw [World.uid, hc, Option.bind_some] at huid
  rw [component_of_entry he] at hc
  exact ⟨parsed_of_fileComponent hL hc, uid, huid⟩

/-- The relations of RELTYPE PARENT in a component. -/
def relations (c : Icalcomponent) : Option (List Icalproperty) :=
  c.view anyKind (hasReltype (bytes "PARENT"))

theorem getParentUid_relations (c : Icalcomponent) :
    getParentUid cfg.ical c = ((relations c).bind (·.head?)).map (cfg.ical.valueAsString ·.value) :=
  getParentUid_eq cfg.ical c

/-- The relation of a note to a parent. -/
def parentRelation (uid : CStr) : Icalproperty :=
  { kind := .relatedTo, reltype := some (bytes "PARENT"), value := uid }

theorem hasReltype_parentRelation (uid : CStr) :
    hasReltype (bytes "PARENT") (parentRelation uid) = true := rfl

/-- What the remover takes out are the relations of RELTYPE PARENT with the UID. -/
theorem isParentRelation_eq (uid : CStr) (p : Icalproperty) :
    isParentRelation uid p = (hasReltype (bytes "PARENT") p && p.value = uid) := by
  have hreltype : ∀ s : CStr, decide (icalparameterGetReltype s = .parent) =
      strcaseEq s (bytes "PARENT") := by
    intro s
    unfold icalparameterGetReltype
    cases strcaseEq s (bytes "PARENT") with
    | true => rfl
    | false =>
      simp only [Bool.false_eq_true, if_false]
      split
      · rfl
      · split <;> rfl
  simp only [isParentRelation, hasReltype, hreltype, Bool.and_assoc, Bool.and_comm,
    Bool.and_left_comm]

/-! ## After a rename -/

theorem onlyKind_isParentRelation (uid : CStr) : OnlyKind .relatedTo (isParentRelation uid) :=
  fun p hp => by
    simp only [isParentRelation, Bool.and_eq_true, decide_eq_true_eq] at hp
    exact hp.1.1

/-- Without a relation to the old parent. -/
theorem view_unrelated (q : Icalproperty → Bool) {parent : Icalcomponent} {uid : CStr}
    (huid : parent.getUid = some uid) (c : Icalcomponent) :
    (unrelated (some parent) c).view anyKind q =
      (c.view anyKind q).map (·.filter (!isParentRelation uid ·)) := by
  unfold unrelated
  rw [Option.bind_some, huid]
  simp only
  rw [view_modifyFirstAny, view_any, Option.map_map]
  refine congrArg (Option.map · _) (funext fun a => ?_)
  rw [Function.comp_apply, List.filter_filter, List.filter_filter]
  exact List.filter_congr fun p _ => Bool.and_comm ..

/-- With the relation to the new parent behind the others. -/
theorem view_related {q : Icalproperty → Bool} {parent : Icalcomponent} {uid : CStr}
    (huid : parent.getUid = some uid) (hq : q (parentRelation uid) = true) (c : Icalcomponent) :
    (related (some parent) c).view anyKind q =
      (c.view anyKind q).map (· ++ [parentRelation uid]) := by
  unfold related setParentChildRelationshipToComponent
  simp only [huid]
  exact view_addProperty hq c

/-- A rename takes out the relations to the old parent. -/
theorem relations_unrelated (source : Option Icalcomponent) (c : Icalcomponent) :
    relations (unrelated source c) =
      (relations c).map (·.filter (some ·.value ≠ source.bind (·.getUid))) := by
  cases huid : source.bind (·.getUid) with
  | none =>
    -- No old UID: nothing is taken out, and every value differs from none.
    have hself : unrelated source c = c := by
      unfold unrelated
      rw [huid]
    rw [hself]
    cases relations c with
    | none => rfl
    | some ps =>
      exact congrArg some (List.filter_eq_self.2 fun p _ =>
        decide_eq_true (Option.some_ne_none _)).symm
  | some uid =>
    obtain ⟨parent, rfl, huid⟩ := Option.bind_eq_some_iff.1 huid
    unfold relations
    rw [view_unrelated _ huid]
    cases hps : c.view anyKind (hasReltype (bytes "PARENT")) with
    | none => rfl
    | some ps =>
      refine congrArg some (List.filter_congr fun p hp => ?_)
      rw [isParentRelation_eq, view_prop hps hp, Bool.true_and, ← decide_not]
      exact decide_eq_decide.2 (not_congr (Option.some.injEq ..).to_iff.symm)

/-- And it puts the relation to the new one behind the others. -/
theorem relations_related {parent : Icalcomponent} {uid : CStr} (huid : parent.getUid = some uid)
    (c : Icalcomponent) :
    relations (related (some parent) c) = (relations c).map (· ++ [parentRelation uid]) :=
  view_related huid (hasReltype_parentRelation uid) c

/-! ## After other edits -/

/-- Writing and reading back drops the relations without text. -/
theorem relations_reread (c : Icalcomponent) :
    relations c.reread = (relations c).map (·.filter (·.value ≠ [])) :=
  view_reread ((onlyKind_hasReltype _).ne_categories (by decide)) _ _

theorem relations_of_keeps {f : Icalcomponent → Icalcomponent}
    (hf : Keeps (hasReltype (bytes "PARENT")) f) (c : Icalcomponent) :
    relations (f c) = relations c := hf.view _ _

theorem keeps_relations_stamp (now : CStr) : Keeps (hasReltype (bytes "PARENT")) (stamp now) :=
  keeps_stamp (onlyKind_hasReltype _) (by decide) now

theorem keeps_relations_renamedNote (n : NodeId) (k x : CStr) :
    Keeps (hasReltype (bytes "PARENT")) (v.renamedNote cfg n k x) :=
  keeps_renamedNote (onlyKind_hasReltype _) (by decide)
    (fun p hp => (onlyKind_hasReltype _).eq_false (by rw [onlyKind_isXProp _ p hp]; decide)) n k x

end Agendafs
