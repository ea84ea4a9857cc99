import Agendafs.Spec.RelationsCorrect
import Agendafs.Spec.Siblings
import Agendafs.Spec.WritesCorrect

/-!
# The move of a rename

`fuse_rename` first removes what the new path names, `World.cleared`, and then
moves the note of the old path, as `World.move` says, or is turned down. So a
rename that returns 0 is known by the state it began in: the writes it made, and
the component it left in the file.

## Key results

- `renames_of_run`: a rename returns 0 exactly when there is a move
- `renames_writes`, `fileComponent_after`: what its writes leave
- `stored_eq_edited_iff`: when the file holds the component as it was edited last
-/

namespace Agendafs

open Icalcomponent Store

variable {Text : Type} {cfg : Config Text} {w w' v : World Text}

/-- What a rename moves: the node, its file and component, and the parents. -/
structure Move where
  node : NodeId
  filenameVdir : CStr
  note : Icalcomponent
  source : NodeId
  target : NodeId

/-- The state in which a note is moved to the path: a note there has been removed.
    There is none if it has children or its file cannot be removed. -/
def World.cleared (cfg : Config Text) (w : World Text) (new : CStr) : Option (World Text) :=
  match w.store.lookup new with
  | none => some w
  | some n => (w.store.entry n).bind fun e =>
    if w.store.links.children n = [] ∧ w.removeSucceeds cfg e.filenameVdir = true then
      some (w.removed cfg n e.filenameVdir)
    else none

/-- The move from one path to another. -/
def World.move (cfg : Config Text) (w : World Text) (old new : CStr) : Option Move := do
  let target ← (getParentPath new).bind w.store.lookup
  let node ← w.store.lookup old
  let entry ← w.store.entry node
  let note ← w.component cfg node
  let source ← w.store.links.parent node
  some ⟨node, entry.filenameVdir, note, source, target⟩

/-- The move of a rename, with the state it starts from. -/
def World.renames (cfg : Config Text) (w : World Text) (old new : CStr) :
    Option (World Text × Move) :=
  (w.cleared cfg new).bind fun v => (v.move cfg old new).map (v, ·)

/-- The state after a move under a new name. -/
def Move.after (cfg : Config Text) (v : World Text) (m : Move) (name : CStr) : World Text :=
  v.moved cfg m.node m.filenameVdir name m.note m.target m.source

/-- What a move leaves in the file. -/
def Move.stored (cfg : Config Text) (v : World Text) (m : Move) (name : CStr) : Icalcomponent :=
  v.storedNote cfg m.node m.filenameVdir name m.note m.target m.source

/-- The component as a move edits it last. -/
def Move.edited (cfg : Config Text) (v : World Text) (m : Move) (name : CStr) : Icalcomponent :=
  let note := v.movedNote cfg m.node m.filenameVdir name m.note m.target m.source
  if (v.component cfg m.target).isSome then
    stamp (v.renamed cfg m.node m.filenameVdir name m.note).now note
  else note

/-- The move takes a relation out of the component and does not write it again: the
    new parent has no component, and the note has a relation to the old one. -/
def Move.DropsRelation (cfg : Config Text) (v : World Text) (m : Move) : Prop :=
  v.component cfg m.target = none ∧
    ∃ uid, (v.component cfg m.source).bind (·.getUid) = some uid ∧
      m.note.getFirstAnyComponent.any (·.properties.any (isParentRelation uid)) = true

theorem move_eq_some {old new : CStr} {m : Move} :
    w.move cfg old new = some m ↔
      (∃ parentPath, getParentPath new = some parentPath ∧
        w.store.lookup parentPath = some m.target) ∧
      w.store.lookup old = some m.node ∧
      (∃ e, w.store.entry m.node = some e ∧ e.filenameVdir = m.filenameVdir) ∧
      w.component cfg m.node = some m.note ∧ w.store.links.parent m.node = some m.source := by
  unfold World.move
  simp only [Option.bind_eq_bind, Option.bind_eq_some_iff, Option.some.injEq]
  constructor
  · rintro ⟨p, ⟨parentPath, hnew, hp⟩, n, hn, e, he, ics, hics, q, hq, rfl⟩
    exact ⟨⟨parentPath, hnew, hp⟩, hn, ⟨e, he, rfl⟩, hics, hq⟩
  · rintro ⟨⟨parentPath, hnew, hp⟩, hn, ⟨e, he, hk⟩, hics, hq⟩
    exact ⟨m.target, ⟨parentPath, hnew, hp⟩, m.node, hn, e, he, m.note, hics, m.source, hq,
      by rw [hk]⟩

theorem AgendaRenamed.cases {old new : CStr} {status : Int}
    (hc : AgendaRenamed cfg v old new status w') :
    (∃ m, v.move cfg old new = some m ∧ status = 0 ∧ w' = m.after cfg v (getFilename new)) ∨
      v.move cfg old new = none ∧ status < 0 ∧ w' = v := by
  cases hc with
  | noParent hnew hp =>
    refine .inr ⟨?_, by decide, rfl⟩
    unfold World.move
    rw [hnew, Option.bind_some, hp]
    rfl
  | moved hnew hp hn he hics hq =>
    exact .inl ⟨⟨_, _, _, _, _⟩, move_eq_some.2 ⟨⟨_, hnew, hp⟩, hn, ⟨_, he, rfl⟩, hics, hq⟩, rfl,
      rfl⟩

theorem cleared_of_none {new : CStr} (hn : w.store.lookup new = none) :
    w.cleared cfg new = some w := by
  simp only [World.cleared, hn]

theorem cleared_of_entry {new : CStr} {n : NodeId} {e : AgendaEntry}
    (hn : w.store.lookup new = some n) (he : w.store.entry n = some e) :
    w.cleared cfg new =
      if w.store.links.children n = [] ∧ w.removeSucceeds cfg e.filenameVdir = true then
        some (w.removed cfg n e.filenameVdir)
      else none := by
  simp only [World.cleared, hn, he, Option.bind_some]

theorem cleared_of_children {new : CStr} {n : NodeId} (hn : w.store.lookup new = some n)
    (hchildren : w.store.links.children n ≠ []) : w.cleared cfg new = none := by
  simp only [World.cleared, hn]
  cases w.store.entry n with
  | none => rfl
  | some e => exact if_neg fun h => hchildren h.1

/-- The state before the move differs in the note that was in the way. -/
theorem cleared_eq_some {new : CStr} (hv : w.cleared cfg new = some v) :
    v = w ∨ ∃ n e, w.store.lookup new = some n ∧ w.store.entry n = some e ∧
      w.store.links.children n = [] ∧ v = w.removed cfg n e.filenameVdir := by
  unfold World.cleared at hv
  cases hn : w.store.lookup new with
  | none =>
    rw [hn] at hv
    exact .inl (Option.some.inj hv).symm
  | some n =>
    rw [hn] at hv
    obtain ⟨e, he, hv⟩ := Option.bind_eq_some_iff.1 hv
    split at hv
    · rename_i hr
      exact .inr ⟨n, e, rfl, he, hr.1, (Option.some.inj hv).symm⟩
    · exact nomatch hv

/-- Removing what is in the way writes no file. -/
theorem cleared_writes {new : CStr} (hv : w.cleared cfg new = some v) :
    v.env.writes = w.env.writes := by
  obtain rfl | ⟨n, e, _, _, _, rfl⟩ := cleared_eq_some hv
  · rfl
  · rfl

theorem Renamed.cases {old new : CStr} {status : Int} (hc : Renamed cfg w old new status w') :
    (∃ v m, w.renames cfg old new = some (v, m) ∧ status = 0 ∧
        w' = m.after cfg v (getFilename new)) ∨
      w.renames cfg old new = none ∧ status < 0 ∧ w'.env.writes = w.env.writes := by
  have moved : ∀ {v}, w.cleared cfg new = some v → AgendaRenamed cfg v old new status w' →
      (∃ v m, w.renames cfg old new = some (v, m) ∧ status = 0 ∧
        w' = m.after cfg v (getFilename new)) ∨
      w.renames cfg old new = none ∧ status < 0 ∧ w'.env.writes = w.env.writes := by
    intro v hv hc
    unfold World.renames
    rw [hv, Option.bind_some]
    rcases hc.cases with ⟨m, hm, hs, hw⟩ | ⟨hm, hs, hw⟩
    · exact .inl ⟨v, m, by rw [hm]; rfl, hs, hw⟩
    · exact .inr ⟨by rw [hm]; rfl, hs, by rw [hw, cleared_writes hv]⟩
  -- Turned down before anything is moved.
  have stays : w.cleared cfg new = none → w.renames cfg old new = none := fun hv => by
    unfold World.renames
    rw [hv]
    rfl
  cases hc with
  | notEmpty hn hchildren => exact .inr ⟨stays (cleared_of_children hn hchildren), by decide, rfl⟩
  | removeFailed hn he _ hr =>
    refine .inr ⟨stays ?_, by decide, rfl⟩
    rw [cleared_of_entry hn he]
    exact if_neg fun h => Bool.false_ne_true (hr.symm.trans h.2)
  | replaced hn he hchildren hr h =>
    refine moved ?_ h
    rw [cleared_of_entry hn he]
    exact if_pos ⟨hchildren, hr⟩
  | fresh hn h => exact moved (cleared_of_none hn) h

/-- A rename that returns 0 has made its move. -/
theorem renames_of_run (h : Reachable cfg w) {old new : CStr} {flags : Nat}
    (hv : (Op.rename old new flags).Valid cfg w)
    (hrun : exec cfg (.rename old new flags) w = .ok (0, w')) :
    ∃ v m, w.renames cfg old new = some (v, m) ∧ w' = m.after cfg v (getFilename new) := by
  rcases Renamed.cases (exec_effect h.sound hv hrun) with ⟨v, m, hm, _, hw⟩ | ⟨_, hs, _⟩
  · exact ⟨v, m, hm, hw⟩
  · exact absurd hs (Int.lt_irrefl 0)

theorem renames_eq_some {old new : CStr} {m : Move}
    (hm : w.renames cfg old new = some (v, m)) :
    w.cleared cfg new = some v ∧ v.move cfg old new = some m := by
  obtain ⟨v', hv, hm⟩ := Option.bind_eq_some_iff.1 hm
  obtain ⟨m', hm, heq⟩ := Option.map_eq_some_iff.1 hm
  cases heq
  exact ⟨hv, hm⟩

/-- The component of a note that is moved is one the parser yields. -/
theorem parsed_note (hL : cfg.ical.Lawful) {old new : CStr} {m : Move}
    (hm : w.renames cfg old new = some (v, m)) : m.note.parsed = true := by
  obtain ⟨_, _, ⟨e, he, _⟩, hnote, _⟩ := move_eq_some.1 (renames_eq_some hm).2
  rw [component_of_entry he] at hnote
  exact parsed_of_fileComponent hL hnote

/-- The tree a move starts from is sound. -/
theorem renames_sound (h : w.store.Sound) {old new : CStr} {m : Move}
    (hm : w.renames cfg old new = some (v, m)) : v.store.Sound := by
  obtain rfl | ⟨n, e, _, he, hchildren, rfl⟩ := cleared_eq_some (renames_eq_some hm).1
  · exact h
  · exact h.delete he hchildren

/-- Removing what is in the way changes nothing about the move. -/
theorem move_removed (h : w.store.Sound) {old new : CStr} {flags : Nat}
    (hv : (Op.rename old new flags).Valid cfg w) {n : NodeId} {e : AgendaEntry} {m : Move}
    (hn : w.store.lookup new = some n) (he : w.store.entry n = some e)
    (hc : w.store.links.children n = [])
    (hm : (w.removed cfg n e.filenameVdir).move cfg old new = some m) :
    w.move cfg old new = some m ∧ m.node ≠ n ∧ m.source ≠ n ∧ m.target ≠ n := by
  obtain ⟨⟨parentPath, hnew, htarget⟩, hnode, ⟨e', he', hk⟩, hnote, hsource⟩ := move_eq_some.1 hm
  have hlinks : (w.removed cfg n e.filenameVdir).store.links = w.store.links.detach n :=
    h.links_delete hc _
  obtain ⟨c, hold⟩ := Option.isSome_iff_exists.1 hv.1
  -- The old path is not above the new one, so it leads to another node.
  have hcn : c ≠ n := fun hcn =>
    hv.2.1 (h.wf.prefix_of_below h.root_parent hold hn (hcn ▸ .refl))
  have hnc : m.node = c := Option.some.inj (hnode.symm.trans (lookup_removed h.toInv hc hold hcn))
  obtain ⟨p, hp, hp', hpn⟩ := lookup_parent_removed (k := e.filenameVdir) h.toInv hnew hv.2.2 hn hc
  have htp : m.target = p := Option.some.inj (htarget.symm.trans hp')
  have hne : m.node ≠ n := hnc ▸ hcn
  have hparent : w.store.links.parent m.node = some m.source := by
    rw [hlinks, Links.detach_parent, Function.update_of_ne hne] at hsource
    exact hsource
  refine ⟨move_eq_some.2 ⟨⟨parentPath, hnew, htp ▸ hp⟩, hnc ▸ hold, ⟨e', ?_, hk⟩, ?_, hparent⟩, hne,
    ?_, htp ▸ hpn⟩
  · rw [← he']
    exact ((Inv.delete_entry ..).trans (if_neg hne)).symm
  · rw [← hnote, component_removed h.toInv he hne]
  · rintro hsn
    rw [← h.wf.mem_children, hsn, hc] at hparent
    exact nomatch hparent

/-- So it can be described in the state before the call. -/
theorem move_of_renames (h : w.store.Sound) {old new : CStr} {flags : Nat}
    (hv : (Op.rename old new flags).Valid cfg w) {m : Move}
    (hm : w.renames cfg old new = some (v, m)) :
    w.move cfg old new = some m ∧ v.component cfg m.source = w.component cfg m.source ∧
      v.component cfg m.target = w.component cfg m.target := by
  obtain ⟨hcleared, hmove⟩ := renames_eq_some hm
  obtain rfl | ⟨n, e, hn, he, hc, rfl⟩ := cleared_eq_some hcleared
  · exact ⟨hmove, rfl, rfl⟩
  · obtain ⟨hmove, _, hsource, htarget⟩ := move_removed h hv hn he hc hmove
    exact ⟨hmove, component_removed h.toInv he hsource, component_removed h.toInv he htarget⟩

/-- The writes a rename has made. -/
theorem renames_writes {old new : CStr} {m : Move} (hm : w.renames cfg old new = some (v, m))
    (name : CStr) :
    w.madeWrites (m.after cfg v name) = w.env.writes.take (v.moveWrites cfg name m.target) := by
  refine madeWrites_eq ?_
  rw [← cleared_writes (renames_eq_some hm).1]
  exact moved_writes

/-- When all writes succeed, the file holds what the move stores. -/
theorem after_holds {m : Move} {name : CStr} (h : v.AllWritten (v.moveWrites cfg name m.target)) :
    (m.after cfg v name).Holds cfg m.filenameVdir (m.stored cfg v name) := moved_content h

/-- When all writes of a rename succeed, its component is read back from the file. -/
theorem fileComponent_after (hL : cfg.ical.Lawful) {old new : CStr} {m : Move}
    (hm : w.renames cfg old new = some (v, m))
    (hwritten : ∀ x ∈ w.madeWrites (m.after cfg v (getFilename new)), x = .written) :
    (m.after cfg v (getFilename new)).fileComponent cfg m.filenameVdir =
      some (m.stored cfg v (getFilename new)).reread := by
  rw [renames_writes hm] at hwritten
  have hall : v.AllWritten (v.moveWrites cfg (getFilename new) m.target) :=
    (World.AllWritten.congr (cleared_writes (renames_eq_some hm).1)).2 hwritten
  exact (after_holds hall).fileComponent hL
    (printable_storedNote (printable_of_parsed (parsed_note hL hm)))

/-! ## The last edit and the last write -/

/-- Taking out what is not there changes nothing. -/
theorem unrelated_eq_self {uid : CStr} {q c : Icalcomponent} (huid : q.getUid = some uid)
    (hc : c.getFirstAnyComponent.any (·.properties.any (isParentRelation uid)) = false) :
    unrelated (some q) c = c := by
  obtain ⟨kind, properties, components⟩ := c
  unfold unrelated
  rw [Option.bind_some, huid]
  unfold modifyFirstAny
  cases components with
  | nil => rfl
  | cons a as =>
    have ha : a.properties.filter (!isParentRelation uid ·) = a.properties := by
      refine List.filter_eq_self.2 fun p hp => ?_
      cases hr : isParentRelation uid p with
      | false => rfl
      | true =>
        have hany : a.properties.any (isParentRelation uid) = true := List.any_eq_true.2 ⟨p, hp, hr⟩
        exact absurd (hany.symm.trans hc) (by decide)
    simp only [modifyFirst, if_true]
    rw [ha]
    cases a
    rfl

/-- The file holds the component as it was edited last, unless a relation is dropped. -/
theorem stored_eq_edited_iff (hL : cfg.ical.Lawful) {m : Move} (hm : m.note.parsed = true)
    (name : CStr) :
    cfg.ical.asIcalString (m.stored cfg v name) = cfg.ical.asIcalString (m.edited cfg v name) ↔
      ¬ m.DropsRelation cfg v := by
  unfold Move.stored Move.edited World.storedNote World.movedNote Move.DropsRelation
  cases htarget : v.component cfg m.target with
  | some pic => exact iff_of_true rfl fun h => nomatch h.1
  | none =>
    have hprintable := printable_of_parsed hm
    have hrenamed : (v.renamedNote cfg m.node m.filenameVdir name m.note).printable = true :=
      printable_renamedNote _ _ _ _ hprintable
    simp only [Option.isSome_none, Bool.false_eq_true, if_false, true_and, related]
    cases hsource : v.component cfg m.source with
    | none => exact iff_of_true rfl fun ⟨_, huid, _⟩ => nomatch huid
    | some qic =>
      rw [Option.bind_some]
      cases huid : qic.getUid with
      | none =>
        refine iff_of_true ?_ fun ⟨_, h, _⟩ => nomatch h
        rw [unrelated, Option.bind_some, huid]
      | some uid =>
        have honly := onlyKind_isParentRelation uid
        -- Renaming leaves the relations as they were.
        have hview : (v.renamedNote cfg m.node m.filenameVdir name m.note).view anyKind
            (isParentRelation uid) = m.note.view anyKind (isParentRelation uid) :=
          (keeps_renamedNote honly (by decide) (fun p hp => honly.eq_false (by
            rw [onlyKind_isXProp _ p hp]; decide)) _ _ _).view _ _
        have hany : ∀ c : Icalcomponent, c.getFirstAnyComponent.any
            (·.properties.any (isParentRelation uid)) = (c.view anyKind (isParentRelation uid)).any
              (· ≠ []) := any_view_any _
        constructor
        · rintro htext ⟨_, huid', hrel⟩
          cases huid'
          -- The relation is read back from the one text but not from the other.
          have hback := congrArg cfg.ical.newFromString htext
          rw [hL.newFromString_asIcalString _ hrenamed,
            hL.newFromString_asIcalString _ (printable_unrelated _ _ hrenamed)] at hback
          have hviews := congrArg (fun c => (c.view anyKind (isParentRelation uid)).any (· ≠ []))
            (Option.some.inj hback)
          rw [hany] at hrel
          simp only [view_reread (honly.ne_categories (by decide))] at hviews
          rw [hview, view_filter_of_parsed hm, hrel, view_unrelated _ huid, hview] at hviews
          cases hps : m.note.view anyKind (isParentRelation uid) with
          | none => rw [hps] at hviews; exact nomatch hviews
          | some ps =>
            have hgone : ps.filter (!isParentRelation uid ·) = [] := by
              refine List.filter_eq_nil_iff.2 fun p hp => ?_
              rw [view_prop hps hp]
              decide
            rw [hps, Option.map_some, hgone] at hviews
            exact nomatch hviews
        · intro hno
          have hnone : (v.renamedNote cfg m.node m.filenameVdir name
              m.note).getFirstAnyComponent.any (·.properties.any (isParentRelation uid)) = false := by
            cases hr : m.note.getFirstAnyComponent.any
                (·.properties.any (isParentRelation uid)) with
            | false => rw [hany, hview, ← hany, hr]
            | true => exact absurd ⟨uid, rfl, hr⟩ hno
          rw [unrelated_eq_self huid hnone]

end Agendafs
