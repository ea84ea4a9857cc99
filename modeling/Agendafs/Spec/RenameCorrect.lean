import Agendafs.Spec.OperationsCorrect

/-!
# What renaming comes to

`do_agenda_rename` renames the node, writes its file once for the summary and,
if the new name has an extension, once for the extension, takes the relation to
the old parent out of the component, moves the node, and writes the relation to
the new parent, if that has a component. `World.moved` and `movedNote` follow
these steps; `Renamed` lists the ways `fuse_rename` can end, and `Effect` those of
any call.

## Key results

- `wp_doAgendaRename`, `wp_fuseRename`
- `wp_exec`: a call on a sound state has its effect or stops visibly
-/

namespace Agendafs

open Store

variable {Text : Type} {cfg : Config Text} {w : World Text}

/-! ## The steps of a rename -/

/-- The component without its relation to the old parent. -/
def unrelated (oldParentIcs : Option Icalcomponent) (childIcs : Icalcomponent) : Icalcomponent :=
  match oldParentIcs.bind (·.getUid) with
  | some uid => childIcs.modifyFirstAny fun inner =>
      { inner with properties := inner.properties.filter (!isParentRelation uid ·) }
  | none => childIcs

/-- The component with its relation to the new parent. -/
def related (newParentIcs : Option Icalcomponent) (childIcs : Icalcomponent) : Icalcomponent :=
  match newParentIcs with
  | some newParentIcs => setParentChildRelationshipToComponent newParentIcs childIcs
  | none => childIcs

/-- The state after the node has its new name and the new summary is written. -/
def World.titled (cfg : Config Text) (w : World Text) (c : NodeId) (filenameVdir name : CStr)
    (ics : Icalcomponent) : World Text :=
  World.wrote cfg { w with store := w.store.rename c name } filenameVdir (updatedSummary cfg name ics)

/-- The component after that. -/
def World.titledNote (cfg : Config Text) (w : World Text) (name : CStr) (ics : Icalcomponent) :
    Icalcomponent := stamp w.now (updatedSummary cfg name ics)

/-- The state after the new extension, if there is one, is written. -/
def World.extended (cfg : Config Text) (w : World Text) (filenameVdir name : CStr)
    (ics : Icalcomponent) : World Text :=
  match getFileExtension name with
  | none => w
  | some ext => w.wrote cfg filenameVdir (icalcomponentSetFileExtension ics ext)

/-- The component after that. -/
def World.extendedNote (w : World Text) (name : CStr) (ics : Icalcomponent) : Icalcomponent :=
  match getFileExtension name with
  | none => ics
  | some ext => stamp w.now (icalcomponentSetFileExtension ics ext)

/-- The node a rename moves to: the root, when the new parent has no component. -/
def World.newParent (cfg : Config Text) (w : World Text) (p : NodeId) : NodeId :=
  if (w.component cfg p).isSome then p else w.store.fuseRoot

/-- The state after the new name is written. -/
def World.renamed (cfg : Config Text) (w : World Text) (c : NodeId) (filenameVdir name : CStr)
    (ics : Icalcomponent) : World Text :=
  (w.titled cfg c filenameVdir name ics).extended cfg filenameVdir name (w.titledNote cfg name ics)

/-- The component after the new name is written. -/
def World.renamedNote (cfg : Config Text) (w : World Text) (c : NodeId) (filenameVdir name : CStr)
    (ics : Icalcomponent) : Icalcomponent :=
  (w.titled cfg c filenameVdir name ics).extendedNote name (w.titledNote cfg name ics)

/-- The component as a rename from parent `q` to parent `p` edits it last. -/
def World.movedNote (cfg : Config Text) (w : World Text) (c : NodeId) (filenameVdir name : CStr)
    (ics : Icalcomponent) (p q : NodeId) : Icalcomponent :=
  related (w.component cfg p)
    (unrelated (w.component cfg q) (w.renamedNote cfg c filenameVdir name ics))

/-- The state after a rename from parent `q` to parent `p`. -/
def World.moved (cfg : Config Text) (w : World Text) (c : NodeId) (filenameVdir name : CStr)
    (ics : Icalcomponent) (p q : NodeId) : World Text :=
  let v := w.renamed cfg c filenameVdir name ics
  let v := { v with store := w.store.place (w.newParent cfg p) c name }
  if (w.component cfg p).isSome then
    v.wrote cfg filenameVdir (w.movedNote cfg c filenameVdir name ics p q)
  else v

@[simp] theorem titled_store (c : NodeId) (k x : CStr) (ics : Icalcomponent) :
    (w.titled cfg c k x ics).store = w.store.rename c x := rfl

@[simp] theorem extended_store (k x : CStr) (ics : Icalcomponent) :
    (w.extended cfg k x ics).store = w.store := by
  unfold World.extended
  split <;> rfl

@[simp] theorem renamed_store (c : NodeId) (k x : CStr) (ics : Icalcomponent) :
    (w.renamed cfg c k x ics).store = w.store.rename c x := by
  rw [World.renamed, extended_store, titled_store]

@[simp] theorem moved_store (c : NodeId) (k x : CStr) (ics : Icalcomponent) (p q : NodeId) :
    (w.moved cfg c k x ics p q).store = w.store.place (w.newParent cfg p) c x := by
  unfold World.moved
  simp only
  split <;> rfl

/-- What `do_agenda_rename` can come to. -/
inductive AgendaRenamed (cfg : Config Text) (w : World Text) (old new : CStr) :
    Int → World Text → Prop
  | noParent {newParentPath : CStr} (hnew : getParentPath new = some newParentPath)
      (hp : w.store.lookup newParentPath = none) : AgendaRenamed cfg w old new (-EINVAL) w
  | moved {newParentPath : CStr} {p c q : NodeId} {e : AgendaEntry} {ics : Icalcomponent}
      (hnew : getParentPath new = some newParentPath)
      (hp : w.store.lookup newParentPath = some p) (hc : w.store.lookup old = some c)
      (he : w.store.entry c = some e) (hics : w.component cfg c = some ics)
      (hq : w.store.links.parent c = some q) :
      AgendaRenamed cfg w old new 0 (w.moved cfg c e.filenameVdir (getFilename new) ics p q)

/-- What `fuse_rename` can come to. -/
inductive Renamed (cfg : Config Text) (w : World Text) (old new : CStr) : Int → World Text → Prop
  | notEmpty {n : NodeId} (hn : w.store.lookup new = some n)
      (hchildren : w.store.links.children n ≠ []) : Renamed cfg w old new (-ENOTEMPTY) w
  | removeFailed {n : NodeId} {e : AgendaEntry} (hn : w.store.lookup new = some n)
      (he : w.store.entry n = some e) (hchildren : w.store.links.children n = [])
      (hr : w.removeSucceeds cfg e.filenameVdir = false) :
      Renamed cfg w old new (- EIO) w.removeTick
  | replaced {n : NodeId} {e : AgendaEntry} {status : Int} {w' : World Text}
      (hn : w.store.lookup new = some n) (he : w.store.entry n = some e)
      (hchildren : w.store.links.children n = [])
      (hr : w.removeSucceeds cfg e.filenameVdir = true)
      (h : AgendaRenamed cfg (w.removed cfg n e.filenameVdir) old new status w') :
      Renamed cfg w old new status w'
  | fresh {status : Int} {w' : World Text} (hn : w.store.lookup new = none)
      (h : AgendaRenamed cfg w old new status w') : Renamed cfg w old new status w'

/-! ## The code takes these steps -/

theorem updateSummary_run {n : NodeId} {e : AgendaEntry} (he : w.store.entry n = some e)
    (ics : Icalcomponent) :
    updateSummary cfg ics n w = .ok (stamp w.now (updatedSummary cfg e.filename ics),
      w.wrote cfg e.filenameVdir (updatedSummary cfg e.filename ics)) := by
  unfold updateSummary
  rw [Prog.bind_run_ok (onStore_run (getNodeFilename_run (live_of_entry he))), name_of_entry he]
  simp only
  rw [Prog.bind_run_ok (writeIcalFile_run he _)]
  rfl

theorem updateNodeFileExtension_run {n : NodeId} {e : AgendaEntry}
    (he : w.store.entry n = some e) (ics : Icalcomponent) :
    updateNodeFileExtension cfg ics n w = .ok (w.extendedNote e.filename ics,
      w.extended cfg e.filenameVdir e.filename ics) := by
  unfold updateNodeFileExtension World.extendedNote World.extended
  rw [Prog.bind_run_ok (onStore_run (getNodeFilename_run (live_of_entry he))), name_of_entry he]
  cases getFileExtension e.filename with
  | none => rfl
  | some ext =>
    simp only
    rw [Prog.bind_run_ok (writeIcalFile_run he _)]
    rfl

/-- The parent pointer of a node that has one. -/
theorem parent_run {s : Store} {n q : NodeId} (hn : s.Live n) (hq : s.links.parent n = some q) :
    (do nonNull (← deref n).parent : StoreM NodeId) s = .ok (q, s) := by
  obtain ⟨t, ht⟩ := exists_heap hn
  rw [Prog.bind_run_ok (deref_run ht), ← links_parent_eq ht, hq]
  rfl

/-- The parent pointer of a node that has none. -/
theorem parent_run_none {s : Store} {n : NodeId} (hn : s.Live n)
    (hq : s.links.parent n = none) :
    (do nonNull (← deref n).parent : StoreM NodeId) s = .error .nullDereference := by
  obtain ⟨t, ht⟩ := exists_heap hn
  rw [Prog.bind_run_ok (deref_run ht), ← links_parent_eq ht, hq]
  rfl

theorem remove_eq_unrelated {parent child child' : Icalcomponent}
    (h : removeParentChildRelationshipFromComponent parent child = .ok child') :
    child' = unrelated (some parent) child := by
  unfold removeParentChildRelationshipFromComponent at h
  unfold unrelated
  rw [Option.bind_some]
  cases huid : parent.getUid with
  | some parentUid =>
    rw [huid] at h
    exact (Except.ok.inj h).symm
  | none =>
    rw [huid] at h
    simp only at h
    split at h
    · exact nomatch h
    · exact (Except.ok.inj h).symm

/-- The relation to a parent cannot be taken out only if the parent has no UID. -/
theorem remove_error {parent child : Icalcomponent} {crash : Crash}
    (h : removeParentChildRelationshipFromComponent parent child = .error crash) :
    crash = .nullDereference := by
  unfold removeParentChildRelationshipFromComponent at h
  split at h
  · exact nomatch h
  · split at h
    · exact (Except.error.inj h).symm
    · exact nomatch h

theorem rename_entry_self {s : Store} {n : NodeId} {e : AgendaEntry} (he : s.entry n = some e)
    (x : CStr) : (s.rename n x).entry n = some { e with filename := x } := by
  rw [rename_entry, if_pos rfl, he]
  rfl

/-- Moving a node that has its new name places it. -/
theorem moveNode_rename_run {s : Store} (h : s.Inv) {p c : NodeId} (hp : s.Live p)
    (hc : s.Live c) (x : CStr) : moveNode p c (s.rename c x) = .ok (0, s.place p c x) := by
  rw [moveNode_run (h.rename c x).wf (by simpa using hp) (by simpa using hc), detach_rename]
  rfl

/-- The end of a rename: moving the node and writing its relation to the new parent. -/
theorem wp_moveRenamed (h : w.store.Inv) {Q : Int → World Text → Prop} {E : Crash → Prop}
    {p c q : NodeId}
    {e : AgendaEntry} {x : CStr} {ics : Icalcomponent} (hp : w.store.Live p)
    (he : w.store.entry c = some e) (hQ : Q 0 (w.moved cfg c e.filenameVdir x ics p q)) :
    Prog.wp (match w.component cfg p with
      | some newParentIcs => do
        let _ ← onStore (moveNode p c)
        let _ ← writeParentChildComponents cfg newParentIcs c
          (unrelated (w.component cfg q) (w.renamedNote cfg c e.filenameVdir x ics))
        pure 0
      | none => do
        let root := (← get).store.fuseRoot
        let _ ← onStore (moveNode root c)
        (pure 0 : FsM Text Int)) Q E (w.renamed cfg c e.filenameVdir x ics) := by
  have hc := live_of_entry he
  have hmove : ∀ p', w.store.Live p' →
      onStore (moveNode p' c) (w.renamed cfg c e.filenameVdir x ics) = _ := fun p' hp' =>
    onStore_run (by rw [renamed_store]; exact moveNode_rename_run h hp' hc x)
  unfold World.moved World.movedNote World.newParent at hQ
  cases hnp : w.component cfg p with
  | none =>
    -- Without a component the target is taken for the root, and nothing is written.
    rw [hnp] at hQ
    simp only
    rw [Prog.wp_bind_ok (Prog.get_run _), renamed_store, rename_fuseRoot,
      Prog.wp_bind_ok (hmove _ h.root_live)]
    exact hQ
  | some newParentIcs =>
    rw [hnp] at hQ
    simp only
    have hwrite : writeParentChildComponents cfg newParentIcs c _ _ = _ :=
      writeParentChildComponents_run
        (w := { w.renamed cfg c e.filenameVdir x ics with store := w.store.place p c x })
        (e := { e with filename := x }) ((place_entry ..).trans (by rw [if_pos rfl, he]; rfl))
        newParentIcs (unrelated (w.component cfg q) (w.renamedNote cfg c e.filenameVdir x ics))
    rw [Prog.wp_bind_ok (hmove p hp), Prog.wp_bind_ok hwrite]
    exact hQ

/-- A rename once all is read that it needs: the edits of the note, then the move. -/
theorem wp_renameRead (h : w.store.Inv) {Q : Int → World Text → Prop} {E : Crash → Prop}
    {p c q : NodeId} {e : AgendaEntry} {x : CStr} {ics : Icalcomponent} (hp : w.store.Live p)
    (he : w.store.entry c = some e)
    (hE : ∀ pic, w.component cfg q = some pic →
      (∀ ics', removeParentChildRelationshipFromComponent pic
        (w.renamedNote cfg c e.filenameVdir x ics) ≠ .ok ics') → E .nullDereference)
    (hQ : (∀ pic, w.component cfg q = some pic →
      ∃ ics', removeParentChildRelationshipFromComponent pic
        (w.renamedNote cfg c e.filenameVdir x ics) = .ok ics') →
      Q 0 (w.moved cfg c e.filenameVdir x ics p q)) :
    Prog.wp (do
      onStore (setNodeFilename c x)
      let childIcs ← updateSummary cfg ics c
      let childIcs ← updateNodeFileExtension cfg childIcs c
      let childIcs ← match w.component cfg q with
        | some oldParentIcs =>
          match removeParentChildRelationshipFromComponent oldParentIcs childIcs with
          | .ok childIcs => pure childIcs
          | .error e => throw e
        | none => pure childIcs
      match w.component cfg p with
      | some newParentIcs => do
        let _ ← onStore (moveNode p c)
        let _ ← writeParentChildComponents cfg newParentIcs c childIcs
        pure 0
      | none => do
        let root := (← get).store.fuseRoot
        let _ ← onStore (moveNode root c)
        (pure 0 : FsM Text Int)) Q E w := by
  have he' := rename_entry_self he x
  have hsummary : updateSummary cfg ics c { w with store := w.store.rename c x } =
      .ok (w.titledNote cfg x ics, w.titled cfg c e.filenameVdir x ics) :=
    updateSummary_run (w := { w with store := w.store.rename c x })
      (e := { e with filename := x }) he' ics
  have hextension : updateNodeFileExtension cfg (w.titledNote cfg x ics) c
      (w.titled cfg c e.filenameVdir x ics) =
        .ok (w.renamedNote cfg c e.filenameVdir x ics, w.renamed cfg c e.filenameVdir x ics) :=
    updateNodeFileExtension_run (w := w.titled cfg c e.filenameVdir x ics)
      (e := { e with filename := x }) he' _
  rw [Prog.wp_bind_ok (onStore_run (setNodeFilename_run he _)), Prog.wp_bind_ok hsummary,
    Prog.wp_bind_ok hextension]
  have finish := fun hremoved => wp_moveRenamed (E := E) h hp he (hQ hremoved)
  cases hold : w.component cfg q with
  | none =>
    rw [hold] at finish
    exact finish nofun
  | some oldParentIcs =>
    rw [hold] at finish
    simp only
    cases hr : removeParentChildRelationshipFromComponent oldParentIcs
        (w.renamedNote cfg c e.filenameVdir x ics) with
    | error crash =>
      have hstop := hE oldParentIcs hold fun ics' hok => nomatch hr.symm.trans hok
      rw [remove_error hr]
      exact hstop
    | ok childIcs =>
      rw [remove_eq_unrelated hr]
      refine finish fun pic hpic => ⟨childIcs, ?_⟩
      cases hpic
      exact hr

/-- The relation to the old parent can be taken out of the note at `old`. -/
def World.Unrelates (cfg : Config Text) (w : World Text) (old new : CStr) : Prop :=
  ∀ c q e ics pic, w.store.lookup old = some c → w.store.entry c = some e →
    w.component cfg c = some ics → w.store.links.parent c = some q → w.component cfg q = some pic →
      ∃ ics', removeParentChildRelationshipFromComponent pic
        (w.renamedNote cfg c e.filenameVdir (getFilename new) ics) = .ok ics'

/-- What keeps a rename from stopping. -/
structure World.Moves (cfg : Config Text) (w : World Text) (old new : CStr) : Prop where
  opens : w.Opens cfg
  depth : (splitPath old).length ≤ 255 ∧ (splitPath new).length ≤ 255
  absolute : getParentPath new ≠ none
  exists_old : ∃ c, w.store.lookup old = some c ∧ w.component cfg c ≠ none ∧
    w.store.links.parent c ≠ none
  unrelates : w.Unrelates cfg old new

theorem wp_doAgendaRename {E : Crash → Prop} (h : w.store.Inv) {old new : CStr}
    (hE : ¬ w.Moves cfg old new → ∀ c : Crash, c.Visible → E c) :
    Prog.wp (doAgendaRename cfg old new)
      (fun status w' => AgendaRenamed cfg w old new status w' ∧
        (status = 0 → w.Unrelates cfg old new)) E w := by
  unfold doAgendaRename
  simp only
  cases hnew : getParentPath new with
  | none =>
    have hrun : (nonNull none : StoreM CStr) w.store = .error .nullDereference := rfl
    rw [Prog.wp_bind_error (onStore_error hrun)]
    exact hE (fun hgo => hgo.absolute hnew) _ (.inr (.inl rfl))
  | some newParentPath =>
    rw [Prog.wp_bind_ok (onStore_run (nonNull_run newParentPath))]
    refine wp_getNodeByPath h (fun hlen => hE (fun hgo => hlen ?_) _ (.inr (.inr rfl))) ?_
    · exact (length_splitPath_parent hnew).trans hgo.depth.2
    cases hp : w.store.lookup newParentPath with
    | none => exact ⟨.noParent hnew hp, fun h0 => absurd h0 (by decide)⟩
    | some p =>
      refine wp_getNodeByPath h (fun hlen => hE (fun hgo => hlen hgo.depth.1) _
        (.inr (.inr rfl))) ?_
      cases hc : w.store.lookup old with
      | none =>
        refine hE (fun hgo => ?_) _ (.inl rfl)
        obtain ⟨c, hold, _⟩ := hgo.exists_old
        exact nomatch hc.symm.trans hold
      | some c =>
        have hlive := h.live_of_lookup hc
        refine wp_getIcalcomponentFromNode hlive (fun hopens => hE fun hgo => hopens ?_) fun _ => ?_
        · exact hgo.opens c
        have hsame : w.Moves cfg old new → w.component cfg c ≠ none ∧
            w.store.links.parent c ≠ none := fun hgo => by
          obtain ⟨c', hold, hrest⟩ := hgo.exists_old
          cases hc.symm.trans hold
          exact hrest
        cases hics : w.component cfg c with
        | none => exact hE (fun hgo => (hsame hgo).1 hics) _ (.inl rfl)
        | some ics =>
          obtain ⟨e, he⟩ := exists_entry_of_component hics
          refine wp_getIcalcomponentFromNode (h.live_of_lookup hp)
            (fun hopens => hE fun hgo => hopens (hgo.opens p)) fun _ => ?_
          cases hq : w.store.links.parent c with
          | none =>
            rw [Prog.wp_bind_error (onStore_error (parent_run_none hlive hq))]
            exact hE (fun hgo => (hsame hgo).2 hq) _ (.inr (.inl rfl))
          | some q =>
            rw [Prog.wp_bind_ok (onStore_run (parent_run hlive hq))]
            refine wp_getIcalcomponentFromNode (h.live_parent hq)
              (fun hopens => hE fun hgo => hopens (hgo.opens q)) fun _ => ?_
            have hmoved : AgendaRenamed cfg w old new _ _ := .moved hnew hp hc he hics hq
            refine wp_renameRead h (h.live_of_lookup hp) he (fun pic hpic hstop => ?_)
              fun hremoved => ⟨hmoved, fun _ c' q' e' ics' pic hc' he' hics' hq' hpic => ?_⟩
            · refine hE (fun hgo => ?_) _ (.inr (.inl rfl))
              obtain ⟨ics', hok⟩ := hgo.unrelates c q e ics pic hc he hics hq hpic
              exact hstop ics' hok
            · -- The state is known to be right for the relation once the parent has been read.
              cases hc.symm.trans hc'
              cases he.symm.trans he'
              cases hics.symm.trans hics'
              cases hq.symm.trans hq'
              exact hremoved pic hpic

/-- A rename to a free path. -/
theorem fuseRename_free (h : w.store.Inv) {old new : CStr} {flags : Nat}
    (hlen : (splitPath new).length ≤ 255) (hn : w.store.lookup new = none) :
    fuseRename cfg old new flags w = doAgendaRename cfg old new w := by
  have hfound := getNodeByPath_found h hlen
  rw [hn] at hfound
  unfold fuseRename
  rw [Prog.bind_run_ok hfound]

/-- A rename to the path of a node with children. -/
theorem fuseRename_notEmpty (h : w.store.Inv) {old new : CStr} {flags : Nat}
    (hlen : (splitPath new).length ≤ 255) {n : NodeId} (hn : w.store.lookup new = some n)
    (hchildren : w.store.links.children n ≠ []) :
    fuseRename cfg old new flags w = .ok (-ENOTEMPTY, w) := by
  have hfound := getNodeByPath_found h hlen
  rw [hn] at hfound
  unfold fuseRename
  rw [Prog.bind_run_ok hfound]
  simp only
  rw [Prog.bind_run_ok (onStore_run (nodeHasChildren_run (h.live_of_lookup hn))),
    decide_eq_true hchildren]
  rfl

/-- A rename to the path of a note without children goes on if the note could be deleted. -/
theorem fuseRename_leaf (h : w.store.Inv) {old new : CStr} {flags : Nat}
    (hlen : (splitPath new).length ≤ 255) {n : NodeId} (hn : w.store.lookup new = some n)
    (hchildren : w.store.links.children n = []) {status : Int} {w' : World Text}
    (hdelete : deleteVdirEntry cfg n w = .ok (status, w')) :
    fuseRename cfg old new flags w =
      if status ≠ 0 then .ok (- EIO, w') else doAgendaRename cfg old new w' := by
  have hfound := getNodeByPath_found h hlen
  rw [hn] at hfound
  unfold fuseRename
  rw [Prog.bind_run_ok hfound]
  simp only
  rw [Prog.bind_run_ok (onStore_run (nodeHasChildren_run (h.live_of_lookup hn))),
    decide_eq_false (not_not.2 hchildren), if_neg (by decide), Prog.bind_run_ok hdelete]
  split <;> rfl

/-- A rename to the path of a note without children takes that note away first. -/
theorem fuseRename_replaces (h : w.store.Inv) {old new : CStr} {flags : Nat}
    (hlen : (splitPath new).length ≤ 255) {n : NodeId} {e : AgendaEntry}
    (hn : w.store.lookup new = some n) (he : w.store.entry n = some e)
    (hchildren : w.store.links.children n = [])
    (hr : w.removeSucceeds cfg e.filenameVdir = true) :
    fuseRename cfg old new flags w =
      doAgendaRename cfg old new (w.removed cfg n e.filenameVdir) := by
  have hdelete : deleteVdirEntry cfg n w = _ := deleteVdirEntry_run h he hchildren
  rw [if_pos hr] at hdelete
  rw [fuseRename_leaf h hlen hn hchildren hdelete, if_neg (by decide)]

theorem wp_fuseRename (h : w.store.Inv) (old new : CStr) (flags : Nat) :
    Prog.wp (fuseRename cfg old new flags) (Renamed cfg w old new) Crash.Visible w := by
  unfold fuseRename
  refine wp_getNodeByPath h (fun _ => .inr (.inr rfl)) ?_
  cases hl : w.store.lookup new with
  | none =>
    exact Prog.wp_mono (wp_doAgendaRename h fun _ _ hc => hc) (fun _ _ h => .fresh hl h.1)
      fun _ h => h
  | some n =>
    have hn := h.live_of_lookup hl
    simp only
    rw [Prog.wp_bind_ok (onStore_run (nodeHasChildren_run hn))]
    split
    · rename_i hc
      exact .notEmpty hl (by simpa using hc)
    rename_i hc
    have hchildren : w.store.links.children n = [] := by simpa using hc
    -- The root has no file path: `get_vdir_filepath` follows a NULL pointer.
    cases he : w.store.entry n with
    | none =>
      rw [Prog.wp_bind_error (deleteVdirEntry_root hn he)]
      exact .inr (.inl rfl)
    | some e =>
      have hdelete : deleteVdirEntry cfg n w = _ := deleteVdirEntry_run h he hchildren
      cases hr : w.removeSucceeds cfg e.filenameVdir with
      | false =>
        rw [hr, if_neg (by decide)] at hdelete
        rw [Prog.wp_bind_ok hdelete, if_pos (by decide)]
        exact .removeFailed hl he hchildren hr
      | true =>
        rw [hr, if_pos rfl] at hdelete
        rw [Prog.wp_bind_ok hdelete, if_neg (by decide)]
        exact Prog.wp_mono (wp_doAgendaRename (h.delete he hchildren) fun _ _ hc => hc)
          (fun _ _ h => .replaced hl he hchildren hr h.1) fun _ h => h

/-! ## Any call -/

/-- What the kernel guarantees of a call: for a rename, that the old path exists
    and is not above the new one, and that the new path ends in a name. -/
def Op.Valid (cfg : Config Text) (w : World Text) : Op → Prop
  | .create _ => w.FreshUuid cfg
  | .mkdir _ => w.FreshUuid cfg
  | .rename old new _ =>
    (w.store.lookup old).isSome = true ∧ ¬ splitPath old <+: splitPath new ∧ getFilename new ≠ []
  | _ => True

/-- What a call can come to. -/
def Effect (cfg : Config Text) (w : World Text) : Op → Int → World Text → Prop
  | .create filepath, status, w' => Created cfg w filepath .file status w'
  | .mkdir filepath, status, w' => Created cfg w filepath .directory status w'
  | .write path buf size offset, status, w' =>
    Edited cfg w (.write path buf size offset) status w'
  | .setxattr path attrib value s flags, status, w' =>
    Edited cfg w (.setxattr path attrib value s flags) status w'
  | .removexattr path attrib, status, w' => Edited cfg w (.removexattr path attrib) status w'
  | .unlink file, status, w' => Removed cfg w file status w'
  | .rmdir filepath, status, w' => Removed cfg w filepath status w'
  | .rename old new _, status, w' => Renamed cfg w old new status w'
  | .event event, _, w' =>
    Handled cfg w (event.file cfg) w' ∧ (event.updates = false → w' = w)

/-- A call on a sound state has its effect, or stops visibly. -/
theorem wp_exec (h : w.store.Sound) {o : Op} (hv : o.Valid cfg w) :
    Prog.wp (exec cfg o) (Effect cfg w o) Crash.Visible w := by
  cases o with
  | create filepath => exact wp_createNew h.toInv hv (fun _ _ hc => hc) .file
  | mkdir filepath => exact wp_createNew h.toInv hv (fun _ _ hc => hc) .directory
  | write path buf size offset => exact wp_fuseWrite h.toInv path buf size offset
  | unlink file => exact wp_fuseUnlink h.toInv file
  | rmdir filepath => exact wp_fuseRmdir h.toInv filepath
  | rename old new flags => exact wp_fuseRename h.toInv old new flags
  | setxattr path attrib value s flags => exact wp_fuseSetxattr h.toInv path attrib value s flags
  | removexattr path attrib => exact wp_fuseRemovexattr h.toInv path attrib
  | event event =>
    refine (Prog.wp_bind ..).2 ?_
    exact Prog.wp_mono (wp_handleVdirEvent h event) (fun _ _ hw => hw) fun _ hc => hc

/-- The effect of a call that returned. -/
theorem exec_effect (h : w.store.Sound) {o : Op} (hv : o.Valid cfg w) {status : Int}
    {w' : World Text} (hrun : exec cfg o w = .ok (status, w')) : Effect cfg w o status w' :=
  (wp_exec h hv).ok hrun

end Agendafs
