import Agendafs.ForStd.Keeps
import Agendafs.Spec.FreedTrees
import Agendafs.Spec.Readers
import Agendafs.Spec.Runs

/-!
# The files that are never touched

The program writes and removes the files of its nodes only, and a node is made for a
file of VDIR whose name contains `.ics`. So whatever is done with the mount, no other
file is created, changed or removed: neither the other files of VDIR, nor files
elsewhere.

## Key results

- `confined_exec`, `confined_loadRootNodeTree`: which files a call and the load can touch
- `Run.onlyNotes`: the nodes of a run are those of files that can be notes
- `other_files_untouched`: no other file is touched, in any run
-/

namespace Agendafs

open Prog

variable {Text : Type} {cfg : Config Text} {w w' : World Text} {s s' : Store}

/-- The name of a file that can be a note. -/
def NoteFile (k : CStr) : Prop := slash ∉ k ∧ strstr (bytes ".ics") k = true

/-- The path of a file of VDIR that can be a note. -/
def Config.NotePath (cfg : Config Text) (filepath : CStr) : Prop :=
  ∃ k, NoteFile k ∧ filepath = appendPath cfg.vdir k

/-- Every node is that of a file that can be a note. -/
def Store.OnlyNotes (s : Store) : Prop := ∀ n e, s.entry n = some e → NoteFile e.filenameVdir

/-! ## The tree -/

/-- The program makes no node of another file. -/
def NoOthers (s s' : Store) : Prop := s.OnlyNotes → s'.OnlyNotes

instance : IsPreorder Store NoOthers where
  refl _ h := h
  trans _ _ _ h h' hs := h' (h hs)

/-- A store in which the nodes have the files that they had. -/
theorem noOthers_of_entry (h : ∀ n e', s'.entry n = some e' →
    ∃ m e, s.entry m = some e ∧ e.filenameVdir = e'.filenameVdir) : NoOthers s s' := by
  intro hs n e' he'
  obtain ⟨m, e, he, hfile⟩ := h n e' he'
  exact hfile ▸ hs m e he

section

variable {n p : NodeId}

@[grind .] theorem keeps_nonNull {α : Type} (a : Option α) : Keeps NoOthers (nonNull a) := by
  cases a with
  | none => exact .throw _
  | some a => exact .pure a

@[grind .] theorem keeps_deref : Keeps NoOthers (deref n) := by grind [deref]

/-- Writing fields of a node other than its entry. -/
theorem keeps_writeNode {f : TreeNode → TreeNode} (hf : ∀ t, (f t).data = t.data) :
    Keeps NoOthers (writeNode n f) := by
  intro s a s' hrun
  obtain ⟨_, _, hs'⟩ := writeNode_some hrun
  obtain rfl : s' = s.modifyNode n f := hs'
  refine noOthers_of_entry fun m e' he' => ?_
  rw [Store.modifyNode_entry hf] at he'
  exact ⟨m, e', he', rfl⟩

@[grind .] theorem keeps_addChild : Keeps NoOthers (addChild p n) :=
  .bind (keeps_writeNode fun _ => rfl) fun _ =>
    .bind (keeps_writeNode fun _ => rfl) fun _ => .pure 0

@[grind .] theorem keeps_nodeHasChildren : Keeps NoOthers (nodeHasChildren n) := by
  grind [nodeHasChildren]

@[grind .] theorem keeps_freeTree (fuel : Nat) : Keeps NoOthers (freeTree fuel n) := by
  intro s a s' hrun
  obtain ⟨t, ms, _, _, rfl⟩ := freeTree_frees hrun
  refine noOthers_of_entry fun m e' he' => ⟨m, e', ?_, rfl⟩
  unfold Store.entry Store.freeAll at he'
  dsimp only at he'
  split at he'
  · cases he'
  · exact he'

@[grind .] theorem keeps_detachTreeNode : Keeps NoOthers (detachTreeNode n) := by
  refine .bind keeps_deref fun t => ?_
  cases t.parent with
  | none => exact .pure false
  | some parent =>
    refine .bind keeps_deref fun tp => ?_
    split
    · exact .bind (keeps_writeNode fun _ => rfl) fun _ =>
        .bind (keeps_writeNode fun _ => rfl) fun _ => .pure true
    · exact .throw _

@[grind .] theorem keeps_moveNode : Keeps NoOthers (moveNode p n) := by grind [moveNode]

/-- The entry keeps its file. -/
@[grind .] theorem keeps_setNodeFilename (filename : CStr) :
    Keeps NoOthers (setNodeFilename n filename) := by
  refine keeps_deref.bind_of fun s t s₁ hderef b s' hrun => ?_
  obtain ⟨ht, rfl⟩ : s.heap n = some t ∧ s₁ = s := deref_some hderef
  cases hdata : t.data with
  | none =>
    rw [hdata] at hrun
    cases hrun
  | some entry =>
    rw [hdata, bind_run_ok (nonNull_run entry)] at hrun
    obtain ⟨_, _, hs'⟩ := writeNode_some hrun
    obtain rfl : s' = _ := hs'
    refine noOthers_of_entry fun m e' he' => ?_
    unfold Store.entry at he' ⊢
    rw [Store.modifyNode_heap] at he'
    split at he'
    · rename_i hm
      rw [hm, ht] at he'
      cases he'
      exact ⟨n, entry, by rw [ht]; exact hdata, rfl⟩
    · exact ⟨m, e', he', rfl⟩

@[grind .] theorem keeps_getFuseNodeFromVdirName (vdirName : CStr) :
    Keeps NoOthers (getFuseNodeFromVdirName vdirName) := by grind [getFuseNodeFromVdirName]

@[grind .] theorem keeps_isRootNode : Keeps NoOthers (isRootNode n) := by grind [isRootNode]

@[grind .] theorem keeps_getNodeFilename : Keeps NoOthers (getNodeFilename n) := by
  grind [getNodeFilename]

@[grind .] theorem keeps_getVdirFilepath (vdir : CStr) :
    Keeps NoOthers (getVdirFilepath vdir n) := by
  grind [getVdirFilepath]

@[grind .] theorem keeps_deleteFuseNode : Keeps NoOthers (deleteFuseNode n) := by
  have hindex : ∀ (s : Store) (k : CStr),
      NoOthers s { s with entriesVdir := s.entriesVdir.remove k } := fun s k h => h
  grind [deleteFuseNode]

@[grind ←] theorem keeps_createFuseNode {entry : AgendaEntry} (h : NoteFile entry.filenameVdir) :
    Keeps NoOthers (createFuseNode entry) := by
  rintro s _ _ ⟨⟩ hs n e he
  change ((if n = s.nextId then some ⟨some entry, none, []⟩ else s.heap n :
    Option TreeNode).elim none (·.data)) = some e at he
  split at he
  · exact Option.some.inj he ▸ h
  · exact hs n e he

@[grind ←] theorem keeps_upsertFuseNode {entry : AgendaEntry} (h : NoteFile entry.filenameVdir) :
    Keeps NoOthers (upsertFuseNode entry) := by grind [upsertFuseNode]

@[grind .] theorem keeps_isUnique (newFilename : CStr) (siblings : List NodeId) :
    Keeps NoOthers (isUnique newFilename siblings) := by
  induction siblings with
  | nil => exact .pure true
  | cons sibling siblings ih => grind [isUnique]

@[grind .] theorem keeps_uniqueFilename (filename newFilename : CStr) (siblings : List NodeId)
    (rounds conflictCount : Nat) :
    Keeps NoOthers (uniqueFilename filename siblings rounds newFilename conflictCount) := by
  induction rounds generalizing newFilename conflictCount with
  | zero => exact .throw _
  | succ rounds ih => grind [uniqueFilename]

@[grind .] theorem keeps_addFuseChild (parent : Option NodeId) :
    Keeps NoOthers (addFuseChild parent n) := by grind [addFuseChild]

@[grind .] theorem keeps_moveFuseNode (parent : Option NodeId) :
    Keeps NoOthers (moveFuseNode parent n) := by grind [moveFuseNode]

@[grind .] theorem keeps_findChild (segment : CStr) (children : List NodeId) :
    Keeps NoOthers (findChild segment children) := by
  induction children with
  | nil => exact .pure none
  | cons child children ih => grind [findChild]

@[grind .] theorem keeps_walkSegments (current : NodeId) (segments : List CStr) :
    Keeps NoOthers (walkSegments current segments) := by
  induction segments generalizing current with
  | nil => exact .pure _
  | cons segment segments ih => grind [walkSegments]

@[grind .] theorem keeps_getNodeByPath (path : CStr) : Keeps NoOthers (getNodeByPath path) := by
  grind [getNodeByPath]

@[grind .] theorem keeps_getNodeByUuid (targetUuid : CStr) :
    Keeps NoOthers (getNodeByUuid targetUuid) := by grind [getNodeByUuid]

end

/-! ## The files -/

/-- Between these states no other file has been touched, and no node been made for one. -/
def Confined (cfg : Config Text) (w w' : World Text) : Prop :=
  w.store.OnlyNotes → w'.store.OnlyNotes ∧
    ∀ filepath, ¬ cfg.NotePath filepath → w'.files filepath = w.files filepath

instance : IsPreorder (World Text) (Confined cfg) where
  refl _ h := ⟨h, fun _ _ => rfl⟩
  trans _ _ _ h h' hw :=
    ⟨(h' (h hw).1).1, fun p hp => ((h' (h hw).1).2 p hp).trans ((h hw).2 p hp)⟩

section

variable {n p : NodeId}

@[grind ←] theorem confined_onStore {α : Type} {m : StoreM α} (h : Keeps NoOthers m) :
    Keeps (Confined cfg) (onStore m : FsM Text α) :=
  h.zoom fun _ _ hs hw => ⟨hs hw, fun _ _ => rfl⟩

@[grind .] theorem confined_parseIcsFile (filename : CStr) :
    Keeps (Confined cfg) (parseIcsFile cfg filename) := by grind [parseIcsFile]

@[grind .] theorem confined_getIcalcomponentFromNode :
    Keeps (Confined cfg) (getIcalcomponentFromNode cfg n) := by grind [getIcalcomponentFromNode]

@[grind .] theorem confined_nodeIsDirectory (nodeIcs : Option Icalcomponent) :
    Keeps (Confined cfg) (nodeIsDirectory cfg n nodeIcs) := by grind [nodeIsDirectory]

/-- Only the environment is used up. -/
theorem confined_env (w : World Text) (env : Environment Text) :
    Confined cfg w { w with env := env } := fun h => ⟨h, fun _ _ => rfl⟩

@[grind .] theorem confined_getIcalNow : Keeps (Confined cfg) (getIcalNow : FsM Text CStr) := by
  grind [getIcalNow, confined_env]

theorem getVdirFilepath_some {vdir : CStr} {r : CStr × Store}
    (hrun : getVdirFilepath vdir n s = .ok r) :
    ∃ e, s.entry n = some e ∧ r = (appendPath vdir e.filenameVdir, s) := by
  unfold getVdirFilepath at hrun
  rw [bind_run] at hrun
  split at hrun
  · rename_i t s₁ hderef
    obtain ⟨ht, rfl⟩ : s.heap n = some t ∧ s₁ = s := deref_some hderef
    rw [← entry_eq ht] at hrun
    cases he : s₁.entry n with
    | none => rw [he] at hrun; cases hrun
    | some e => rw [he] at hrun; cases hrun; exact ⟨e, rfl, rfl⟩
  · cases hrun

/-- The path of a node is that of its file. -/
theorem notePath_of_run {filepath : CStr} {w₁ : World Text}
    (hrun : onStore (getVdirFilepath cfg.vdir n) w = .ok (filepath, w₁))
    (hnotes : w₁.store.OnlyNotes) : cfg.NotePath filepath := by
  unfold onStore zoom at hrun
  split at hrun
  · rename_i hpath
    obtain ⟨e, he, hr⟩ := getVdirFilepath_some hpath
    cases hr
    cases hrun
    exact ⟨_, hnotes n e he, rfl⟩
  · cases hrun

@[grind ←] theorem confined_writeToFile {filepath : CStr} (h : cfg.NotePath filepath)
    (content : Text) : Keeps (Confined cfg) (writeToFile filepath content) := by
  have hwritten : ∀ (w : World Text) content env,
      Confined cfg w { w with files := writtenFiles w.files filepath content, env := env } := by
    refine fun w content env hw => ⟨hw, fun p hp => if_neg ?_⟩
    rintro rfl
    exact hp h
  grind [writeToFile, confined_env]

@[grind ←] theorem confined_removeFile {filepath : CStr} (h : cfg.NotePath filepath) :
    Keeps (Confined cfg) (removeFile filepath : FsM Text Int) := by
  have hremoved : ∀ w : World Text,
      Confined cfg w { w with files := fun f => if f = filepath then none else w.files f } := by
    refine fun w hw => ⟨hw, fun p hp => if_neg ?_⟩
    rintro rfl
    exact hp h
  grind [removeFile, confined_env]

/-- A file is written through its node. -/
@[grind .] theorem confined_writeIcalFile (ic : Icalcomponent) :
    Keeps (Confined cfg) (writeIcalFile cfg n ic) := by
  refine confined_getIcalNow.bind fun now => ?_
  refine (confined_onStore (keeps_getVdirFilepath _)).bind_of
    fun w filepath w₁ hpath res w₂ hrest hnotes => ?_
  exact ((confined_writeToFile (notePath_of_run hpath hnotes) _).bind fun _ => .pure _)
    hrest hnotes

@[grind .] theorem confined_writeParentChildComponents (iparent ichild : Icalcomponent) :
    Keeps (Confined cfg) (writeParentChildComponents cfg iparent n ichild) := by
  grind [writeParentChildComponents]

@[grind .] theorem confined_updateSummary (ics : Icalcomponent) :
    Keeps (Confined cfg) (updateSummary cfg ics n) := by grind [updateSummary]

@[grind .] theorem confined_updateNodeFileExtension (ics : Icalcomponent) :
    Keeps (Confined cfg) (updateNodeFileExtension cfg ics n) := by grind [updateNodeFileExtension]

@[grind .] theorem confined_loadAgendaEntryFromIcsFile (filename : CStr) :
    Keeps (Confined cfg) (loadAgendaEntryFromIcsFile cfg filename) := by
  grind [loadAgendaEntryFromIcsFile, parseIcsToAgendaEntry]

@[grind .] theorem confined_markParent (pic : Option Icalcomponent) :
    Keeps (Confined cfg) (markParent cfg n pic) := by
  cases pic with
  | none => grind [markParent]
  | some pic => grind [markParent]

@[grind .] theorem confined_editNode (edit : Icalcomponent → Icalcomponent) :
    Keeps (Confined cfg) (editNode cfg n edit) := by grind [editNode]

@[grind .] theorem confined_editNodeAsserted (edit : Icalcomponent → Icalcomponent) :
    Keeps (Confined cfg) (editNodeAsserted cfg n edit) := by grind [editNodeAsserted]

@[grind .] theorem confined_writeNullIcalFile :
    Keeps (Confined cfg) (writeNullIcalFile cfg n) := by
  have hnull : ∀ filepath, Keeps (Confined cfg) (writeNullToFile filepath : FsM Text Nat) := by
    intro filepath
    refine .bind .get fun w => ?_
    -- `fputs` stops at the NULL pointer, so nothing is written.
    cases w.env.writes.head?.getD .written with
    | openFailed => exact .bind (.modify fun w => confined_env w _) fun _ => .pure _
    | writeFailed left => exact .throw _
    | written => exact .throw _
  grind [writeNullIcalFile]

@[grind .] theorem confined_editNodeUnchecked (edit : Icalcomponent → Icalcomponent) :
    Keeps (Confined cfg) (editNodeUnchecked cfg n edit) := by grind [editNodeUnchecked]

/-- A file is removed through its node. -/
@[grind .] theorem confined_deleteVdirEntry : Keeps (Confined cfg) (deleteVdirEntry cfg n) := by
  refine (confined_onStore (keeps_getVdirFilepath _)).bind_of
    fun w filepath w₁ hpath res w₂ hrest hnotes => ?_
  refine ((confined_removeFile (notePath_of_run hpath hnotes)).bind fun res => ?_) hrest hnotes
  grind

@[grind .] theorem confined_deleteFromVdirPath (filepath : CStr) :
    Keeps (Confined cfg) (deleteFromVdirPath filepath : FsM Text Int) := by
  grind [deleteFromVdirPath]

end

/-! ## The calls -/

section

variable {path old new : CStr}

/-- What is loaded is read from the file. -/
theorem loadable_of_run {k : CStr} {e : Option AgendaEntry}
    (hrun : loadAgendaEntryFromIcsFile cfg k w = .ok (e, w')) : e = w.loadable cfg k ∧ w' = w := by
  have hload : wp (loadAgendaEntryFromIcsFile cfg k >>= pure)
      (fun e w' => e = w.loadable cfg k ∧ w' = w) (fun _ => True) w :=
    wp_loadAgendaEntryFromIcsFile (fun _ _ _ _ => trivial) fun _ => ⟨rfl, rfl⟩
  rw [bind_pure] at hload
  exact hload.ok hrun

/-- An entry that is loaded for a note has its file. -/
theorem noteFile_of_run {k : CStr} (hk : NoteFile k) {e : AgendaEntry}
    (hrun : loadAgendaEntryFromIcsFile cfg k w = .ok (some e, w')) : NoteFile e.filenameVdir := by
  rw [filenameVdir_of_loadable hk.1 (loadable_of_run hrun).1.symm]
  exact hk

/-- The rule for a call that looks up a path. -/
theorem confined_lookup {α : Type} {f : Option NodeId → FsM Text α}
    (hnone : Keeps (Confined cfg) (f none)) (hsome : ∀ n, Keeps (Confined cfg) (f (some n))) :
    Keeps (Confined cfg) (onStore (getNodeByPath path) >>= f) := by
  refine .bind (confined_onStore (keeps_getNodeByPath path)) fun found => ?_
  cases found with
  | none => exact hnone
  | some n => exact hsome n

theorem confined_insertFuseNodeToPath (n : NodeId) (ic : Icalcomponent) :
    Keeps (Confined cfg) (insertFuseNodeToPath cfg path n ic) :=
  .bind (confined_onStore (keeps_nonNull _)) fun parent =>
    confined_lookup (.pure _) fun p => by grind

theorem World.FreshUuid.noteFile (hfresh : w.FreshUuid cfg) (path : CStr) :
    NoteFile (w.newEntry path).filenameVdir :=
  ⟨hfresh.flat_newEntry path, strstr_append _ _⟩

/-- The node of a new note is that of a file that can be one. -/
theorem confined_createEntryFromFuse (hfresh : w.FreshUuid cfg) {etype : EntryType} {status : Int}
    (hrun : createEntryFromFuse cfg path etype w = .ok (status, w')) : Confined cfg w w' := by
  unfold createEntryFromFuse at hrun
  split at hrun
  · cases hrun
    exact Std.Refl.refl _
  · rw [bind_run_ok (get_run w)] at hrun
    -- The UUID names the file before the first system call.
    have hnode : Keeps NoOthers (createFuseNode (w.newEntry path)) :=
      keeps_createFuseNode (hfresh.noteFile path)
    have hrest : ∀ dtstamp, Keeps (Confined cfg) (do
        let newNode ← onStore (createFuseNode (w.newEntry path))
        insertFuseNodeToPath cfg path newNode
          (newComponent etype w.newId dtstamp (getFilename path))) := fun dtstamp =>
      (confined_onStore hnode).bind fun n => confined_insertFuseNodeToPath n _
    exact (confined_getIcalNow.bind hrest) hrun

theorem confined_createNew (hfresh : w.FreshUuid cfg) {etype : EntryType} {status : Int}
    (hrun : createNew cfg path etype w = .ok (status, w')) : Confined cfg w w' := by
  unfold createNew at hrun
  split at hrun
  · cases hrun
    exact Std.Refl.refl _
  · rw [bind_run] at hrun
    split at hrun
    · rename_i found w₁ hlookup
      -- The lookup changes nothing, so the UUID is still a fresh one.
      obtain rfl : w₁ = w :=
        (observes_onStore (observes_getNodeByPath path)).reads _ _ _ hlookup
      cases found with
      | some n =>
        cases hrun
        exact Std.Refl.refl _
      | none => exact confined_createEntryFromFuse hfresh hrun
    · cases hrun

end

section

variable {path old new : CStr}

theorem confined_fuseWrite (buf : List UInt8) (size offset : Nat) :
    Keeps (Confined cfg) (fuseWrite cfg path buf size offset) := by
  unfold fuseWrite
  split
  · exact .pure _
  · exact confined_lookup (.pure _) fun n => by grind

theorem confined_fuseUnlink : Keeps (Confined cfg) (fuseUnlink cfg path) :=
  confined_lookup (.pure _) fun n => by grind

theorem confined_fuseRmdir : Keeps (Confined cfg) (fuseRmdir cfg path) :=
  confined_lookup (.pure _) fun n => by grind

/-- The last part of a rename: the node is moved below the new parent. -/
theorem confined_moveRenamed (p c : NodeId) (newParentIcs : Option Icalcomponent)
    (childIcs : Icalcomponent) :
    Keeps (Confined cfg) (match newParentIcs with
      | some newParentIcs => do
        let _ ← onStore (moveNode p c)
        let _ ← writeParentChildComponents cfg newParentIcs c childIcs
        pure 0
      | none => do
        let root := (← get).store.fuseRoot
        let _ ← onStore (moveNode root c)
        pure 0 : FsM Text Int) := by
  cases newParentIcs with
  | none => grind
  | some newParentIcs => grind

theorem confined_doAgendaRename : Keeps (Confined cfg) (doAgendaRename cfg old new) := by
  refine .bind (confined_onStore (keeps_nonNull _)) fun parent => ?_
  refine confined_lookup (.pure _) fun p => ?_
  refine confined_lookup (.throw _) fun c => ?_
  refine .bind confined_getIcalcomponentFromNode fun childIcs => ?_
  cases childIcs with
  | none => exact .throw _
  | some childIcs =>
    refine .bind confined_getIcalcomponentFromNode fun newParentIcs => ?_
    refine .bind (confined_onStore (by grind)) fun oldParentNode => ?_
    refine .bind confined_getIcalcomponentFromNode fun oldParentIcs => ?_
    refine .bind (confined_onStore (keeps_setNodeFilename _)) fun _ => ?_
    refine .bind (confined_updateSummary _) fun childIcs => ?_
    refine .bind (confined_updateNodeFileExtension _) fun childIcs => ?_
    cases oldParentIcs with
    | none => exact confined_moveRenamed p c newParentIcs childIcs
    | some oldParentIcs =>
      simp only
      cases removeParentChildRelationshipFromComponent oldParentIcs childIcs with
      | ok childIcs => exact confined_moveRenamed p c newParentIcs childIcs
      | error crash =>
        exact .bind (.throw crash) fun childIcs => confined_moveRenamed p c newParentIcs childIcs

theorem confined_fuseRename (flags : Nat) :
    Keeps (Confined cfg) (fuseRename cfg old new flags) :=
  confined_lookup confined_doAgendaRename fun n => by
    have hrename : Keeps (Confined cfg) (doAgendaRename cfg old new) := confined_doAgendaRename
    grind

theorem confined_fuseSetxattr (attrib : CStr) (value : List UInt8) (s flags : Nat) :
    Keeps (Confined cfg) (fuseSetxattr cfg path attrib value s flags) := by
  have hdtstart : ∀ n, Keeps (Confined cfg) (setDtstart cfg (cString value) n) := fun n => by
    grind [setDtstart]
  unfold fuseSetxattr
  split
  · exact .pure _
  · split
    · exact .pure _
    · exact confined_lookup (.pure _) fun n => by
        grind [clearDtstart, setNodeCategories, setNodeClass, setNodeStatus]

theorem confined_fuseRemovexattr (attrib : CStr) :
    Keeps (Confined cfg) (fuseRemovexattr cfg path attrib) :=
  confined_lookup (.pure _) fun n => by grind [clearDtstart, setNodeCategories, deleteNodeClass]

/-- The file that an event names is taken in as a note when its name is that of one. -/
theorem confined_updateOrCreateFuseEntryFromVdir {filepathVdir : CStr}
    (h : NoteFile (getFilename filepathVdir)) :
    Keeps (Confined cfg) (updateOrCreateFuseEntryFromVdir cfg filepathVdir) := by
  refine (confined_loadAgendaEntryFromIcsFile _).bind_of
    fun w entry w₁ hload status w₂ hrest => ?_
  cases entry with
  | none =>
    cases hrest
    exact Std.Refl.refl _
  | some entry =>
    have hupsert : Keeps NoOthers (upsertFuseNode entry) :=
      keeps_upsertFuseNode (noteFile_of_run h hload)
    refine ((confined_onStore hupsert).bind fun n => ?_) hrest
    refine .bind confined_getIcalcomponentFromNode fun entryIcs => ?_
    grind

theorem confined_handleVdirEvent {event : InotifyEvent} (h : slash ∉ event.name) :
    Keeps (Confined cfg) (handleVdirEvent cfg event) := by
  unfold handleVdirEvent
  split
  · exact .pure _
  · rename_i hname
    have hnamed : ¬ event.name = [] ∧ strstr (bytes ".ics") event.name = true := by
      simpa using hname
    have hnote : NoteFile (getFilename (appendPath cfg.vdir event.name)) := by
      rw [getFilename_appendPath _ h]
      exact ⟨h, hnamed.2⟩
    have hupdate : Keeps (Confined cfg)
        (updateOrCreateFuseEntryFromVdir cfg (appendPath cfg.vdir event.name)) :=
      confined_updateOrCreateFuseEntryFromVdir hnote
    grind

/-- A call that returns touches no other file. -/
theorem confined_exec {o : Op} {status : Int} (hv : o.Valid cfg w)
    (hflat : ∀ event, o = .event event → slash ∉ event.name)
    (hrun : exec cfg o w = .ok (status, w')) : Confined cfg w w' := by
  cases o with
  | create filepath => exact confined_createNew hv hrun
  | mkdir filepath => exact confined_createNew hv hrun
  | write path buf size offset => exact confined_fuseWrite buf size offset hrun
  | unlink file => exact confined_fuseUnlink hrun
  | rmdir filepath => exact confined_fuseRmdir hrun
  | rename old new flags => exact confined_fuseRename flags hrun
  | setxattr path attrib value s flags => exact confined_fuseSetxattr attrib value s flags hrun
  | removexattr path attrib => exact confined_fuseRemovexattr attrib hrun
  | event event =>
    exact ((confined_handleVdirEvent (hflat event rfl)).bind fun _ => .pure 0) hrun

/-! ## The load -/

theorem confined_loadDirent {entry : Dirent} (h : slash ∉ entry.dName) :
    Keeps (Confined cfg) (loadDirent cfg entry) := by
  unfold loadDirent
  split
  · rename_i hnamed
    rw [Bool.and_eq_true] at hnamed
    refine (confined_loadAgendaEntryFromIcsFile _).bind_of
      fun w newEntry w₁ hload u w₂ hrest => ?_
    cases newEntry with
    | none =>
      cases hrest
      exact Std.Refl.refl _
    | some newEntry =>
      have hcreate : Keeps NoOthers (createFuseNode newEntry) :=
        keeps_createFuseNode (noteFile_of_run ⟨h, hnamed.2⟩ hload)
      exact ((confined_onStore hcreate).bind fun _ => .pure _) hrest
  · exact .pure _

theorem confined_attachLoaded (k : CStr) : Keeps (Confined cfg) (attachLoaded cfg k) := by
  have hchild : Keeps NoOthers (do nonNull (← getFuseNodeFromVdirName k)) := by grind
  refine .bind (confined_onStore hchild) fun child => ?_
  refine .bind confined_getIcalcomponentFromNode fun ic => ?_
  cases ic.bind (getParentUid cfg.ical) with
  | none =>
    exact .bind .get fun w => .bind (confined_onStore (keeps_addFuseChild _)) fun _ => .pure _
  | some parentUid =>
    refine .bind (confined_onStore (keeps_getNodeByUuid parentUid)) fun parent => ?_
    cases parent with
    | none => exact .pure _
    | some parent =>
      refine .bind confined_getIcalcomponentFromNode fun pic => ?_
      exact .bind (confined_markParent pic) fun _ =>
        .bind (confined_onStore (keeps_moveFuseNode _)) fun _ => .pure _

theorem noOthers_createRoot : Keeps NoOthers (createTreeNode none) := by
  rintro s _ _ ⟨⟩ hs n e he
  change ((if n = s.nextId then some ⟨none, none, []⟩ else s.heap n :
    Option TreeNode).elim none (·.data)) = some e at he
  split at he
  · cases he
  · exact hs n e he

/-- The load touches no other file. -/
theorem confined_loadRootNodeTree {listing : Option (List Dirent)}
    (h : ValidListing (listing.getD [])) : Keeps (Confined cfg) (loadRootNodeTree cfg listing) := by
  refine .bind (.modify fun w hw => ⟨hw, fun _ _ => rfl⟩) fun _ => ?_
  refine .bind (confined_onStore noOthers_createRoot) fun root => ?_
  refine .bind (.modify fun w hw => ⟨hw, fun _ _ => rfl⟩) fun _ => ?_
  cases listing with
  | none => exact .pure _
  | some entries =>
    refine .bind (.forM fun d hd => confined_loadDirent (h.flat d hd)) fun _ => ?_
    exact .bind .get fun w => .forM fun k _ => confined_attachLoaded k

end

/-! ## Runs -/

/-- The names of VDIR's files that events carry have no slash. -/
def flatEvents : Guard Text where
  load _ _ := True
  call _ o := ∀ event, o = .event event → slash ∉ event.name

/-- Every node of a run is that of a file that can be a note. -/
theorem Run.onlyNotes (h : Run cfg flatEvents w) : w.store.OnlyNotes := by
  induction h with
  | load hstart hlisting _ hrun =>
    refine (confined_loadRootNodeTree hlisting hrun fun n e he => ?_).1
    rw [Store.entry, hstart n] at he
    cases he
  -- Other programs change files, but no node.
  | external files env h ih => exact ih
  | call h hv hG hrun ih => exact (confined_exec hv hG hrun ih).1

/-- The load, and every call of a run, leaves each file as it is that is not one of VDIR with
    `.ics` in its name. -/
theorem other_files_untouched {filepath : CStr} (hother : ¬ cfg.NotePath filepath) :
    (∀ (w w' : World Text) (listing : Option (List Dirent)), w.AtStart →
      ValidListing (listing.getD []) → loadRootNodeTree cfg listing w = .ok ((), w') →
        w'.files filepath = w.files filepath) ∧
    ∀ (w w' : World Text) (o : Op) (status : Int), Run cfg flatEvents w → o.Valid cfg w →
      (∀ event, o = .event event → slash ∉ event.name) → exec cfg o w = .ok (status, w') →
        w'.files filepath = w.files filepath := by
  refine ⟨fun w w' listing hstart hlisting hrun => ?_, fun w w' o status h hv hflat hrun => ?_⟩
  -- Before the load there are no nodes.
  · refine (confined_loadRootNodeTree hlisting hrun fun n e he => ?_).2 filepath hother
    rw [Store.entry, hstart n] at he
    cases he
  · exact (confined_exec hv hflat hrun (Run.onlyNotes h)).2 filepath hother

/-- A directory with a note in it, beside a file that is not a note. -/
def besideTodo : List (CStr × Icalcomponent) :=
  nestedNote ++ [(bytes "todo.md", sampleNote (bytes "t") (bytes "Todo") [])]

theorem other_files_untouched_besideTodo :
    ∃ w', exec sampleConfig (.unlink (bytes "/Dir/Note.txt")) (sampleMount besideTodo {}) =
        .ok (0, w') ∧
      w'.files (bytes "/vdir/n.ics") = none ∧
      w'.files (bytes "/vdir/todo.md") =
        (sampleStart besideTodo).files (bytes "/vdir/todo.md") := by
  have hother : ¬ sampleConfig.NotePath (bytes "/vdir/todo.md") := by
    rintro ⟨k, hk, heq⟩
    have hpath : bytes "/vdir/todo.md" = appendPath sampleConfig.vdir (bytes "todo.md") := by decide
    -- A file of VDIR can be a note only by its name.
    obtain rfl : bytes "todo.md" = k := appendPath_inj.1 (hpath.symm.trans heq)
    exact absurd hk.2 (by decide)
  obtain ⟨hloads, hcalls⟩ := other_files_untouched hother
  have hflat : ∀ d ∈ besideTodo, slash ∉ d.1 := by decide
  have hload : (loadRootNodeTree sampleConfig (sampleListing besideTodo)).check
      (sampleStart besideTodo) (fun _ _ => true) = true := by decide +kernel
  have hmount : Run sampleConfig flatEvents (sampleMount besideTodo {}) :=
    run_sampleMount _ (by decide) hflat trivial hload
  obtain ⟨u, hloaded, _⟩ := Prog.run_of_check hload
  obtain ⟨status, hrun, hcheck⟩ := Prog.run_of_check
    (m := exec sampleConfig (.unlink (bytes "/Dir/Note.txt"))) (s := sampleMount besideTodo {})
    (f := fun status w' => decide (status = 0 ∧ (w'.files (bytes "/vdir/n.ics")).isNone = true))
    (by decide +kernel)
  obtain ⟨rfl, hgone⟩ := of_decide_eq_true hcheck
  have hlisting : ValidListing ((sampleListing besideTodo).getD []) := by
    refine ⟨by decide, fun d hd => ?_⟩
    obtain ⟨p, hp, rfl⟩ := List.mem_map.1 hd
    exact hflat p hp
  have hloadKept := hloads _ _ _ (fun _ => rfl) hlisting hloaded
  have hcallKept := hcalls _ _ (.unlink (bytes "/Dir/Note.txt")) 0 hmount trivial nofun hrun
  exact ⟨_, hrun, Option.isNone_iff_eq_none.1 hgone, hcallKept.trans hloadKept⟩

end Agendafs
