import Agendafs.Spec.Splitters

/-!
# Which calls can store too many segments

Only `get_node_by_path` calls `split_path`, and it does so with the path of the
call or with the path of its parent. So a call whose paths have at most 255
segments never stores one behind the end of the array, in any state.

## Key results

- `inBounds_getNodeByPath`: a lookup of such a path
- `inBounds_exec`, `inBounds_reading`: a call with such paths
-/

namespace Agendafs

open Prog

/-- From no state is a segment stored behind the end of the array. -/
abbrev InBounds {σ α : Type} (m : Prog Crash σ α) : Prop := m.Avoids .segmentsOverflow

/-! ## The tree -/

section Tree

variable {n p : NodeId}

@[grind .] theorem inBounds_nonNull {α : Type} (a : Option α) : InBounds (nonNull a) := by
  cases a with
  | none => exact .throw nofun
  | some a => exact .pure a

@[grind .] theorem inBounds_deref : InBounds (deref n) := by grind [deref]

@[grind .] theorem inBounds_writeNode (f : TreeNode → TreeNode) : InBounds (writeNode n f) := by
  grind [writeNode]

@[grind .] theorem inBounds_createTreeNode (data : Option AgendaEntry) :
    InBounds (createTreeNode data) := by grind [createTreeNode]

@[grind .] theorem inBounds_addChild : InBounds (addChild p n) := by grind [addChild]

@[grind .] theorem inBounds_nodeHasChildren : InBounds (nodeHasChildren n) := by
  grind [nodeHasChildren]

@[grind .] theorem inBounds_freeTree (fuel : Nat) : InBounds (freeTree fuel n) := by
  induction fuel generalizing n with
  | zero => exact .throw nofun
  | succ fuel ih => exact .bind inBounds_deref fun t => .bind (.forM fun _ => ih) fun _ => .modify _

@[grind .] theorem inBounds_detachTreeNode : InBounds (detachTreeNode n) := by
  grind [detachTreeNode]

@[grind .] theorem inBounds_moveNode : InBounds (moveNode p n) := by grind [moveNode]

@[grind .] theorem inBounds_setNodeFilename (filename : CStr) :
    InBounds (setNodeFilename n filename) := by grind [setNodeFilename]

@[grind .] theorem inBounds_getFuseNodeFromVdirName (vdirName : CStr) :
    InBounds (getFuseNodeFromVdirName vdirName) := by grind [getFuseNodeFromVdirName]

@[grind .] theorem inBounds_isRootNode : InBounds (isRootNode n) := by grind [isRootNode]

@[grind .] theorem inBounds_getNodeFilename : InBounds (getNodeFilename n) := by
  grind [getNodeFilename]

@[grind .] theorem inBounds_getVdirFilepath (vdir : CStr) : InBounds (getVdirFilepath vdir n) := by
  grind [getVdirFilepath]

@[grind .] theorem inBounds_deleteFuseNode : InBounds (deleteFuseNode n) := by
  grind [deleteFuseNode]

@[grind .] theorem inBounds_createFuseNode (entry : AgendaEntry) :
    InBounds (createFuseNode entry) := by grind [createFuseNode]

@[grind .] theorem inBounds_upsertFuseNode (entry : AgendaEntry) :
    InBounds (upsertFuseNode entry) := by grind [upsertFuseNode]

@[grind .] theorem inBounds_isUnique (newFilename : CStr) (siblings : List NodeId) :
    InBounds (isUnique newFilename siblings) := by
  induction siblings with
  | nil => exact .pure true
  | cons sibling siblings ih => grind [isUnique]

@[grind .] theorem inBounds_uniqueFilename (filename newFilename : CStr) (siblings : List NodeId)
    (rounds conflictCount : Nat) :
    InBounds (uniqueFilename filename siblings rounds newFilename conflictCount) := by
  induction rounds generalizing newFilename conflictCount with
  | zero => exact .throw nofun
  | succ rounds ih => grind [uniqueFilename]

@[grind .] theorem inBounds_addFuseChild (parent : Option NodeId) :
    InBounds (addFuseChild parent n) := by grind [addFuseChild]

@[grind .] theorem inBounds_moveFuseNode (parent : Option NodeId) :
    InBounds (moveFuseNode parent n) := by grind [moveFuseNode]

end Tree

/-! ## Lookup -/

theorem inBounds_findChild (segment : CStr) (children : List NodeId) :
    InBounds (findChild segment children) := by
  induction children with
  | nil => exact .pure none
  | cons child children ih => grind [findChild]

theorem inBounds_walkSegments (current : NodeId) (segments : List CStr) :
    InBounds (walkSegments current segments) := by
  induction segments generalizing current with
  | nil => exact .pure _
  | cons segment segments ih => grind [walkSegments, inBounds_findChild]

/-- The segments of the path have room in the array. -/
def FewSegments (path : CStr) : Prop := (splitPath path).length ≤ 255

theorem FewSegments.parent {path parent : CStr} (h : FewSegments path)
    (hparent : getParentPath path = some parent) : FewSegments parent :=
  (length_splitPath_parent hparent).trans h

@[grind ←] theorem inBounds_getNodeByPath {path : CStr} (h : FewSegments path) :
    InBounds (getNodeByPath path) := by
  have hlen : ¬ 255 < (splitPath path).length := Nat.not_lt.2 h
  grind [getNodeByPath, inBounds_walkSegments]

@[grind .] theorem inBounds_getNodeByUuid (targetUuid : CStr) :
    InBounds (getNodeByUuid targetUuid) := by grind [getNodeByUuid]

section Files

variable {Text : Type} {cfg : Config Text} {n p : NodeId}

@[grind ←] theorem inBounds_onStore {α : Type} {m : StoreM α} (h : InBounds m) :
    InBounds (onStore m : FsM Text α) := Avoids.zoom h

/-- A pointer that is dereferenced at once is not NULL in what follows. -/
theorem inBounds_nonNull_bind {α β : Type} {a : Option α} {f : α → FsM Text β}
    (h : ∀ b, a = some b → InBounds (f b)) : InBounds (onStore (nonNull a) >>= f) := by
  cases a with
  | none => exact fun w => nofun
  | some b => exact h b rfl

/-! ## Files -/

@[grind .] theorem inBounds_parseIcsFile (filename : CStr) :
    InBounds (parseIcsFile cfg filename) := by grind [parseIcsFile]

@[grind .] theorem inBounds_getIcalcomponentFromNode :
    InBounds (getIcalcomponentFromNode cfg n) := by grind [getIcalcomponentFromNode]

@[grind .] theorem inBounds_nodeIsDirectory (nodeIcs : Option Icalcomponent) :
    InBounds (nodeIsDirectory cfg n nodeIcs) := by grind [nodeIsDirectory]

@[grind .] theorem inBounds_getIcalNow : InBounds (getIcalNow : FsM Text CStr) := by
  grind [getIcalNow]

@[grind .] theorem inBounds_writeToFile (filepath : CStr) (content : Text) :
    InBounds (writeToFile filepath content) := by grind [writeToFile]

@[grind .] theorem inBounds_removeFile (filepath : CStr) :
    InBounds (removeFile filepath : FsM Text Int) := by grind [removeFile]

@[grind .] theorem inBounds_writeIcalFile (ic : Icalcomponent) :
    InBounds (writeIcalFile cfg n ic) := by grind [writeIcalFile]

@[grind .] theorem inBounds_writeParentChildComponents (iparent ichild : Icalcomponent) :
    InBounds (writeParentChildComponents cfg iparent n ichild) := by
  grind [writeParentChildComponents]

@[grind .] theorem inBounds_updateSummary (ics : Icalcomponent) :
    InBounds (updateSummary cfg ics n) := by grind [updateSummary]

@[grind .] theorem inBounds_updateNodeFileExtension (ics : Icalcomponent) :
    InBounds (updateNodeFileExtension cfg ics n) := by grind [updateNodeFileExtension]

@[grind .] theorem inBounds_loadAgendaEntryFromIcsFile (filename : CStr) :
    InBounds (loadAgendaEntryFromIcsFile cfg filename) := by
  grind [loadAgendaEntryFromIcsFile, parseIcsToAgendaEntry]

@[grind .] theorem inBounds_markParent (pic : Option Icalcomponent) :
    InBounds (markParent cfg n pic) := by
  cases pic with
  | none => grind [markParent]
  | some pic => grind [markParent]

@[grind .] theorem inBounds_editNode (edit : Icalcomponent → Icalcomponent) :
    InBounds (editNode cfg n edit) := by grind [editNode]

@[grind .] theorem inBounds_editNodeAsserted (edit : Icalcomponent → Icalcomponent) :
    InBounds (editNodeAsserted cfg n edit) := by grind [editNodeAsserted]

@[grind .] theorem inBounds_writeNullToFile (filepath : CStr) :
    InBounds (writeNullToFile filepath : FsM Text Nat) := by grind [writeNullToFile]

@[grind .] theorem inBounds_writeNullIcalFile :
    InBounds (writeNullIcalFile cfg n) := by grind [writeNullIcalFile]

@[grind .] theorem inBounds_editNodeUnchecked (edit : Icalcomponent → Icalcomponent) :
    InBounds (editNodeUnchecked cfg n edit) := by grind [editNodeUnchecked]

@[grind .] theorem inBounds_calculateNodeSize (fuel : Nat) (ic : Option Icalcomponent) :
    InBounds (calculateNodeSize cfg fuel n ic) := by
  induction fuel generalizing n ic with
  | zero => exact .throw nofun
  | succ fuel ih =>
    have hsizes : ∀ children : List NodeId, InBounds (children.mapM fun child =>
        getIcalcomponentFromNode cfg child >>= calculateNodeSize cfg fuel child) :=
      fun children => .mapM fun _ => .bind inBounds_getIcalcomponentFromNode fun ic => ih ic
    grind [calculateNodeSize]

@[grind .] theorem inBounds_getNodeStat (ic : Option Icalcomponent) :
    InBounds (getNodeStat cfg n ic) := by grind [getNodeStat]

@[grind .] theorem inBounds_deleteVdirEntry : InBounds (deleteVdirEntry cfg n) := by
  grind [deleteVdirEntry]

end Files

/-! ## The calls -/

section Calls

variable {Text : Type} {cfg : Config Text} {path old new : CStr}

/-- The rule for a call that looks up a path. -/
theorem inBounds_lookup {α : Type} {f : Option NodeId → FsM Text α} (h : FewSegments path)
    (hnone : InBounds (f none)) (hsome : ∀ n, InBounds (f (some n))) :
    InBounds (onStore (getNodeByPath path) >>= f) := by
  refine .bind (inBounds_onStore (inBounds_getNodeByPath h)) fun found => ?_
  cases found with
  | none => exact hnone
  | some n => exact hsome n

theorem inBounds_insertFuseNodeToPath (h : FewSegments path) (n : NodeId) (ic : Icalcomponent) :
    InBounds (insertFuseNodeToPath cfg path n ic) := by
  refine inBounds_nonNull_bind fun parent hparent => ?_
  exact inBounds_lookup (h.parent hparent) (.pure _) fun p => by grind

theorem inBounds_createEntryFromFuse (h : FewSegments path) (etype : EntryType) :
    InBounds (createEntryFromFuse cfg path etype) := by
  grind [createEntryFromFuse, inBounds_insertFuseNodeToPath]

theorem inBounds_createNew (h : FewSegments path) (etype : EntryType) :
    InBounds (createNew cfg path etype) := by
  grind [createNew, inBounds_createEntryFromFuse]

theorem inBounds_fuseWrite (h : FewSegments path) (buf : List UInt8) (size offset : Nat) :
    InBounds (fuseWrite cfg path buf size offset) := by
  unfold fuseWrite
  split
  · exact .pure _
  · exact inBounds_lookup h (.pure _) fun n => by grind

theorem inBounds_fuseUnlink (h : FewSegments path) : InBounds (fuseUnlink cfg path) :=
  inBounds_lookup h (.pure _) fun n => by grind

theorem inBounds_fuseRmdir (h : FewSegments path) : InBounds (fuseRmdir cfg path) :=
  inBounds_lookup h (.pure _) fun n => by grind

/-- The last part of a rename: the node is moved below the new parent. -/
theorem inBounds_moveRenamed (p c : NodeId) (newParentIcs : Option Icalcomponent)
    (childIcs : Icalcomponent) :
    InBounds (match newParentIcs with
      | some newParentIcs => do
        let _ ← onStore (moveNode p c)
        let _ ← writeParentChildComponents cfg newParentIcs c childIcs
        pure 0
      | none => do
        let root := (← get).store.fuseRoot
        let _ ← onStore (moveNode root c)
        pure 0 : FsM Text Int) := by
  cases newParentIcs with
  | none => grind
  | some newParentIcs => grind

theorem inBounds_doAgendaRename (hold : FewSegments old) (hnew : FewSegments new) :
    InBounds (doAgendaRename cfg old new) := by
  refine inBounds_nonNull_bind fun parent hparent => ?_
  refine inBounds_lookup (hnew.parent hparent) (.pure _) fun p => ?_
  refine inBounds_lookup hold (.throw nofun) fun c => ?_
  refine .bind inBounds_getIcalcomponentFromNode fun childIcs => ?_
  cases childIcs with
  | none => exact .throw nofun
  | some childIcs =>
    refine .bind inBounds_getIcalcomponentFromNode fun newParentIcs => ?_
    refine .bind (inBounds_onStore (by grind)) fun oldParentNode => ?_
    refine .bind inBounds_getIcalcomponentFromNode fun oldParentIcs => ?_
    refine .bind (inBounds_onStore (inBounds_setNodeFilename _)) fun _ => ?_
    refine .bind (inBounds_updateSummary _) fun childIcs => ?_
    refine .bind (inBounds_updateNodeFileExtension _) fun childIcs => ?_
    cases oldParentIcs with
    | none => exact inBounds_moveRenamed p c newParentIcs childIcs
    | some oldParentIcs =>
      simp only
      cases hremove : removeParentChildRelationshipFromComponent oldParentIcs childIcs with
      | ok childIcs => exact inBounds_moveRenamed p c newParentIcs childIcs
      | error crash =>
        -- The relation to a parent without UID stops in another way.
        rw [remove_error hremove]
        exact .bind (.throw nofun) fun _ => inBounds_moveRenamed p c newParentIcs _

theorem inBounds_fuseRename (hold : FewSegments old) (hnew : FewSegments new) (flags : Nat) :
    InBounds (fuseRename cfg old new flags) := by
  have hrename : InBounds (doAgendaRename cfg old new) := inBounds_doAgendaRename hold hnew
  exact inBounds_lookup hnew hrename fun n => by grind

theorem inBounds_fuseSetxattr (h : FewSegments path) (attrib : CStr) (value : List UInt8)
    (s flags : Nat) : InBounds (fuseSetxattr cfg path attrib value s flags) := by
  have hdtstart : ∀ n, InBounds (setDtstart cfg (cString value) n) := fun n => by
    grind [setDtstart]
  unfold fuseSetxattr
  split
  · exact .pure _
  · split
    · exact .pure _
    · exact inBounds_lookup h (.pure _) fun n => by
        grind [clearDtstart, setNodeCategories, setNodeClass, setNodeStatus]

theorem inBounds_fuseRemovexattr (h : FewSegments path) (attrib : CStr) :
    InBounds (fuseRemovexattr cfg path attrib) :=
  inBounds_lookup h (.pure _) fun n => by grind [clearDtstart, setNodeCategories, deleteNodeClass]

theorem inBounds_updateOrCreateFuseEntryFromVdir (filepathVdir : CStr) :
    InBounds (updateOrCreateFuseEntryFromVdir cfg filepathVdir) := by
  refine .bind (inBounds_loadAgendaEntryFromIcsFile _) fun updatedEntry => ?_
  cases updatedEntry with
  | none => exact .pure _
  | some updatedEntry =>
    refine .bind (inBounds_onStore (inBounds_upsertFuseNode _)) fun n => ?_
    refine .bind inBounds_getIcalcomponentFromNode fun entryIcs => ?_
    grind

theorem inBounds_handleVdirEvent (event : InotifyEvent) : InBounds (handleVdirEvent cfg event) := by
  have hdelete : ∀ filepath, InBounds (deleteFromVdirPath filepath : FsM Text Int) :=
    fun filepath => by grind [deleteFromVdirPath]
  grind [handleVdirEvent, inBounds_updateOrCreateFuseEntryFromVdir]

/-- The paths that a call is given. -/
def Op.paths : Op → List CStr
  | .create filepath => [filepath]
  | .mkdir filepath => [filepath]
  | .write path _ _ _ => [path]
  | .unlink file => [file]
  | .rmdir filepath => [filepath]
  | .rename old new _ => [old, new]
  | .setxattr path _ _ _ _ => [path]
  | .removexattr path _ => [path]
  | .event _ => []

/-- A call that changes something, with paths that have room in the array. -/
theorem inBounds_exec {o : Op} (h : ∀ path ∈ o.paths, FewSegments path) :
    InBounds (exec cfg o) := by
  cases o with
  | create filepath => exact inBounds_createNew (h filepath List.mem_cons_self) .file
  | mkdir filepath => exact inBounds_createNew (h filepath List.mem_cons_self) .directory
  | write path buf size offset => exact inBounds_fuseWrite (h path List.mem_cons_self) buf size offset
  | unlink file => exact inBounds_fuseUnlink (h file List.mem_cons_self)
  | rmdir filepath => exact inBounds_fuseRmdir (h filepath List.mem_cons_self)
  | rename old new flags =>
    exact inBounds_fuseRename (h old List.mem_cons_self)
      (h new (List.mem_cons_of_mem _ List.mem_cons_self)) flags
  | setxattr path attrib value s flags =>
    exact inBounds_fuseSetxattr (h path List.mem_cons_self) attrib value s flags
  | removexattr path attrib => exact inBounds_fuseRemovexattr (h path List.mem_cons_self) attrib
  | event event => exact .bind (inBounds_handleVdirEvent event) fun _ => .pure 0

/-! ## The calls that only read -/

@[grind .] theorem inBounds_getNodeCategories (n : NodeId) : InBounds (getNodeCategories cfg n) := by
  grind [getNodeCategories]

@[grind .] theorem inBounds_getDtstart (n : NodeId) : InBounds (getDtstart cfg n) := by
  grind [getDtstart]

@[grind .] theorem inBounds_getNodeClass (n : NodeId) : InBounds (getNodeClass cfg n) := by
  grind [getNodeClass]

@[grind .] theorem inBounds_getNodeStatus (n : NodeId) : InBounds (getNodeStatus cfg n) := by
  grind [getNodeStatus]

theorem inBounds_fillChildren (full : List FillerCall → Bool) (n : NodeId) (children : List NodeId)
    (handed : List FillerCall) : InBounds (fillChildren cfg full n children handed) := by
  induction children generalizing handed with
  | nil => exact .pure _
  | cons child children ih =>
    refine .bind inBounds_getIcalcomponentFromNode fun ic => ?_
    cases ic with
    | none => exact .throw nofun
    | some ic => grind

/-- A call that only reads. -/
inductive Reading
  | read (path : CStr) (size offset : Nat)
  | readdir (full : List FillerCall → Bool) (path : CStr)
  | getattr (path : CStr)
  | getxattr (path attrib : CStr) (buf : List UInt8) (s : Nat)
  | listxattr (path : CStr) (list : List UInt8) (size : Nat) (behind : List UInt8)

/-- The path that it is given. -/
def Reading.target : Reading → CStr
  | .read path _ _ => path
  | .readdir _ path => path
  | .getattr path => path
  | .getxattr path _ _ _ => path
  | .listxattr path _ _ _ => path

/-- Run one such call, without looking at what it returns. -/
def Reading.exec (cfg : Config Text) : Reading → FsM Text Unit
  | .read path size offset => do let _ ← fuseRead cfg path size offset
  | .readdir full path => do let _ ← fuseReaddir cfg full path
  | .getattr path => do let _ ← fuseGetattr cfg path
  | .getxattr path attrib buf s => do let _ ← fuseGetxattr cfg path attrib buf s
  | .listxattr path list size behind => do let _ ← fuseListxattr cfg path list size behind

/-- A call that reads at a path that has room in the array. -/
theorem inBounds_reading {r : Reading} (h : FewSegments r.target) : InBounds (r.exec cfg) := by
  cases r with
  | read path size offset =>
    refine .bind (inBounds_lookup h (.pure _) fun n => ?_) fun _ => .pure _
    grind
  | readdir full path =>
    refine .bind (inBounds_lookup h (.pure _) fun n => ?_) fun _ => .pure _
    exact .bind (inBounds_onStore inBounds_deref) fun t => inBounds_fillChildren full n _ _
  | getattr path =>
    refine .bind ?_ fun _ => .pure _
    unfold fuseGetattr
    split
    · exact .pure _
    · exact inBounds_lookup h (.pure _) fun n => by grind
  | getxattr path attrib buf s =>
    refine .bind (inBounds_lookup h (.pure _) fun n => ?_) fun _ => .pure _
    grind
  | listxattr path list size behind =>
    refine .bind (inBounds_lookup h (.pure _) fun n => ?_) fun _ => .pure _
    refine .bind (inBounds_onStore inBounds_isRootNode) fun root => ?_
    split
    · exact .pure _
    · refine .bind inBounds_getIcalcomponentFromNode fun comp => ?_
      cases comp with
      | none => exact .throw nofun
      | some comp => grind

end Calls

end Agendafs
