import Agendafs.ForStd.Tasks
import Agendafs.Native.Main

/-!
# The calls that only read

Six calls take the lock for reading: they are made of reads of tree and files, and
never write either.

## Key results

- `observes_fuseGetattr`, `observes_fuseReaddir`, ..: the six calls
-/

namespace Agendafs

open Prog

/-! ## The tree -/

section Tree

variable {n : NodeId}

@[grind .] theorem observes_nonNull {α : Type} (a : Option α) : Observes (nonNull a) := by
  cases a with
  | none => exact .throw _
  | some a => exact .pure a

@[grind .] theorem observes_deref : Observes (deref n) := by grind [deref]

@[grind .] theorem observes_nodeHasChildren : Observes (nodeHasChildren n) := by
  grind [nodeHasChildren]

@[grind .] theorem observes_isRootNode : Observes (isRootNode n) := by grind [isRootNode]

@[grind .] theorem observes_getNodeFilename : Observes (getNodeFilename n) := by
  grind [getNodeFilename]

@[grind .] theorem observes_getVdirFilepath (vdir : CStr) : Observes (getVdirFilepath vdir n) := by
  grind [getVdirFilepath]

theorem observes_findChild (segment : CStr) (children : List NodeId) :
    Observes (findChild segment children) := by
  induction children with
  | nil => exact .pure none
  | cons child children ih => grind [findChild]

theorem observes_walkSegments (current : NodeId) (segments : List CStr) :
    Observes (walkSegments current segments) := by
  induction segments generalizing current with
  | nil => exact .pure _
  | cons segment segments ih => grind [walkSegments, observes_findChild]

@[grind .] theorem observes_getNodeByPath (path : CStr) : Observes (getNodeByPath path) := by
  grind [getNodeByPath, observes_walkSegments]

end Tree

/-! ## Notes -/

section Notes

variable {Text : Type} {cfg : Config Text} {n : NodeId}

@[grind ←] theorem observes_onStore {α : Type} {m : StoreM α} (h : Observes m) :
    Observes (onStore m : FsM Text α) := by
  unfold onStore
  refine h.zoom ?_ ?_ ?_
  · exact fun _ => rfl
  · exact fun _ _ => rfl
  · exact fun _ _ _ => rfl

@[grind .] theorem observes_parseIcsFile (filename : CStr) :
    Observes (parseIcsFile cfg filename) := by grind [parseIcsFile]

@[grind .] theorem observes_getIcalcomponentFromNode : Observes (getIcalcomponentFromNode cfg n) := by
  grind [getIcalcomponentFromNode]

@[grind .] theorem observes_nodeIsDirectory (ic : Option Icalcomponent) :
    Observes (nodeIsDirectory cfg n ic) := by grind [nodeIsDirectory]

@[grind .] theorem observes_calculateNodeSize (fuel : Nat) (ic : Option Icalcomponent) :
    Observes (calculateNodeSize cfg fuel n ic) := by
  induction fuel generalizing n ic with
  | zero => exact .throw _
  | succ fuel ih =>
    refine .bind (observes_nodeIsDirectory ic) fun isDirectory => ?_
    cases isDirectory with
    | false => exact .pure _
    | true =>
      refine .bind (observes_onStore observes_deref) fun t => .bind (.mapM fun child => ?_)
        fun sizes => .pure _
      exact .bind observes_getIcalcomponentFromNode fun cic => ih cic

@[grind .] theorem observes_getNodeStat (ic : Option Icalcomponent) :
    Observes (getNodeStat cfg n ic) := by grind [getNodeStat]

@[grind .] theorem observes_getNodeCategories : Observes (getNodeCategories cfg n) := by
  grind [getNodeCategories]

@[grind .] theorem observes_getDtstart : Observes (getDtstart cfg n) := by grind [getDtstart]

@[grind .] theorem observes_getNodeClass : Observes (getNodeClass cfg n) := by grind [getNodeClass]

@[grind .] theorem observes_getNodeStatus : Observes (getNodeStatus cfg n) := by
  grind [getNodeStatus]

end Notes

/-! ## The calls -/

section Calls

variable {Text : Type} {cfg : Config Text}

theorem observes_fuseGetattr (path : CStr) : Observes (fuseGetattr cfg path) := by
  grind [fuseGetattr]

theorem observes_fuseOpen (path : CStr) : Observes (fuseOpen path : FsM Text Int) := by
  grind [fuseOpen]

theorem observes_fuseRead (path : CStr) (size offset : Nat) :
    Observes (fuseRead cfg path size offset) := by
  unfold fuseRead
  refine .bind (observes_onStore (observes_getNodeByPath path)) fun n => ?_
  cases n with
  | none => exact .pure _
  | some n =>
    refine .bind observes_getIcalcomponentFromNode fun ic => ?_
    cases ic with
    | none => exact .pure _
    | some ic =>
      simp only
      split
      · exact .pure _
      · split <;> exact .pure _

theorem observes_fillChildren (full : List FillerCall → Bool) (node : NodeId)
    (children : List NodeId) (handed : List FillerCall) :
    Observes (fillChildren cfg full node children handed) := by
  induction children generalizing handed with
  | nil => exact .pure _
  | cons child children ih => grind [fillChildren]

theorem observes_fuseReaddir (full : List FillerCall → Bool) (path : CStr) :
    Observes (fuseReaddir cfg full path) := by
  grind [fuseReaddir, observes_fillChildren]

theorem observes_fuseListxattr (path : CStr) (list : List UInt8) (size : Nat)
    (behind : List UInt8) : Observes (fuseListxattr cfg path list size behind) := by
  unfold fuseListxattr
  refine .bind (observes_onStore (observes_getNodeByPath path)) fun n => ?_
  cases n with
  | none => exact .pure _
  | some n =>
    refine .bind (observes_onStore observes_isRootNode) fun isRoot => ?_
    cases isRoot with
    | true => exact .pure _
    | false =>
      refine .bind observes_getIcalcomponentFromNode fun comp => ?_
      cases comp with
      | none => exact .throw _
      | some comp =>
        exact .bind observes_getNodeCategories fun _ => .bind observes_getDtstart fun _ =>
          .bind observes_getNodeClass fun _ => .bind observes_getNodeStatus fun _ => .pure _

theorem observes_fuseGetxattr (path attrib : CStr) (buf : List UInt8) (s : Nat) :
    Observes (fuseGetxattr cfg path attrib buf s) := by
  grind [fuseGetxattr]

end Calls

end Agendafs
