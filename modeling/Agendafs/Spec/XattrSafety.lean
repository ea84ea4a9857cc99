import Agendafs.Spec.XattrCalls

/-!
# Where the calls for extended attributes stop

The root has neither entry nor component, and a file that has been cut short has no
component either. Only some branches of the four calls look for that, so whether a
call returns depends on the attribute, on the value and on the node.

## Key results

- `fuseGetxattr_returns_iff`, `fuseListxattr_returns_iff`: the calls that read
- `editXattrAt_returns_iff`: the calls that edit
- `xattrCall_returns_iff`: all four
-/

namespace Agendafs

open Icalcomponent Store

variable {Text : Type} {cfg : Config Text} {w : World Text} {path attrib : CStr} {n : NodeId}
  {f : Icalcomponent → Icalcomponent}

/-- The file of the node opens; the root has none. -/
def World.OpensNode (cfg : Config Text) (w : World Text) (n : NodeId) : Prop :=
  ∀ e, w.store.entry n = some e → w.Readable cfg e.filenameVdir

/-! ## Looking up and reading -/

theorem returns_lookup_iff {α : Type} {m : Option NodeId → FsM Text α} (h : w.store.Inv)
    (hl : w.store.lookup path = some n) :
    (onStore (getNodeByPath path) >>= m).Returns w ↔
      (splitPath path).length ≤ 255 ∧ (m (some n)).Returns w := by
  by_cases hpath : (splitPath path).length ≤ 255
  · rw [Prog.returns_bind_ok (getNodeByPath_found h hpath), hl, and_iff_right hpath]
  · have herror := getNodeByPath_tooDeep h hpath
    exact iff_of_false (Prog.not_returns_bind_error herror) fun hret => hpath hret.1

theorem returns_component_iff {α : Type} {m : Option Icalcomponent → FsM Text α}
    (hn : w.store.Live n) :
    (getIcalcomponentFromNode cfg n >>= m).Returns w ↔
      w.OpensNode cfg n ∧ (m (w.component cfg n)).Returns w := by
  by_cases hopens : w.OpensNode cfg n
  · rw [Prog.returns_bind_ok (getIcalcomponentFromNode_opens hn hopens), and_iff_right hopens]
  · obtain ⟨crash, herror, _⟩ := getIcalcomponentFromNode_error hopens
    exact iff_of_false (Prog.not_returns_bind_error herror) fun hret => hopens hret.1

/-! ## The calls that read -/

/-- What `fuse_getxattr` makes of a getter always returns, so it stops only where the getter does. -/
theorem getter_returns_iff {α β : Type} {m : Option Icalcomponent → FsM Text α}
    {m' : α → FsM Text β} (hn : w.store.Live n) (hm : ∀ o, ∃ a, m o w = .ok (a, w))
    (hm' : ∀ a, (m' a).Returns w) :
    ((getIcalcomponentFromNode cfg n >>= m) >>= m').Returns w ↔ w.OpensNode cfg n := by
  obtain ⟨a, ha⟩ := hm (w.component cfg n)
  rw [bind_assoc, returns_component_iff hn, Prog.returns_bind_ok ha, and_iff_left (hm' a)]

/-- A branch of `fuse_getxattr` for another attribute than the UID. -/
theorem getxattr_branch_iff {a : CStr} {returns opens uid : Prop} (hattrib : attrib = a)
    (ha : startsWithStr a (bytes "user.") = true ∧ a ≠ bytes "user.uid") (h : returns ↔ opens) :
    returns ↔ (startsWithStr attrib (bytes "user.") = true →
      opens ∧ (attrib = bytes "user.uid" → uid)) := by
  rw [hattrib, forall_prop_of_true ha.1, h]
  exact ⟨fun hopens => ⟨hopens, fun huid => absurd huid ha.2⟩, fun hret => hret.1⟩

theorem fuseGetxattr_returns_iff (h : w.store.Inv) (hl : w.store.lookup path = some n)
    (attrib : CStr) (buf : List UInt8) (s : Nat) :
    (fuseGetxattr cfg path attrib buf s).Returns w ↔
      (splitPath path).length ≤ 255 ∧
        (startsWithStr attrib (bytes "user.") = true →
          w.OpensNode cfg n ∧
            (attrib = bytes "user.uid" → ((w.component cfg n).bind (·.getUid)).isSome)) := by
  have hn := h.live_of_lookup hl
  unfold fuseGetxattr
  rw [returns_lookup_iff h hl]
  refine and_congr_right fun _ => ?_
  simp only
  split
  · rename_i hattrib
    refine getxattr_branch_iff hattrib (by decide) (getter_returns_iff hn (fun o => ?_) fun a => ?_)
    · cases o <;> exact ⟨_, rfl⟩
    · cases a <;> exact ⟨_, rfl⟩
  split
  · rename_i hattrib
    -- `assert(uid)`
    rw [returns_component_iff hn, hattrib, forall_prop_of_true (by decide), forall_prop_of_true rfl]
    refine and_congr_right fun _ => ?_
    cases (w.component cfg n).bind (·.getUid) with
    | none => exact iff_of_false (Prog.not_returns_of_error rfl) (by decide)
    | some uid => exact iff_of_true (Prog.returns_of_ok rfl) rfl
  split
  · rename_i hattrib
    refine getxattr_branch_iff hattrib (by decide) (getter_returns_iff hn (fun o => ?_) fun a => ?_)
    · cases o <;> exact ⟨_, rfl⟩
    · cases a <;> exact ⟨_, rfl⟩
  split
  · rename_i hattrib
    refine getxattr_branch_iff hattrib (by decide) (getter_returns_iff hn (fun o => ?_) fun a => ?_)
    · cases o <;> exact ⟨_, rfl⟩
    · cases a <;> exact ⟨_, rfl⟩
  split
  · rename_i hattrib
    refine getxattr_branch_iff hattrib (by decide) (getter_returns_iff hn (fun o => ?_) fun a => ?_)
    · exact ⟨_, rfl⟩
    · cases a <;> exact ⟨_, rfl⟩
  rename_i hcategories huid hclass hstatus hdtstart
  split
  · rename_i hstarts
    refine (returns_component_iff hn).trans (getxattr_branch_iff rfl ⟨hstarts, huid⟩
      (and_iff_left ?_))
    cases (w.component cfg n).bind (icalcomponentGetCustomXValue cfg.ical · (attrib.drop 5)) with
    | none => exact Prog.returns_of_ok rfl
    | some value => exact Prog.returns_of_ok rfl
  -- Any other attribute is refused without a look at the file.
  · rename_i hstarts
    exact iff_of_true (Prog.returns_of_ok rfl) fun hstarts' => absurd hstarts' hstarts

theorem fuseListxattr_returns_iff (h : w.store.Inv) (hl : w.store.lookup path = some n)
    (list : List UInt8) (size : Nat) (behind : List UInt8) :
    (fuseListxattr cfg path list size behind).Returns w ↔
      (splitPath path).length ≤ 255 ∧
        (w.store.entry n = none ∨ w.OpensNode cfg n ∧ (w.component cfg n).isSome) := by
  have hn := h.live_of_lookup hl
  have hroot := onStore_run (w := w) (isRootNode_run hn)
  by_cases hreads : (splitPath path).length ≤ 255 ∧ w.OpensNode cfg n ∧
      (w.component cfg n).isSome
  -- A node with a component is listed by `fuseListxattr_run`.
  · obtain ⟨c, hc⟩ := Option.isSome_iff_exists.1 hreads.2.2
    exact iff_of_true
      (Prog.returns_of_ok (fuseListxattr_run h ⟨hreads.1, hl, hreads.2.1⟩ hc list size behind))
      ⟨hreads.1, .inr hreads.2⟩
  · unfold fuseListxattr
    rw [returns_lookup_iff h hl]
    refine and_congr_right fun hpath => ?_
    simp only
    rw [Prog.returns_bind_ok hroot]
    cases he : w.store.entry n with
    -- The root has no attributes.
    | none => exact iff_of_true (Prog.returns_of_ok rfl) (.inl rfl)
    | some e =>
      simp only [Option.isNone_some, Bool.false_eq_true, if_false]
      rw [returns_component_iff hn, or_iff_right (by simp)]
      refine and_congr_right fun hopens => ?_
      cases hc : w.component cfg n with
      -- `assert(comp)`
      | none => exact iff_of_false (Prog.not_returns_of_error rfl) (by decide)
      | some c => exact absurd ⟨hpath, hopens, by rw [hc]; rfl⟩ hreads

/-! ## The calls that edit -/

/-- Writing a component into the file of its node returns. -/
theorem returns_written (hc : (w.component cfg n).isSome) (ic : Icalcomponent) :
    (writeIcalFile cfg n ic >>= fun r => pure (intOfSize r.1)).Returns w := by
  obtain ⟨c, hc⟩ := Option.isSome_iff_exists.1 hc
  obtain ⟨e, he⟩ := exists_entry_of_component hc
  rw [Prog.returns_bind_ok (writeIcalFile_run he ic)]
  exact Prog.returns_of_ok rfl

/-- The note of the node cannot be opened for writing. -/
def World.FailsToOpen (w : World Text) (n : NodeId) : Prop :=
  (w.store.entry n).isSome ∧ w.outcome = .openFailed

/-- What an edit of the attribute needs of the node: a file that opens, and a component, unless the
    setter looks for it. Without component a date is not written if the file cannot be opened. -/
def World.EditsNode (cfg : Config Text) (w : World Text) (n : NodeId) (attrib : CStr) : Prop :=
  w.OpensNode cfg n ∧ (attrib ∈ lenientXattrs ∨ (w.component cfg n).isSome ∨
    attrib = bytes "user.dtstart" ∧ w.FailsToOpen n)

/-- A note without component is written only as far as the attempt to open its file. -/
theorem returns_writtenNull_iff (hn : w.store.Live n) :
    (writeNullIcalFile cfg n >>= fun res => pure (intOfSize res)).Returns w ↔ w.FailsToOpen n := by
  unfold World.FailsToOpen
  cases he : w.store.entry n with
  | none =>
    exact iff_of_false (Prog.not_returns_bind_error (writeNullIcalFile_root hn he))
      fun hfails => Bool.false_ne_true hfails.1
  | some e =>
    have hrun : writeNullIcalFile cfg n w = _ := writeNullIcalFile_run he
    rw [Option.isSome_some, eq_self_iff_true, true_and]
    cases ho : w.outcome with
    | openFailed =>
      rw [ho] at hrun
      exact iff_of_true (by rw [Prog.returns_bind_ok hrun]; exact Prog.returns_of_ok rfl) rfl
    | writeFailed left =>
      rw [ho] at hrun
      exact iff_of_false (Prog.not_returns_bind_error hrun) nofun
    | written =>
      rw [ho] at hrun
      exact iff_of_false (Prog.not_returns_bind_error hrun) nofun

/-- An edit returns exactly if the node has what the setter takes for granted. -/
theorem editXattr_returns_iff (hn : w.store.Live n) (attrib : CStr)
    (f : Icalcomponent → Icalcomponent) :
    (editXattr cfg n attrib f).Returns w ↔ w.EditsNode cfg n attrib := by
  unfold editXattr editNode editNodeUnchecked editNodeAsserted World.EditsNode
  split
  · rename_i hlenient
    rw [returns_component_iff hn]
    refine and_congr_right fun _ => iff_of_true ?_ (.inl (List.contains_iff_mem.1 hlenient))
    cases hc : w.component cfg n with
    | none => exact Prog.returns_of_ok rfl
    | some c => exact returns_written (by rw [hc]; rfl) _
  -- The other setters use the component without a test.
  · rename_i hstrict
    rw [or_iff_right fun hlenient => hstrict (List.contains_iff_mem.2 hlenient)]
    split
    · rename_i hdtstart
      rw [returns_component_iff hn]
      refine and_congr_right fun _ => ?_
      cases hc : w.component cfg n with
      | none =>
        rw [or_iff_right (by decide), and_iff_right hdtstart]
        exact returns_writtenNull_iff hn
      | some c => exact iff_of_true (returns_written (by rw [hc]; rfl) _) (.inl rfl)
    · rename_i hdtstart
      rw [returns_component_iff hn, or_iff_left fun hfails => hdtstart hfails.1]
      refine and_congr_right fun _ => ?_
      cases hc : w.component cfg n with
      | none => exact iff_of_false (Prog.not_returns_of_error rfl) (by decide)
      | some c => exact iff_of_true (returns_written (by rw [hc]; rfl) _) rfl

theorem editXattrAt_returns_iff (h : w.store.Inv) (hl : w.store.lookup path = some n)
    (attrib : CStr) (edit : Option (Icalcomponent → Icalcomponent)) (refusal : Int) :
    (editXattrAt cfg path attrib edit refusal).Returns w ↔
      (splitPath path).length ≤ 255 ∧ (edit.isSome → w.EditsNode cfg n attrib) := by
  unfold editXattrAt
  rw [returns_lookup_iff h hl]
  refine and_congr_right fun _ => ?_
  cases edit with
  | none => exact iff_of_true (Prog.returns_of_ok rfl) fun hsome => absurd hsome (by decide)
  | some f =>
    rw [Option.isSome_some, forall_prop_of_true rfl]
    exact editXattr_returns_iff (h.live_of_lookup hl) attrib f

/-- The name or the value is longer than an attribute may be. -/
def XattrTooLong (attrib : CStr) (value : List UInt8) : Prop :=
  256 ≤ attrib.length ∨ 64 * 1024 ≤ (cString value).length

/-- `fuse_setxattr` takes the attribute and the value. -/
structure SetsXattr (cfg : Config Text) (attrib : CStr) (value : List UInt8) : Prop where
  starts : startsWithStr attrib (bytes "user.") = true
  settable : attrib ≠ bytes "user.uid" ∧ attrib ≠ bytes "user.sibling"
  dtstart : attrib = bytes "user.dtstart" →
    cString value = [] ∨ (cfg.ical.timeFromString (cString value)).isSome
  iclass : attrib = bytes "user.class" → parseIcalClass (cString value) ≠ .none
  istatus : attrib = bytes "user.status" → parseIcalStatus (cString value) ≠ .none

/-- `fuse_removexattr` takes the attribute. -/
def RemovesXattr (attrib : CStr) : Prop :=
  startsWithStr attrib (bytes "user.") = true ∧ attrib ≠ bytes "user.status"

theorem setxattrEdit_isSome_iff {value : List UInt8} (hlen : ¬ XattrTooLong attrib value)
    (s : Nat) : (setxattrEdit cfg attrib value s).isSome ↔ SetsXattr cfg attrib value := by
  unfold setxattrEdit
  rw [if_neg (show ¬ (256 ≤ attrib.length ∨ 64 * 1024 ≤ (cString value).length) from hlen)]
  split
  -- `-EPERM` for UID and sibling.
  · rename_i hreserved
    exact iff_of_false (by decide) fun h => (not_or.2 h.settable) hreserved
  rename_i hreserved
  split
  · rename_i hattrib
    have hsets : SetsXattr cfg attrib value ↔
        cString value = [] ∨ (cfg.ical.timeFromString (cString value)).isSome :=
      ⟨fun h => h.dtstart hattrib, fun h => ⟨by rw [hattrib]; decide, not_or.1 hreserved,
        fun _ => h, fun hclass => absurd (hattrib.symm.trans hclass) (by decide),
        fun hstatus => absurd (hattrib.symm.trans hstatus) (by decide)⟩⟩
    rw [hsets]
    split
    · rename_i hnil
      exact iff_of_true rfl (.inl hnil)
    · rename_i hne
      rw [or_iff_right hne, Option.isSome_map]
  rename_i hdtstart
  split
  · rename_i hattrib
    refine iff_of_true rfl ⟨by rw [hattrib]; decide, not_or.1 hreserved,
      fun hdt => absurd hdt hdtstart, fun hclass => ?_, fun hstatus => ?_⟩
    · exact absurd (hattrib.symm.trans hclass) (by decide)
    · exact absurd (hattrib.symm.trans hstatus) (by decide)
  split
  · rename_i hattrib
    have hsets : SetsXattr cfg attrib value ↔ parseIcalClass (cString value) ≠ .none :=
      ⟨fun h => h.iclass hattrib, fun h => ⟨by rw [hattrib]; decide, not_or.1 hreserved,
        fun hdt => absurd hdt hdtstart, fun _ => h,
        fun hstatus => absurd (hattrib.symm.trans hstatus) (by decide)⟩⟩
    rw [hsets]
    split
    · rename_i hnone
      exact iff_of_false (by decide) fun hsome => hsome hnone
    · rename_i hsome
      exact iff_of_true rfl hsome
  rename_i hclass
  split
  · rename_i hattrib
    have hsets : SetsXattr cfg attrib value ↔ parseIcalStatus (cString value) ≠ .none :=
      ⟨fun h => h.istatus hattrib, fun h => ⟨by rw [hattrib]; decide, not_or.1 hreserved,
        fun hdt => absurd hdt hdtstart, fun hc => absurd hc hclass, fun _ => h⟩⟩
    rw [hsets]
    split
    · rename_i hnone
      exact iff_of_false (by decide) fun hsome => hsome hnone
    · rename_i hsome
      exact iff_of_true rfl hsome
  rename_i hstatus
  split
  -- A custom attribute takes any text.
  · rename_i hstarts
    exact iff_of_true rfl ⟨hstarts, not_or.1 hreserved, fun hdt => absurd hdt hdtstart,
      fun hc => absurd hc hclass, fun hs => absurd hs hstatus⟩
  · rename_i hstarts
    exact iff_of_false (by decide) fun h => hstarts h.starts

theorem removexattrEdit_isSome_iff : (removexattrEdit attrib).isSome ↔ RemovesXattr attrib := by
  unfold removexattrEdit RemovesXattr
  split
  · rename_i hattrib
    rw [hattrib]
    decide
  split
  · rename_i hattrib
    rw [hattrib]
    decide
  split
  · rename_i hattrib
    exact iff_of_false (by decide) fun h => h.2 hattrib
  rename_i hstatus
  split
  · rename_i hattrib
    rw [hattrib]
    decide
  split
  · rename_i hstarts
    exact iff_of_true rfl ⟨hstarts, hstatus⟩
  · rename_i hstarts
    exact iff_of_false (by decide) fun h => hstarts h.1

theorem fuseSetxattr_returns_iff (h : w.store.Inv) (hl : w.store.lookup path = some n)
    (attrib : CStr) (value : List UInt8) (s flags : Nat) :
    (fuseSetxattr cfg path attrib value s flags).Returns w ↔
      XattrTooLong attrib value ∨ (splitPath path).length ≤ 255 ∧
        (SetsXattr cfg attrib value → w.EditsNode cfg n attrib) := by
  by_cases hlen : XattrTooLong attrib value
  · rw [fuseSetxattr_tooLong hlen]
    exact iff_of_true (Prog.returns_of_ok (Prog.pure_run _ _)) (.inl hlen)
  · rw [fuseSetxattr_eq hlen, editXattrAt_returns_iff h hl, setxattrEdit_isSome_iff hlen,
      or_iff_right hlen]

theorem fuseRemovexattr_returns_iff (h : w.store.Inv) (hl : w.store.lookup path = some n)
    (attrib : CStr) :
    (fuseRemovexattr cfg path attrib).Returns w ↔
      (splitPath path).length ≤ 255 ∧ (RemovesXattr attrib → w.EditsNode cfg n attrib) := by
  rw [fuseRemovexattr_eq, editXattrAt_returns_iff h hl, removexattrEdit_isSome_iff]

/-! ## All four calls -/

/-- A call for extended attributes, with its arguments behind the path. -/
inductive XattrCall
  | get (attrib : CStr) (buf : List UInt8) (s : Nat)
  | set (attrib : CStr) (value : List UInt8) (s flags : Nat)
  | remove (attrib : CStr)
  | list (buf : List UInt8) (size : Nat) (behind : List UInt8)

/-- The call returns a status. -/
def XattrCall.Returns (cfg : Config Text) (w : World Text) (path : CStr) : XattrCall → Prop
  | .get attrib buf s => (fuseGetxattr cfg path attrib buf s).Returns w
  | .set attrib value s flags => (fuseSetxattr cfg path attrib value s flags).Returns w
  | .remove attrib => (fuseRemovexattr cfg path attrib).Returns w
  | .list buf size behind => (fuseListxattr cfg path buf size behind).Returns w

/-- What the call needs of the node `n`: a file that opens, as soon as the attribute is one of
    the program's, and a component or a UID where the branch does not look for it. -/
def XattrCall.Meets (cfg : Config Text) (w : World Text) (n : NodeId) : XattrCall → Prop
  | .get attrib _ _ => startsWithStr attrib (bytes "user.") = true →
      w.OpensNode cfg n ∧
        (attrib = bytes "user.uid" → ((w.component cfg n).bind (·.getUid)).isSome)
  | .set attrib value _ _ => SetsXattr cfg attrib value → w.EditsNode cfg n attrib
  | .remove attrib => RemovesXattr attrib → w.EditsNode cfg n attrib
  | .list _ _ _ => w.store.entry n = none ∨ w.OpensNode cfg n ∧ (w.component cfg n).isSome

/-- The call is refused before its path is looked up. -/
def XattrCall.TooLong : XattrCall → Prop
  | .set attrib value _ _ => XattrTooLong attrib value
  | _ => False

/-- A call on a path that resolves returns exactly if it is refused at once, or the path is not
    too deep and the node has what the branch of the attribute takes for granted. -/
theorem xattrCall_returns_iff (h : Reachable cfg w) (hl : w.store.lookup path = some n)
    (call : XattrCall) :
    call.Returns cfg w path ↔
      call.TooLong ∨ (splitPath path).length ≤ 255 ∧ call.Meets cfg w n := by
  have hinv := h.sound.toInv
  cases call with
  | get attrib buf s =>
    exact (fuseGetxattr_returns_iff hinv hl attrib buf s).trans (or_iff_right id).symm
  | set attrib value s flags => exact fuseSetxattr_returns_iff hinv hl attrib value s flags
  | remove attrib => exact (fuseRemovexattr_returns_iff hinv hl attrib).trans (or_iff_right id).symm
  | list buf size behind =>
    exact (fuseListxattr_returns_iff hinv hl buf size behind).trans (or_iff_right id).symm

/-- The UID of the note in a directory is read. -/
theorem xattrCall_returns_iff_nestedNote :
    XattrCall.Returns sampleConfig (sampleMount nestedNote {}) (bytes "/Dir/Note.txt")
      (.get (bytes "user.uid") [7] 1) := by
  refine (xattrCall_returns_iff reachable_nestedNote nestedNote_readsAt.found _).2
    (.inr ⟨nestedNote_readsAt.segments, fun _ => ⟨nestedNote_readsAt.opens, fun _ => ?_⟩⟩)
  exact Option.isSome_iff_exists.2 ⟨_, nestedNote_uid⟩

/-- Setting a custom attribute of the root stops. -/
theorem not_all_xattr_calls_return :
    ¬ ∀ (w : World Icalcomponent) (path : CStr) (n : NodeId) (call : XattrCall),
      Reachable sampleConfig w → w.store.lookup path = some n →
        call.Returns sampleConfig w path := by
  intro hall
  obtain ⟨r, hr⟩ := hall _ (bytes "/") 0 (.set (bytes "user.x") (bytes "v") 1 0)
    reachable_nestedNote (by decide +kernel)
  have hcheck : (fuseSetxattr sampleConfig (bytes "/") (bytes "user.x") (bytes "v") 1 0
      (sampleMount nestedNote {})).toOption.isNone = true := by decide +kernel
  rw [hr] at hcheck
  cases hcheck

end Agendafs
