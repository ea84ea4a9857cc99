import Agendafs.ForStd.Calls
import Agendafs.Spec.Runs

/-!
# Hidden names

Names that begin with a dot are reserved. `pathIsHidden` looks at the first byte
of its argument, which is the whole path, and the kernel passes absolute paths:
the guard of `fuse_create`, `fuse_mkdir` and `fuse_write` never holds, and
`fuse_rename` has none.

## Key results

- `lookup_hidden`: without hidden names, a path to one leads nowhere
- `hidesReserved_iff`: when one call keeps the names reserved
- `hidden_names_iff`
-/

namespace Agendafs

open Store

variable {Text : Type} {cfg : Config Text} {w w' : World Text} {path old new : CStr}
  {status : Int}

/-! ## Paths to hidden names -/

/-- The last component of the path begins with a dot. -/
def HiddenPath (path : CStr) : Prop := pathIsHidden (getFilename path) = true

instance (path : CStr) : Decidable (HiddenPath path) := inferInstanceAs (Decidable (_ = _))

/-- No note has a hidden name. -/
abbrev Store.NoneHidden (s : Store) : Prop := s.AllNames (¬ pathIsHidden · = true)

/-- The path is one that the kernel passes. -/
def Absolute (path : CStr) : Prop := path.head? = some slash

instance (path : CStr) : Decidable (Absolute path) := inferInstanceAs (Decidable (_ = _))

theorem Absolute.eq_cons (h : Absolute path) : ∃ rest, path = slash :: rest :=
  List.head?_eq_some_iff.1 h

/-- The guard does not see the last component. -/
theorem Absolute.not_hidden (h : Absolute path) : ¬ pathIsHidden path = true := by
  obtain ⟨rest, rfl⟩ := h.eq_cons
  unfold pathIsHidden
  exact of_decide_eq_false rfl

theorem HiddenPath.getFilename_ne_nil (h : HiddenPath path) : getFilename path ≠ [] := by
  intro hnil
  unfold HiddenPath pathIsHidden at h
  rw [hnil] at h
  cases h

/-- Without hidden names, a path to one leads nowhere. -/
theorem lookup_hidden {s : Store} (h : s.Inv) (hs : s.NoneHidden) (habsolute : Absolute path)
    (hpath : HiddenPath path) : s.lookup path = none := by
  cases hn : s.lookup path with
  | none => rfl
  | some n =>
    obtain ⟨rest, rfl⟩ := habsolute.eq_cons
    obtain ⟨parent, hparent⟩ := @getParentPath_isSome_of_mem (slash :: rest) List.mem_cons_self
    unfold Store.lookup at hn
    rw [splitPath_eq_parent hparent, if_neg hpath.getFilename_ne_nil] at hn
    -- The last segment is the name of what is found.
    obtain ⟨_, _, _, hname⟩ := h.wf.of_resolve_append hn
    unfold Store.name at hname
    cases he : s.entry n with
    | none =>
      rw [he] at hname
      exact absurd hname.symm hpath.getFilename_ne_nil
    | some e =>
      rw [he] at hname
      refine absurd ?_ (hs n e he)
      rw [show e.filename = getFilename (slash :: rest) from hname]
      exact hpath

/-! ## One call -/

/-- The path of a call that creates or writes a note. -/
def Op.notePath : Op → Option CStr
  | .create path => some path
  | .mkdir path => some path
  | .write path _ _ _ => some path
  | _ => none

/-- The calls that create, write or rename a note, with absolute paths. -/
def Op.OnAbsolutePaths : Op → Prop
  | .create path => Absolute path
  | .mkdir path => Absolute path
  | .write path _ _ _ => Absolute path
  | .rename old new _ => Absolute old ∧ Absolute new
  | _ => False

/-- The call keeps hidden names reserved: no note has one afterwards, and creating or writing one
    is refused and changes nothing. -/
structure HidesReserved (m : Prog.Made Op Int (World Text)) : Prop where
  names : m.after.store.NoneHidden
  refused : ∀ path, m.call.notePath = some path → HiddenPath path →
    m.result = -EPERM ∧ m.after.store = m.before.store ∧ m.after.files = m.before.files

/-- The call creates and writes no hidden name, and a rename to one finds no directory to put it
    in. -/
def AvoidsHidden (m : Prog.Made Op Int (World Text)) : Prop :=
  match m.call with
  | .rename _ new _ => HiddenPath new → ∀ parent, getParentPath new = some parent →
      m.before.store.lookup parent = none
  | o => ∀ path, o.notePath = some path → ¬ HiddenPath path

/-- A creation of a hidden name is not refused. -/
theorem Created.status_ne_eperm {etype : EntryType} (h : w.store.Inv) (hs : w.store.NoneHidden)
    (habsolute : Absolute path) (hpath : HiddenPath path)
    (hc : Created cfg w path etype status w') : status ≠ -EPERM := by
  cases hc with
  | rejected hr =>
    rcases hr with hr | hr | hr
    · exact absurd hr habsolute.not_hidden
    · rw [lookup_hidden h hs habsolute hpath] at hr
      cases hr
    · obtain ⟨rest, rfl⟩ := habsolute.eq_cons
      cases hr
  | noParent => decide
  | notDirectory => decide
  | created =>
    unfold World.createStatus
    split
    · exact WriteOutcome.status_ne (by decide) (by decide) w.outcome
    · decide

/-- Writing to a hidden name does not find it. -/
theorem fuseWrite_hidden {buf : List UInt8} {size offset : Nat} (h : w.store.Inv)
    (hs : w.store.NoneHidden) (habsolute : Absolute path) (hpath : HiddenPath path)
    (hrun : fuseWrite cfg path buf size offset w = .ok (status, w')) : status = -ENONET := by
  have hwp : Prog.wp (fuseWrite cfg path buf size offset) (fun status _ => status = -ENONET)
      (fun _ => True) w := by
    unfold fuseWrite
    rw [if_neg habsolute.not_hidden]
    refine wp_getNodeByPath h (fun _ => trivial) ?_
    rw [lookup_hidden h hs habsolute hpath]
    exact rfl
  exact hwp.ok hrun

/-- The name that a rename brings in is hidden exactly if its new path is and leads to a place. -/
theorem Renamed.noneHidden_iff (h : w.store.Inv) (hs : w.store.NoneHidden)
    (habsolute : Absolute new) (hc : Renamed cfg w old new status w') :
    w'.store.NoneHidden ↔ (HiddenPath new → ∀ parent, getParentPath new = some parent →
      w.store.lookup parent = none) := by
  by_cases hnew : HiddenPath new
  · rw [forall_prop_of_true hnew]
    have hfree := lookup_hidden h hs habsolute hnew
    cases hc with
    | notEmpty hn => cases hfree.symm.trans hn
    | removeFailed hn => cases hfree.symm.trans hn
    | replaced hn => cases hfree.symm.trans hn
    | fresh _ hrenamed =>
      cases hrenamed with
      | noParent hparent hp =>
        refine iff_of_true hs fun parent hparent' => ?_
        cases hparent.symm.trans hparent'
        exact hp
      | @moved parent p c q e ics hparent hp hc he hics hq =>
        refine iff_of_false (fun hnames => ?_) fun hnone => ?_
        · -- The note that was moved has the name.
          rw [moved_store] at hnames
          have hentry : (w.store.place (w.newParent cfg p) c (getFilename new)).entry c =
              some { e with filename := getFilename new } := by
            rw [place_entry, if_pos rfl, he]
            rfl
          exact hnames _ _ hentry hnew
        · cases hp.symm.trans (hnone parent hparent)
  · exact iff_of_true (hc.allNames hs hnew) fun hhidden => absurd hhidden hnew

/-- A call keeps hidden names reserved exactly if it avoids them. -/
theorem hidesReserved_iff {m : Prog.Made Op Int (World Text)} (h : m.before.store.Sound)
    (hs : m.before.store.NoneHidden) (ho : m.call.OnAbsolutePaths)
    (hv : m.call.Valid cfg m.before)
    (hrun : exec cfg m.call m.before = .ok (m.result, m.after)) :
    HidesReserved m ↔ AvoidsHidden m := by
  obtain ⟨before, call, result, after⟩ := m
  simp only at h hs ho hv hrun
  have heffect := exec_effect h hv hrun
  -- What the calls on the path of a note have in common.
  have onNote : ∀ {path}, call.notePath = some path →
      (HiddenPath path → result ≠ -EPERM) → (¬ HiddenPath path → after.store.NoneHidden) →
      (HidesReserved ⟨before, call, result, after⟩ ↔ ¬ HiddenPath path) := by
    intro path hpath hstatus hnames
    constructor
    · intro hreserved hhidden
      exact hstatus hhidden (hreserved.refused path hpath hhidden).1
    · intro hvisible
      refine ⟨hnames hvisible, fun path' hpath' hhidden => ?_⟩
      cases hpath.symm.trans hpath'
      exact absurd hhidden hvisible
  have onPath : ∀ {path}, call.notePath = some path →
      ((∀ path', call.notePath = some path' → ¬ HiddenPath path') ↔ ¬ HiddenPath path) := by
    intro path hpath
    rw [hpath]
    simp
  cases call with
  | create path =>
    refine (onNote rfl (fun hpath => ?_) fun hpath => ?_).trans (onPath rfl).symm
    · exact Created.status_ne_eperm h.toInv hs ho hpath heffect
    · exact Created.allNames h.toInv hs hpath heffect
  | mkdir path =>
    refine (onNote rfl (fun hpath => ?_) fun hpath => ?_).trans (onPath rfl).symm
    · exact Created.status_ne_eperm h.toInv hs ho hpath heffect
    · exact Created.allNames h.toInv hs hpath heffect
  | write path buf size offset =>
    refine (onNote rfl (fun hpath => ?_) fun _ => ?_).trans (onPath rfl).symm
    · rw [fuseWrite_hidden h.toInv hs ho hpath hrun]
      decide
    · rw [Edited.store heffect]
      exact hs
  | rename old new flags =>
    refine Iff.trans ⟨fun hreserved => hreserved.names, fun hnames => ⟨hnames, ?_⟩⟩
      (Renamed.noneHidden_iff h.toInv hs ho.2 heffect)
    intro path hpath
    cases hpath
  | setxattr => exact ho.elim
  | removexattr => exact ho.elim
  | unlink => exact ho.elim
  | rmdir => exact ho.elim
  | event => exact ho.elim

/-! ## Runs -/

/-- In a run of calls on absolute paths from a state without hidden names, each call keeps them
    reserved exactly if each avoids them. -/
theorem hidden_names_iff (h : w.store.Sound) (hs : w.store.NoneHidden)
    {ms : List (Prog.Made Op Int (World Text))} (hrun : Prog.Calls (exec cfg) w ms w')
    (hcalls : ∀ m ∈ ms, m.call.OnAbsolutePaths ∧ m.call.Valid cfg m.before) :
    (∀ m ∈ ms, HidesReserved m) ↔ ∀ m ∈ ms, AvoidsHidden m := by
  refine hrun.forall_iff (I := fun v => v.store.Sound ∧ v.store.NoneHidden) ⟨h, hs⟩ ?_ ?_
  · intro m hm hcall hI
    exact hidesReserved_iff hI.1 hI.2 (hcalls m hm).1 (hcalls m hm).2 hcall
  · intro m hm hcall hI havoids
    obtain ⟨ho, hv⟩ := hcalls m hm
    exact ⟨(exec_effect hI.1 hv hcall).sound hI.1 hv,
      ((hidesReserved_iff hI.1 hI.2 ho hv hcall).2 havoids).names⟩

theorem noneHidden_emptyMount : emptyMount.store.NoneHidden := by
  intro n e he
  have hcheck : ∀ n < emptyMount.store.nextId,
      (emptyMount.store.entry n).all (fun e => !pathIsHidden e.filename) = true := by
    decide +kernel
  have he' := forall_entry_of_check (Run.sound reachable_emptyMount).toInv hcheck he
  simpa using he'

/-- The state after some calls on the empty directory. -/
def afterOps (os : List Op) : World Icalcomponent :=
  os.foldl (fun w o => (exec sampleConfig o).final w) emptyMount

/-- A note is created and written. -/
def createNote : Op := .create (bytes "/Note.txt")
def writeIntoNote : Op := .write (bytes "/Note.txt") (bytes "x") 1 0

/-- It gets a hidden name in a directory that is not there. -/
def hideNowhere : Op := .rename (bytes "/Note.txt") (bytes "/Nowhere/.x") 0

/-- The three calls, and what they return. -/
def hidingCalls : List (Prog.Made Op Int (World Icalcomponent)) :=
  [⟨afterOps [], createNote, 0, afterOps [createNote]⟩,
    ⟨afterOps [createNote], writeIntoNote, 1, afterOps [createNote, writeIntoNote]⟩,
    ⟨afterOps [createNote, writeIntoNote], hideNowhere, -EINVAL,
      afterOps [createNote, writeIntoNote, hideNowhere]⟩]

theorem hidingCalls_run : Prog.Calls (exec sampleConfig) emptyMount hidingCalls
    (afterOps [createNote, writeIntoNote, hideNowhere]) :=
  .cons (exec_sample (by decide +kernel)) <| .cons (exec_sample (by decide +kernel)) <|
    .one (exec_sample (by decide +kernel))

theorem hidden_names_iff_emptyMount :
    Prog.Calls (exec sampleConfig) emptyMount hidingCalls
        (afterOps [createNote, writeIntoNote, hideNowhere]) ∧
      ∀ m ∈ hidingCalls, HidesReserved m := by
  refine ⟨hidingCalls_run, (hidden_names_iff (Run.sound reachable_emptyMount) noneHidden_emptyMount
    hidingCalls_run ?_).2 ?_⟩
  · unfold hidingCalls
    simp only [List.forall_mem_cons]
    refine ⟨⟨show Absolute (bytes "/Note.txt") by decide, valid_emptyMount _⟩,
      ⟨show Absolute (bytes "/Note.txt") by decide, trivial⟩, ⟨?_, ?_⟩,
      fun m hm => absurd hm List.not_mem_nil⟩
    · exact (⟨by decide, by decide⟩ : Absolute (bytes "/Note.txt") ∧ Absolute (bytes "/Nowhere/.x"))
    · exact (⟨by decide +kernel, by decide, by decide⟩ : hideNowhere.Valid sampleConfig
        (afterOps [createNote, writeIntoNote]))
  · unfold hidingCalls
    simp only [List.forall_mem_cons]
    have hvisible : ¬ HiddenPath (bytes "/Note.txt") := by decide
    refine ⟨fun path hpath => Option.some.inj hpath ▸ hvisible,
      fun path hpath => Option.some.inj hpath ▸ hvisible, fun _ parent hparent => ?_,
      fun m hm => absurd hm List.not_mem_nil⟩
    -- The hidden name has no directory to be in.
    obtain rfl : bytes "/Nowhere" = parent :=
      Option.some.inj ((show getParentPath (bytes "/Nowhere/.x") = _ by decide).symm.trans hparent)
    decide +kernel

/-- A hidden file can be created. -/
theorem not_all_hidden_names :
    ¬ ∀ (w w' : World Icalcomponent) (ms : List (Prog.Made Op Int (World Icalcomponent))),
      Reachable sampleConfig w → w.store.NoneHidden → Prog.Calls (exec sampleConfig) w ms w' →
      (∀ m ∈ ms, m.call.OnAbsolutePaths ∧ m.call.Valid sampleConfig m.before) →
      ∀ m ∈ ms, HidesReserved m := by
  intro hall
  have hrun : exec sampleConfig (.create (bytes "/.x")) emptyMount = .ok (0, _) :=
    exec_sample (by decide +kernel)
  have hreserved := hall _ _ _ reachable_emptyMount noneHidden_emptyMount (.one hrun) (by
    intro m hm
    obtain rfl := List.mem_singleton.1 hm
    exact ⟨show Absolute (bytes "/.x") by decide, valid_emptyMount _⟩)
  have hrefused := (hreserved _ List.mem_cons_self).refused (bytes "/.x") rfl (by decide)
  exact absurd hrefused.1 (by decide)

end Agendafs
