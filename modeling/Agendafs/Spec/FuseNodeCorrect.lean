import Agendafs.Native.FuseNode
import Agendafs.Spec.StoreCorrect

/-!
# What the functions of fuse_node.c do

For a state whose tree keeps its invariant: path lookup is `resolve` on the
forest, reading a node gives `World.component` or stops, and writing a note has
the effect `World.wrote`. The functions that edit the tree are described by what
they return and the state they leave.
-/

namespace Agendafs

open Store

variable {Text : Type} {cfg : Config Text} {w : World Text}

/-- A call stops at an assertion, a NULL pointer or too deep a path; not at a
    freed node, a lost child or in a loop. -/
def Crash.Visible (c : Crash) : Prop :=
  c = .assertFailed ∨ c = .nullDereference ∨ c = .segmentsOverflow

theorem onStore_run {α : Type} {m : StoreM α} {a : α} {s : Store} (h : m w.store = .ok (a, s)) :
    onStore m w = .ok (a, { w with store := s }) := Prog.zoom_ok h

theorem onStore_error {α : Type} {m : StoreM α} {c : Crash} (h : m w.store = .error c) :
    onStore m w = .error c := Prog.zoom_error h

/-! ## Lookup -/

theorem getNodeByUuid_run {s : Store} (uid : CStr) :
    getNodeByUuid uid s = .ok (s.entriesVdir.get (uid ++ bytes ".ics"), s) := rfl

theorem findChild_run {s : Store} (segment : CStr) {children : List NodeId}
    (h : ∀ n ∈ children, s.Live n) :
    findChild segment children s = .ok (children.find? (s.name · = segment), s) := by
  induction children with
  | nil => rfl
  | cons n children ih =>
    unfold findChild
    rw [Prog.bind_run_ok (getNodeFilename_run (h n List.mem_cons_self))]
    split
    · rename_i hn
      rw [List.find?_cons_of_pos (by simpa using hn)]
      rfl
    · rename_i hn
      rw [List.find?_cons_of_neg (by simpa using hn)]
      exact ih fun m hm => h m (List.mem_cons_of_mem _ hm)

theorem walkSegments_run {s : Store} (h : s.links.WF) {n : NodeId} (hn : s.Live n)
    (segments : List CStr) :
    walkSegments n segments s = .ok (s.links.resolve s.name n segments, s) := by
  induction segments generalizing n with
  | nil => rfl
  | cons segment segments ih =>
    -- The children of a live node are live, so the next node is.
    obtain ⟨t, ht⟩ := exists_heap hn
    have hchildren := links_children_eq ht
    have hlive : ∀ m ∈ t.children, s.Live m := fun m hm =>
      live_of_parent (h.mem_children.1 (by rw [hchildren]; exact hm))
    unfold walkSegments Links.resolve
    rw [Prog.bind_run_ok (deref_run ht), Prog.bind_run_ok (findChild_run segment hlive), hchildren]
    cases hf : t.children.find? (s.name · = segment) with
    | none => rfl
    | some c => exact ih (hlive c (List.mem_of_find?_eq_some hf))

/-- The node a path names. -/
def Store.lookup (s : Store) (path : CStr) : Option NodeId :=
  s.links.resolve s.name s.fuseRoot (splitPath path)

/-- `get_node_by_path` follows the names from the root, unless the path is too deep. -/
theorem getNodeByPath_walks {s : Store} (h : s.links.WF) (hroot : s.Live s.fuseRoot) (path : CStr) :
    getNodeByPath path s =
      if 255 < (splitPath path).length then .error .segmentsOverflow
      else .ok (s.lookup path, s) := by
  unfold getNodeByPath
  rw [Prog.bind_run_ok (Prog.get_run s)]
  by_cases hp : path = [slash]
  · -- The root has its own branch, though no segments lead to it as well.
    subst hp
    rfl
  · simp only [if_neg hp]
    split
    · rfl
    · exact walkSegments_run h hroot _

theorem getNodeByPath_run {s : Store} (h : s.Inv) (path : CStr) :
    getNodeByPath path s =
      if 255 < (splitPath path).length then .error .segmentsOverflow
      else .ok (s.lookup path, s) := getNodeByPath_walks h.wf h.root_live path

theorem getNodeByPath_found (h : w.store.Inv) {path : CStr}
    (hpath : (splitPath path).length ≤ 255) :
    onStore (getNodeByPath path) w = .ok (w.store.lookup path, w) :=
  onStore_run (by rw [getNodeByPath_run h, if_neg (by omega)])

theorem getNodeByPath_tooDeep (h : w.store.Inv) {path : CStr}
    (hpath : ¬ (splitPath path).length ≤ 255) :
    onStore (getNodeByPath path) w = .error .segmentsOverflow :=
  onStore_error (by rw [getNodeByPath_run h, if_pos (Nat.not_le.1 hpath)])

/-- The rule for a lookup: it gives `lookup`, or the path is too deep. -/
theorem wp_getNodeByPath {α : Type} {f : Option NodeId → FsM Text α} {Q : α → World Text → Prop}
    {E : Crash → Prop} (h : w.store.Inv) {path : CStr}
    (hE : ¬ (splitPath path).length ≤ 255 → E .segmentsOverflow)
    (hf : Prog.wp (f (w.store.lookup path)) Q E w) :
    Prog.wp (onStore (getNodeByPath path) >>= f) Q E w := by
  by_cases hlen : (splitPath path).length ≤ 255
  · rw [Prog.wp_bind_ok (getNodeByPath_found h hlen)]
    exact hf
  · rw [Prog.wp_bind_error (getNodeByPath_tooDeep h hlen)]
    exact hE hlen

/-- What a path resolves to is live. -/
theorem Store.Inv.live_of_lookup {s : Store} (h : s.Inv) {path : CStr} {n : NodeId}
    (hn : s.lookup path = some n) : s.Live n := h.live_of_below (h.wf.resolve_below hn)

/-! ## Reading -/

/-- The component in a file of VDIR. -/
def World.fileComponent (cfg : Config Text) (w : World Text) (filenameVdir : CStr) :
    Option Icalcomponent :=
  (w.files (appendPath cfg.vdir filenameVdir)).bind fun f => cfg.ical.newFromString f.content

/-- The component in the file of a node; the root has none. -/
def World.component (cfg : Config Text) (w : World Text) (n : NodeId) : Option Icalcomponent :=
  (w.store.entry n).bind fun e => w.fileComponent cfg e.filenameVdir

/-- The file can be opened and read. -/
def World.Readable (cfg : Config Text) (w : World Text) (filenameVdir : CStr) : Prop :=
  ∃ f, w.files (appendPath cfg.vdir filenameVdir) = some f ∧ f.readable = true

theorem component_of_entry {n : NodeId} {e : AgendaEntry} (he : w.store.entry n = some e) :
    w.component cfg n = w.fileComponent cfg e.filenameVdir := by
  rw [World.component, he]
  rfl

theorem component_of_root (h : w.store.Inv) : w.component cfg w.store.fuseRoot = none := by
  rw [World.component, h.root_entry]
  rfl

theorem parseIcsFile_run {k : CStr} (h : w.Readable cfg k) :
    parseIcsFile cfg (appendPath cfg.vdir k) w = .ok (w.fileComponent cfg k, w) := by
  obtain ⟨f, hf, hr⟩ := h
  unfold parseIcsFile World.fileComponent
  rw [Prog.bind_run_ok (Prog.get_run w), hf]
  simp only [hr, if_true]
  rfl

theorem parseIcsFile_error {k : CStr} (h : ¬ w.Readable cfg k) :
    ∃ c : Crash, parseIcsFile cfg (appendPath cfg.vdir k) w = .error c ∧ c.Visible := by
  unfold parseIcsFile
  rw [Prog.bind_run_ok (Prog.get_run w)]
  cases hf : w.files (appendPath cfg.vdir k) with
  | none => exact ⟨_, rfl, .inl rfl⟩
  | some f =>
    cases hr : f.readable with
    | false => exact ⟨_, by simp only [hr]; rfl, .inr (.inl rfl)⟩
    | true => exact absurd ⟨f, hf, hr⟩ h

theorem getIcalcomponentFromNode_root {n : NodeId} (hn : w.store.Live n)
    (he : w.store.entry n = none) : getIcalcomponentFromNode cfg n w = .ok (none, w) := by
  unfold getIcalcomponentFromNode
  rw [Prog.bind_run_ok (onStore_run (isRootNode_run hn)), he]
  rfl

theorem getIcalcomponentFromNode_note {n : NodeId} {e : AgendaEntry}
    (he : w.store.entry n = some e) :
    getIcalcomponentFromNode cfg n w =
      parseIcsFile cfg (appendPath cfg.vdir e.filenameVdir) w := by
  unfold getIcalcomponentFromNode
  rw [Prog.bind_run_ok (onStore_run (isRootNode_run (live_of_entry he))), he]
  simp only [Option.isNone_some, Bool.false_eq_true, if_false]
  rw [Prog.bind_run_ok (onStore_run (getVdirFilepath_run he cfg.vdir))]

/-- Reading the file of a note that can be read. -/
theorem getIcalcomponentFromNode_run {n : NodeId} {e : AgendaEntry}
    (he : w.store.entry n = some e) (hr : w.Readable cfg e.filenameVdir) :
    getIcalcomponentFromNode cfg n w = .ok (w.component cfg n, w) := by
  rw [getIcalcomponentFromNode_note he, component_of_entry he]
  exact parseIcsFile_run hr

/-- Reading a node whose file opens. -/
theorem getIcalcomponentFromNode_opens {n : NodeId} (hn : w.store.Live n)
    (hopens : ∀ e, w.store.entry n = some e → w.Readable cfg e.filenameVdir) :
    getIcalcomponentFromNode cfg n w = .ok (w.component cfg n, w) := by
  cases he : w.store.entry n with
  | none =>
    rw [getIcalcomponentFromNode_root hn he, World.component, he]
    rfl
  | some e => exact getIcalcomponentFromNode_run he (hopens e he)

/-- Reading a node whose file is gone or unreadable. -/
theorem getIcalcomponentFromNode_error {n : NodeId}
    (h : ¬ ∀ e, w.store.entry n = some e → w.Readable cfg e.filenameVdir) :
    ∃ c : Crash, getIcalcomponentFromNode cfg n w = .error c ∧ c.Visible := by
  obtain ⟨e, he, hr⟩ := not_forall₂.1 h
  obtain ⟨c, hc, hvis⟩ := parseIcsFile_error hr
  exact ⟨c, (getIcalcomponentFromNode_note he).trans hc, hvis⟩

/-- The rule for reading a node: it gives `component`, or stops. -/
theorem wp_getIcalcomponentFromNode {α : Type} {f : Option Icalcomponent → FsM Text α}
    {Q : α → World Text → Prop} {E : Crash → Prop} {n : NodeId} (hn : w.store.Live n)
    (hE : ¬ (∀ e, w.store.entry n = some e → w.Readable cfg e.filenameVdir) →
      ∀ c : Crash, c.Visible → E c)
    (hf : (∀ e, w.store.entry n = some e → w.Readable cfg e.filenameVdir) →
      Prog.wp (f (w.component cfg n)) Q E w) :
    Prog.wp (getIcalcomponentFromNode cfg n >>= f) Q E w := by
  by_cases hopens : ∀ e, w.store.entry n = some e → w.Readable cfg e.filenameVdir
  · rw [Prog.wp_bind_ok (getIcalcomponentFromNode_opens hn hopens)]
    exact hf hopens
  · obtain ⟨c, hc, hvis⟩ := getIcalcomponentFromNode_error hopens
    rw [Prog.wp_bind_error hc]
    exact hE hopens c hvis

/-- Whether a node is a directory. -/
def World.isDirectory (cfg : Config Text) (w : World Text) (n : NodeId) : Bool :=
  (w.store.entry n).isNone || decide (w.store.links.children n ≠ []) ||
    (w.component cfg n).any (isDirectoryComponent cfg.ical)

theorem nodeIsDirectory_run {n : NodeId} (hn : w.store.Live n) :
    nodeIsDirectory cfg n (w.component cfg n) w = .ok (w.isDirectory cfg n, w) := by
  unfold nodeIsDirectory World.isDirectory
  rw [Prog.bind_run_ok (onStore_run (isRootNode_run hn)),
    Prog.bind_run_ok (onStore_run (nodeHasChildren_run hn))]
  split
  · rename_i h
    rw [h]
    rfl
  · rename_i h
    rw [Bool.not_eq_true] at h
    rw [h]
    rfl

/-! ## Writing -/

/-- The reading of the clock that comes next. -/
def World.now (w : World Text) : CStr := w.env.clock.head?.getD []

/-- The outcome of the write that comes next. -/
def World.outcome (w : World Text) : WriteOutcome Text := w.env.writes.head?.getD .written

theorem outcome_of_writes (h : ∀ o ∈ w.env.writes, o = .written) : w.outcome = .written := by
  unfold World.outcome
  cases hw : w.env.writes with
  | nil => rfl
  | cons o os => exact h o (by rw [hw]; exact List.mem_cons_self)

/-- The status of a write with this outcome. -/
def WriteOutcome.status : WriteOutcome Text → Int
  | .openFailed => - EIO
  | _ => 0

/-- A write that fails midway is not one that succeeds. -/
theorem WriteOutcome.writeFailed_ne {left : Text} :
    (.writeFailed left : WriteOutcome Text) ≠ .written := nofun

/-- Only a file that cannot be opened is reported. -/
theorem WriteOutcome.status_neg {o : WriteOutcome Text} : o.status < 0 ↔ o = .openFailed := by
  cases o with
  | written => exact iff_of_false (Int.lt_irrefl 0) nofun
  | openFailed => exact iff_of_true (by simp only [WriteOutcome.status]; decide) rfl
  | writeFailed left => exact iff_of_false (Int.lt_irrefl 0) nofun

/-- A write returns success or `-EIO`. -/
theorem WriteOutcome.status_ne {i : Int} (h0 : i ≠ 0) (hio : i ≠ - EIO) (o : WriteOutcome Text) :
    o.status ≠ i := by
  cases o with
  | written => exact h0.symm
  | openFailed => exact hio.symm
  | writeFailed left => exact h0.symm

/-- The state after the clock has been read. -/
def World.tick (w : World Text) : World Text :=
  { w with env := { w.env with clock := w.env.clock.tail } }

/-- The state after a component has been written to a file of VDIR. -/
def World.wrote (cfg : Config Text) (w : World Text) (filenameVdir : CStr) (ic : Icalcomponent) :
    World Text where
  store := w.store
  files :=
    match w.outcome with
    | .openFailed => w.files
    | .writeFailed left => writtenFiles w.files (appendPath cfg.vdir filenameVdir) left
    | .written => writtenFiles w.files (appendPath cfg.vdir filenameVdir)
        (cfg.ical.asIcalString (stamp w.now ic))
  env := { w.env with clock := w.env.clock.tail, writes := w.env.writes.tail }

theorem getIcalNow_run : getIcalNow w = .ok (w.now, w.tick) := by
  unfold getIcalNow World.now World.tick
  rw [Prog.bind_run_ok (Prog.get_run w)]
  cases hc : w.env.clock with
  -- A clock that has run out stays as it is.
  | nil =>
    have : { w.env with clock := [] } = w.env := by rw [← hc]
    change Except.ok _ = Except.ok (_, { w with env := { w.env with clock := [] } })
    rw [this]
    rfl
  | cons now clock => rfl

theorem intOfSize_sizeOfInt_status (o : WriteOutcome Text) :
    sizeOfInt (intOfSize (sizeOfInt o.status)) = sizeOfInt o.status ∧
      intOfSize (sizeOfInt o.status) = o.status := by
  cases o <;> simp only [WriteOutcome.status] <;> decide

theorem writeToFile_run (filepath : CStr) (content : Text) :
    writeToFile filepath content w = .ok (sizeOfInt w.outcome.status,
      { w with
        files := match w.outcome with
          | .openFailed => w.files
          | .writeFailed left => writtenFiles w.files filepath left
          | .written => writtenFiles w.files filepath content
        env := { w.env with writes := w.env.writes.tail } }) := by
  unfold writeToFile World.outcome
  rw [Prog.bind_run_ok (Prog.get_run w)]
  simp only
  cases w.env.writes.head?.getD .written <;> rfl

/-- The state after an attempt to write to a file that cannot be opened. -/
def World.writeTick (w : World Text) : World Text :=
  { w with env := { w.env with clock := w.env.clock.tail, writes := w.env.writes.tail } }

theorem wrote_of_openFailed (ho : w.outcome = .openFailed) (k : CStr) (ic : Icalcomponent) :
    w.wrote cfg k ic = w.writeTick := by
  unfold World.wrote
  rw [ho]
  rfl

theorem writeNullToFile_run (filepath : CStr) :
    writeNullToFile filepath w =
      match w.outcome with
      | .openFailed => .ok (sizeOfInt (- EIO),
          { w with env := { w.env with writes := w.env.writes.tail } })
      | _ => .error .nullDereference := by
  unfold writeNullToFile World.outcome
  rw [Prog.bind_run_ok (Prog.get_run w)]
  simp only
  cases w.env.writes.head?.getD .written <;> rfl

/-- `write_ical_file` on a note. -/
theorem writeIcalFile_run {n : NodeId} {e : AgendaEntry} (he : w.store.entry n = some e)
    (ic : Icalcomponent) :
    writeIcalFile cfg n ic w =
      .ok ((sizeOfInt w.outcome.status, stamp w.now ic), w.wrote cfg e.filenameVdir ic) := by
  unfold writeIcalFile
  rw [Prog.bind_run_ok getIcalNow_run,
    Prog.bind_run_ok (onStore_run (w := w.tick) (getVdirFilepath_run he cfg.vdir)),
    Prog.bind_run_ok (writeToFile_run _ _)]
  change Except.ok ((sizeOfInt (intOfSize (sizeOfInt w.outcome.status)), _), _) = _
  rw [(intOfSize_sizeOfInt_status w.outcome).1]
  rfl

/-- The root has no file. -/
theorem getVdirFilepath_root {s : Store} {n : NodeId} (hn : s.Live n) (he : s.entry n = none)
    (vdir : CStr) : getVdirFilepath vdir n s = .error .nullDereference := by
  obtain ⟨t, ht⟩ := exists_heap hn
  have hd : t.data = none := (entry_eq ht).symm.trans he
  unfold getVdirFilepath
  rw [Prog.bind_run_ok (deref_run ht), hd]
  rfl

/-- `write_ical_file` for a note without component. -/
theorem writeNullIcalFile_run {n : NodeId} {e : AgendaEntry} (he : w.store.entry n = some e) :
    writeNullIcalFile cfg n w =
      match w.outcome with
      | .openFailed => .ok (sizeOfInt (- EIO), w.writeTick)
      | _ => .error .nullDereference := by
  have hwrite := writeNullToFile_run (w := w.tick) (appendPath cfg.vdir e.filenameVdir)
  unfold writeNullIcalFile
  rw [Prog.bind_run_ok getIcalNow_run,
    Prog.bind_run_ok (onStore_run (w := w.tick) (getVdirFilepath_run he cfg.vdir))]
  change (writeNullToFile (appendPath cfg.vdir e.filenameVdir) >>= _) w.tick = _
  change writeNullToFile _ w.tick = match w.outcome with | .openFailed => _ | _ => _ at hwrite
  rw [Prog.bind_run, hwrite]
  cases w.outcome <;> rfl

theorem writeNullIcalFile_root {n : NodeId} (hn : w.store.Live n)
    (he : w.store.entry n = none) : writeNullIcalFile cfg n w = .error .nullDereference := by
  unfold writeNullIcalFile
  rw [Prog.bind_run_ok getIcalNow_run, Prog.bind_run,
    onStore_error (w := w.tick) (getVdirFilepath_root hn he cfg.vdir)]

/-- `write_parent_child_components` on a note. -/
theorem writeParentChildComponents_run {n : NodeId} {e : AgendaEntry}
    (he : w.store.entry n = some e) (iparent ichild : Icalcomponent) :
    writeParentChildComponents cfg iparent n ichild w =
      .ok (w.outcome.status,
        w.wrote cfg e.filenameVdir (setParentChildRelationshipToComponent iparent ichild)) := by
  unfold writeParentChildComponents
  rw [Prog.bind_run_ok (writeIcalFile_run he _)]
  change Except.ok (intOfSize (sizeOfInt w.outcome.status), _) = _
  rw [(intOfSize_sizeOfInt_status w.outcome).2]

end Agendafs
