import Agendafs.Spec.MovesCorrect
import Agendafs.Spec.Siblings

/-!
# Calls that fail

What a call that returns a negative status leaves behind, and which failing
writes make a call return one.

## Key results

- `failed_call_changes_nothing`: a failed call changes nothing exactly when it is no
  creation, or a creation that is turned down before its node is allocated
- `writes_reported_iff`: when the status of a call tells the fate of its writes
-/

namespace Agendafs

open Store Icalcomponent

variable {Text : Type} {cfg : Config Text} {w w' : World Text}

/-! ## What a failed call leaves -/

/-- Names, links, index and files are what they were. -/
structure Unchanged (w w' : World Text) : Prop where
  name : w'.store.name = w.store.name
  parent : w'.store.links.parent = w.store.links.parent
  children : w'.store.links.children = w.store.links.children
  index : ∀ k, w'.store.entriesVdir.get k = w.store.entriesVdir.get k
  files : w'.files = w.files

theorem Unchanged.of_eq (hstore : w'.store = w.store) (hfiles : w'.files = w.files) :
    Unchanged w w' := by
  constructor <;> simp only [hstore, hfiles, implies_true]

/-- A call other than `fuse_write` and the handling of an event. -/
def Op.IsNodeCall : Op → Prop
  | .write .. => False
  | .event .. => False
  | _ => True

/-- The call is no creation, or one that is turned down before its node is allocated:
    the path is hidden, resolves already or is not absolute. -/
def Op.AllocatesNothing (w : World Text) : Op → Prop
  | .create path => w.Rejects path
  | .mkdir path => w.Rejects path
  | _ => True

/-- A creation that fails after its node has been allocated leaves it in the index. -/
theorem Created.unchanged_iff {path : CStr} {etype : EntryType} {status : Int}
    (h : w.store.Sound) (hfresh : w.FreshUuid cfg)
    (hc : Created cfg w path etype status w') (hs : status < 0) :
    Unchanged w w' ↔ w.Rejects path := by
  have indexed : (w.store.create (w.newEntry path)).entriesVdir.get
      (w.newEntry path).filenameVdir = some w.store.nextId :=
    (Hashmap.get_insert ..).trans (if_pos rfl)
  -- The key of the new file was not in the index before.
  have changed : w'.store.entriesVdir = (w.store.create (w.newEntry path)).entriesVdir →
      ¬ Unchanged w w' := by
    intro hindex hu
    have hget := hu.index (w.newEntry path).filenameVdir
    have hnew : w.store.entriesVdir.get (w.newEntry path).filenameVdir = none :=
      hfresh.not_indexed
    rw [hindex, indexed, hnew] at hget
    exact nomatch hget
  cases hc with
  | rejected hr => exact iff_of_true (.of_eq rfl rfl) hr
  | noParent hr => exact iff_of_false (changed rfl) hr
  | notDirectory hr => exact iff_of_false (changed rfl) hr
  | created hr _ _ _ =>
    refine iff_of_false (changed ?_) hr
    rw [created_store h.toInv, place_entriesVdir]

theorem Edited.unchanged {o : Op} {status : Int}
    (hstatus : o.editStatus w.outcome = w.outcome.status) (hc : Edited cfg w o status w')
    (hs : status < 0) : Unchanged w w' := by
  cases hc with
  | rejected => exact .of_eq rfl rfl
  | noComponent => exact .of_eq rfl rfl
  | written =>
    rw [hstatus, WriteOutcome.status_neg] at hs
    refine .of_eq rfl ?_
    unfold World.wrote
    rw [hs]
  | notOpened => exact .of_eq rfl rfl

theorem Removed.unchanged {path : CStr} {status : Int} (hc : Removed cfg w path status w')
    (hs : status < 0) : Unchanged w w' := by
  cases hc with
  | rejected => exact .of_eq rfl rfl
  | failed => exact .of_eq rfl rfl
  | removed => exact absurd hs (by decide)

theorem AgendaRenamed.of_neg {old new : CStr} {status : Int}
    (hc : AgendaRenamed cfg w old new status w') (hs : status < 0) :
    w' = w ∧ ∃ parentPath, getParentPath new = some parentPath ∧
      w.store.lookup parentPath = none := by
  cases hc with
  | noParent hnew hp => exact ⟨rfl, _, hnew, hp⟩
  | moved => exact absurd hs (by decide)

theorem Renamed.unchanged {old new : CStr} {flags : Nat} {status : Int} (h : w.store.Sound)
    (hv : (Op.rename old new flags).Valid cfg w) (hc : Renamed cfg w old new status w')
    (hs : status < 0) : Unchanged w w' := by
  cases hc with
  | notEmpty => exact .of_eq rfl rfl
  | removeFailed => exact .of_eq rfl rfl
  | fresh _ hr => rw [(hr.of_neg hs).1]; exact .of_eq rfl rfl
  | @replaced n e _ _ hn he hchildren _ hr =>
    -- The parent of the removed node is still found, so the rename goes through.
    obtain ⟨_, parentPath, hnew, hp⟩ := hr.of_neg hs
    obtain ⟨p, _, hp', _⟩ := lookup_parent_removed (k := e.filenameVdir) h.toInv hnew hv.2.2 hn
      hchildren
    change (w.store.delete n e.filenameVdir).lookup parentPath = none at hp
    rw [hp'] at hp
    exact nomatch hp

/-- A call that fails changes nothing exactly when it is no creation, or one that is turned
    down before its node is allocated. -/
theorem failed_call_changes_nothing (h : Reachable cfg w) {o : Op} (ho : o.IsNodeCall)
    (hv : o.Valid cfg w) {status : Int} (hrun : exec cfg o w = .ok (status, w'))
    (hs : status < 0) : Unchanged w w' ↔ o.AllocatesNothing w := by
  have hsound := Run.sound h
  have hc := exec_effect hsound hv hrun
  cases o with
  | create filepath => exact Created.unchanged_iff hsound hv hc hs
  | mkdir filepath => exact Created.unchanged_iff hsound hv hc hs
  | write => exact ho.elim
  | event => exact ho.elim
  | setxattr path attrib value s flags =>
    exact iff_of_true (Edited.unchanged rfl hc hs) trivial
  | removexattr path attrib =>
    exact iff_of_true (Edited.unchanged rfl hc hs) trivial
  | unlink file => exact iff_of_true (Removed.unchanged hc hs) trivial
  | rmdir filepath => exact iff_of_true (Removed.unchanged hc hs) trivial
  | rename old new flags => exact iff_of_true (Renamed.unchanged hsound hv hc hs) trivial

/-- Creating a note below a path that does not exist fails. -/
theorem emptyMount_create_run :
    exec sampleConfig (.create (bytes "/x/y")) emptyMount =
      .ok (-ENOENT, (exec sampleConfig (.create (bytes "/x/y"))).final emptyMount) :=
  exec_sample (by decide +kernel)

theorem failed_call_changes_nothing_emptyMount :
    Unchanged emptyMount ((exec sampleConfig (.create (bytes "/x/y"))).final emptyMount) ↔
      emptyMount.Rejects (bytes "/x/y") :=
  failed_call_changes_nothing (o := .create (bytes "/x/y")) reachable_emptyMount trivial
    (valid_emptyMount _) emptyMount_create_run (by decide)

/-- So failed calls do not always change nothing. -/
theorem not_all_failed_calls_change_nothing :
    ¬ ∀ (w w' : World Icalcomponent) (o : Op) (status : Int), Reachable sampleConfig w →
      o.IsNodeCall → o.Valid sampleConfig w → exec sampleConfig o w = .ok (status, w') →
        status < 0 → Unchanged w w' := by
  intro hall
  have hu := hall _ _ (.create (bytes "/x/y")) _ reachable_emptyMount trivial
    (valid_emptyMount _) emptyMount_create_run (by decide)
  have hold : emptyMount.store.entriesVdir.get (bytes "u-caldavfs.ics") = none := by
    decide +kernel
  have hnew : ((exec sampleConfig (.create (bytes "/x/y"))).final
      emptyMount).store.entriesVdir.get (bytes "u-caldavfs.ics") ≠ none := by
    decide +kernel
  exact hnew ((hu.index _).trans hold)

/-! ## Writes that fail -/

/-- A call that writes the file of a note. -/
def Op.WritesNote : Op → Prop
  | .unlink _ => False
  | .rmdir _ => False
  | .event _ => False
  | _ => True

/-- The file that a creation writes, and the component as it edits it last. -/
def World.createEdit (cfg : Config Text) (w : World Text) (path : CStr) (etype : EntryType) :
    Option (CStr × Icalcomponent) :=
  (w.createParent cfg path).map fun p => ((w.newEntry path).filenameVdir,
    stamp (w.allocated path).now (w.newNote cfg path etype p))

/-- The file that a call on an existing note writes, and the component. -/
def World.noteEdit (cfg : Config Text) (w : World Text) (o : Op) :
    Option (CStr × Icalcomponent) := do
  let (n, f) ← w.edit cfg o
  let e ← w.store.entry n
  let c ← w.component cfg n
  some (e.filenameVdir, stamp w.now (f c))

/-- The file that a call writes, and the component as the call edits it last; none
    when the call writes nothing. -/
def World.lastEdit (cfg : Config Text) (w : World Text) : Op → Option (CStr × Icalcomponent)
  | .create path => w.createEdit cfg path .file
  | .mkdir path => w.createEdit cfg path .directory
  | .rename old new _ => (w.renames cfg old new).map fun (v, m) =>
    (m.filenameVdir, m.edited cfg v (getFilename new))
  | .write path buf size offset => w.noteEdit cfg (.write path buf size offset)
  | .setxattr path attrib value s flags => w.noteEdit cfg (.setxattr path attrib value s flags)
  | .removexattr path attrib => w.noteEdit cfg (.removexattr path attrib)
  | _ => none

/-- The number of writes of a call that has something to write. -/
def World.writeCount (cfg : Config Text) (w : World Text) : Op → Nat
  | .rename old new _ => match w.renames cfg old new with
    | some (v, m) => v.moveWrites cfg (getFilename new) m.target
    | none => 0
  | _ => 1

/-- A rename that takes a relation out of the component after its last write. -/
def World.EditsUnwritten (cfg : Config Text) (w : World Text) : Op → Prop
  | .rename old new _ => ∃ v m, w.renames cfg old new = some (v, m) ∧ m.DropsRelation cfg v
  | _ => False

/-- The call returns a negative status when the file cannot be opened. `fuse_write`
    does so for a size that is negative as an `int`, whatever becomes of the write. -/
def World.ReportsFailure (cfg : Config Text) (w : World Text) : Op → Prop
  | .create path => w.outcome = .openFailed ∧
    ∃ p, w.createParent cfg path = some p ∧ (w.component cfg p).isSome = true
  | .mkdir path => w.outcome = .openFailed ∧
    ∃ p, w.createParent cfg path = some p ∧ (w.component cfg p).isSome = true
  | .write _ _ size _ => intOfSize size < 0
  | .setxattr .. => w.outcome = .openFailed
  | .removexattr .. => w.outcome = .openFailed
  | _ => False

/-- No write is lost in silence: a call that returned `status` fails if one of its writes
    did, and otherwise the file holds the component as it was edited last. -/
structure WritesReported (cfg : Config Text) (w : World Text) (o : Op) (status : Int)
    (w' : World Text) : Prop where
  failed : (∃ x ∈ w.madeWrites w', x ≠ .written) → status < 0
  held : 0 ≤ status → ∀ k ic, w.lastEdit cfg o = some (k, ic) → w'.Holds cfg k ic

/-- A call that writes nothing loses nothing. -/
theorem WritesReported.of_none {o : Op} {status : Int} (hedit : w.lastEdit cfg o = none)
    (hwrites : w'.env.writes = w.env.writes) : WritesReported cfg w o status w' where
  failed := by
    rintro ⟨x, hx, _⟩
    rw [madeWrites_eq (n := 0) hwrites, List.take_zero] at hx
    exact nomatch hx
  held _ k ic h := nomatch hedit.symm.trans h

/-- A call that does not fail has to write everything. -/
theorem writesReported_iff {o : Op} {status : Int} {n : Nat} {k : CStr} {ic : Icalcomponent}
    (hwrites : w.madeWrites w' = w.env.writes.take n) (hedit : w.lastEdit cfg o = some (k, ic))
    (hs : 0 ≤ status) :
    WritesReported cfg w o status w' ↔ w.AllWritten n ∧ w'.Holds cfg k ic := by
  constructor
  · rintro ⟨hfailed, hheld⟩
    rw [hwrites] at hfailed
    refine ⟨fun x hx => ?_, hheld hs k ic hedit⟩
    by_contra hne
    exact absurd (hfailed ⟨x, hx, hne⟩) (Int.not_lt.2 hs)
  · rintro ⟨hall, hholds⟩
    refine ⟨?_, fun _ k' ic' h => ?_⟩
    · rintro ⟨x, hx, hne⟩
      rw [hwrites] at hx
      exact absurd (hall x hx) hne
    · cases hedit.symm.trans h
      exact hholds

theorem allWritten_one : w.AllWritten 1 ↔ w.outcome = .written := by
  unfold World.AllWritten World.outcome
  cases w.env.writes with
  | nil => simp
  | cons x xs => simp

/-- A call with one write. -/
theorem writesReported_of_write {o : Op} {status : Int} {k : CStr} {ic : Icalcomponent}
    (hwrites : w'.env.writes = w.env.writes.drop 1) (hedit : w.lastEdit cfg o = some (k, ic))
    (hholds : w.outcome = .written → w'.Holds cfg k ic) :
    WritesReported cfg w o status w' ↔ status < 0 ∨ w.AllWritten 1 := by
  by_cases hs : status < 0
  · exact iff_of_true ⟨fun _ => hs, fun h => absurd hs (Int.not_lt.2 h)⟩ (.inl hs)
  · rw [writesReported_iff (madeWrites_eq hwrites) hedit (Int.not_lt.1 hs), allWritten_one,
      and_iff_left_of_imp hholds, or_iff_right hs]

theorem Created.writesReported_iff {o : Op} {path : CStr} {etype : EntryType} {status : Int}
    (hedit : w.lastEdit cfg o = w.createEdit cfg path etype)
    (hc : Created cfg w path etype status w') :
    WritesReported cfg w o status w' ↔ w.lastEdit cfg o = none ∨
      (w.outcome = .openFailed ∧
        ∃ p, w.createParent cfg path = some p ∧ (w.component cfg p).isSome = true) ∨
      w.AllWritten 1 := by
  rcases hc.cases with ⟨p, hcreate, rfl, rfl⟩ | ⟨hnone, _, hwrites⟩
  · have hlast : w.lastEdit cfg o = some ((w.newEntry path).filenameVdir,
        stamp (w.allocated path).now (w.newNote cfg path etype p)) := by
      rw [hedit, World.createEdit, hcreate]
      rfl
    have hstatus : w.createStatus cfg p < 0 ↔ w.outcome = .openFailed ∧
        ∃ p, w.createParent cfg path = some p ∧ (w.component cfg p).isSome = true := by
      unfold World.createStatus
      split
      · rename_i hsome
        rw [WriteOutcome.status_neg, and_iff_left ⟨p, hcreate, hsome⟩]
      · rename_i hnone
        refine iff_of_false (Int.lt_irrefl 0) ?_
        rintro ⟨_, p', hp', hsome⟩
        cases hcreate.symm.trans hp'
        exact hnone hsome
    have hsome : w.lastEdit cfg o ≠ none := by rw [hlast]; exact Option.some_ne_none _
    rw [writesReported_of_write created_writes hlast created_content, or_iff_right hsome, hstatus]
  · have hlast : w.lastEdit cfg o = none := by
      rw [hedit, World.createEdit, hnone]
      rfl
    exact iff_of_true (.of_none hlast hwrites) (.inl hlast)

theorem Edited.writesReported_iff {o : Op} {status : Int}
    (hedit : w.lastEdit cfg o = w.noteEdit cfg o) (hc : Edited cfg w o status w') :
    WritesReported cfg w o status w' ↔
      w.lastEdit cfg o = none ∨ o.editStatus w.outcome < 0 ∨ w.AllWritten 1 := by
  cases hc with
  | rejected h =>
    have hnone : w.lastEdit cfg o = none := by rw [hedit, World.noteEdit, h]; rfl
    exact iff_of_true (.of_none hnone rfl) (.inl hnone)
  | noComponent h hc =>
    have hnone : w.lastEdit cfg o = none := by
      rw [hedit, World.noteEdit, h]
      simp only [hc, Option.bind_eq_bind, Option.bind_some, Option.bind_none, Option.bind_fun_none]
    exact iff_of_true (.of_none hnone rfl) (.inl hnone)
  | @written _ f e c h he hc =>
    have hlast : w.lastEdit cfg o = some (e.filenameVdir, stamp w.now (f c)) := by
      rw [hedit, World.noteEdit, h]
      simp only [he, hc, Option.bind_eq_bind, Option.bind_some]
    have hsome : w.lastEdit cfg o ≠ none := by rw [hlast]; exact Option.some_ne_none _
    rw [writesReported_of_write List.drop_one.symm hlast (holds_wrote _ _), or_iff_right hsome]
  | notOpened h _ hc =>
    -- There is no component to write, and the status says that the file is not opened.
    have hnone : w.lastEdit cfg o = none := by
      rw [hedit, World.noteEdit, h]
      simp only [hc, Option.bind_eq_bind, Option.bind_some, Option.bind_none, Option.bind_fun_none]
    exact iff_of_true ⟨fun _ => by decide, fun hs => absurd hs (by decide)⟩ (.inl hnone)

theorem Renamed.writesReported_iff (hL : cfg.ical.Lawful) {old new : CStr} {flags : Nat}
    {status : Int} (hc : Renamed cfg w old new status w') :
    WritesReported cfg w (.rename old new flags) status w' ↔
      w.lastEdit cfg (.rename old new flags) = none ∨
      (w.AllWritten (w.writeCount cfg (.rename old new flags)) ∧
        ¬ w.EditsUnwritten cfg (.rename old new flags)) := by
  rcases hc.cases with ⟨v, m, hm, rfl, rfl⟩ | ⟨hnone, hs, hwrites⟩
  · have hlast : w.lastEdit cfg (.rename old new flags) =
        some (m.filenameVdir, m.edited cfg v (getFilename new)) := by
      simp only [World.lastEdit, hm, Option.map_some]
    have hcount : w.writeCount cfg (.rename old new flags) =
        v.moveWrites cfg (getFilename new) m.target := by
      simp only [World.writeCount, hm]
    have hunwritten : w.EditsUnwritten cfg (.rename old new flags) ↔ m.DropsRelation cfg v := by
      refine ⟨?_, fun h => ⟨v, m, hm, h⟩⟩
      rintro ⟨v', m', hm', h⟩
      cases hm.symm.trans hm'
      exact h
    have hsome : w.lastEdit cfg (.rename old new flags) ≠ none := by
      rw [hlast]
      exact Option.some_ne_none _
    rw [Agendafs.writesReported_iff (renames_writes hm _) hlast (Int.le_refl 0),
      or_iff_right hsome, hcount, hunwritten]
    -- When all writes succeed, the file holds what the last of them stored.
    refine and_congr_right fun hall => ?_
    rw [← stored_eq_edited_iff hL (parsed_note hL hm)]
    have hall' : v.AllWritten (v.moveWrites cfg (getFilename new) m.target) :=
      (World.AllWritten.congr (cleared_writes (renames_eq_some hm).1)).2 hall
    obtain ⟨f, hf, hcontent⟩ := after_holds hall'
    constructor
    · rintro ⟨f', hf', hcontent'⟩
      cases hf.symm.trans hf'
      exact hcontent.symm.trans hcontent'
    · intro htext
      exact ⟨f, hf, hcontent.trans htext⟩
  · have hlast : w.lastEdit cfg (.rename old new flags) = none := by
      simp only [World.lastEdit, hnone, Option.map_none]
    exact iff_of_true (.of_none hlast hwrites) (.inl hlast)

/-- No write of a call is lost in silence exactly when the call writes nothing, reports the
    failure, or makes all of its writes, the last of them after its last edit. -/
theorem writes_reported_iff (hL : cfg.ical.Lawful) (h : Reachable cfg w) {o : Op}
    (ho : o.WritesNote) (hv : o.Valid cfg w) {status : Int}
    (hrun : exec cfg o w = .ok (status, w')) :
    WritesReported cfg w o status w' ↔
      w.lastEdit cfg o = none ∨ w.ReportsFailure cfg o ∨
        (w.AllWritten (w.writeCount cfg o) ∧ ¬ w.EditsUnwritten cfg o) := by
  have hc := exec_effect (Run.sound h) hv hrun
  cases o with
  | unlink => exact ho.elim
  | rmdir => exact ho.elim
  | event => exact ho.elim
  | create path =>
    rw [Created.writesReported_iff rfl hc]
    simp only [World.ReportsFailure, World.writeCount, World.EditsUnwritten, not_false_eq_true,
      and_true]
  | mkdir path =>
    rw [Created.writesReported_iff rfl hc]
    simp only [World.ReportsFailure, World.writeCount, World.EditsUnwritten, not_false_eq_true,
      and_true]
  | write path buf size offset =>
    rw [Edited.writesReported_iff rfl hc]
    simp only [World.ReportsFailure, World.writeCount, World.EditsUnwritten, not_false_eq_true,
      and_true, Op.editStatus]
  | setxattr path attrib value s flags =>
    rw [Edited.writesReported_iff rfl hc]
    simp only [World.ReportsFailure, World.writeCount, World.EditsUnwritten, not_false_eq_true,
      and_true, Op.editStatus, WriteOutcome.status_neg]
  | removexattr path attrib =>
    rw [Edited.writesReported_iff rfl hc]
    simp only [World.ReportsFailure, World.writeCount, World.EditsUnwritten, not_false_eq_true,
      and_true, Op.editStatus, WriteOutcome.status_neg]
  | rename old new flags =>
    rw [Renamed.writesReported_iff hL hc]
    simp only [World.ReportsFailure, false_or]

/-- The mount of a single note, when no file can be opened for the next write. -/
def unwritableMount : World Icalcomponent :=
  sampleMount [(bytes "a.ics", sampleNote (bytes "a") (bytes "Note") [])] { writes := [.openFailed] }

theorem reachable_unwritableMount : Reachable sampleConfig unwritableMount :=
  run_sampleMount _ (by decide) (by decide) trivial (by decide +kernel)

/-- Writing one byte to the note. -/
def writeNote : Op := .write (bytes "/Note.txt") (bytes "x") 1 0

theorem unwritableMount_write_run :
    exec sampleConfig writeNote unwritableMount =
      .ok (1, (exec sampleConfig writeNote).final unwritableMount) :=
  exec_sample (by decide +kernel)

theorem writes_reported_iff_unwritableMount :
    WritesReported sampleConfig unwritableMount writeNote 1
        ((exec sampleConfig writeNote).final unwritableMount) ↔
      unwritableMount.lastEdit sampleConfig writeNote = none ∨
        unwritableMount.ReportsFailure sampleConfig writeNote ∨
        (unwritableMount.AllWritten (unwritableMount.writeCount sampleConfig writeNote) ∧
          ¬ unwritableMount.EditsUnwritten sampleConfig writeNote) :=
  writes_reported_iff structuralIcal_lawful reachable_unwritableMount (o := writeNote) trivial
    trivial unwritableMount_write_run

/-- So `fuse_write` can lose a write in silence. -/
theorem not_all_writes_reported :
    ¬ ∀ (w w' : World Icalcomponent) (o : Op) (status : Int), Reachable sampleConfig w →
      o.WritesNote → o.Valid sampleConfig w → exec sampleConfig o w = .ok (status, w') →
        (∃ x ∈ w.madeWrites w', x ≠ .written) → status < 0 := by
  intro hall
  have hs := hall _ _ writeNote _ reachable_unwritableMount trivial trivial
    unwritableMount_write_run
  refine absurd (hs ⟨.openFailed, ?_, nofun⟩) (by decide)
  have hlength : ((exec sampleConfig writeNote).final unwritableMount).env.writes.length = 0 := by
    decide +kernel
  unfold World.madeWrites
  rw [hlength]
  exact List.mem_cons_self

end Agendafs
