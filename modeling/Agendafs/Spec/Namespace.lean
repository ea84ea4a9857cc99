import Agendafs.ForStd.Trail
import Agendafs.Spec.HeldNotes
import Agendafs.Spec.Siblings

/-!
# Create and delete on the namespace

Seen from outside, the tree is a map from paths to notes. When siblings have
different names and files parse, `fuse_create` and `fuse_mkdir` set one path,
`fuse_unlink` and `fuse_rmdir` clear one, and every other path leads where it led
before.

## Key results

- `fuseUnlink_run`, `fuseRmdir_run`: what the calls do on files that open
- `namespace_place_new`, `namespace_removed`: one path is set or cleared
- `create_and_delete_act_on_paths`
-/

namespace Agendafs

open Store

variable {Text : Type} {cfg : Config Text} {w w' : World Text}

/-- The node each path leads to, by the segments of the path. -/
def Store.namespace (s : Store) : List CStr → Option NodeId := s.links.resolve s.name s.fuseRoot

theorem lookup_normalPath (s : Store) {segments : List CStr} (h : ProperSegments segments) :
    s.lookup (normalPath segments) = s.namespace segments := by
  rw [Store.lookup, splitPath_normalPath h, Store.namespace]

theorem Store.UniqueNames.distinct {s : Store} (h : s.UniqueNames) : s.links.Distinct s.name := h

theorem World.Parses.file (h : w.Parses cfg) {n : NodeId} {e : AgendaEntry}
    (he : w.store.entry n = some e) : w.files (appendPath cfg.vdir e.filenameVdir) ≠ none := by
  obtain ⟨f, hf, _⟩ := (h n e he).1
  exact fun hnone => nomatch hf.symm.trans hnone

theorem World.Parses.removeSucceeds (h : w.Parses cfg)
    (hremoved : w.env.removes.head?.getD true = true) {n : NodeId} {e : AgendaEntry}
    (he : w.store.entry n = some e) : w.removeSucceeds cfg e.filenameVdir = true := by
  rw [World.removeSucceeds, hremoved, Option.isSome_iff_ne_none.2 (h.file he)]
  rfl

theorem World.Parses.opens (h : w.Parses cfg) : w.Opens cfg := fun n e he => (h n e he).1

/-! ## The calls on files that open -/

section Run

variable {path : CStr}

/-- A call that looks up a path and reads the node it finds. -/
theorem fuseUnlink_run (h : w.store.Inv) (hopens : w.Opens cfg)
    (hlen : (splitPath path).length ≤ 255) :
    fuseUnlink cfg path w =
      match w.store.lookup path with
      | none => .ok (-ENOENT, w)
      | some n => if w.isDirectory cfg n then .ok (-EISDIR, w) else deleteVdirEntry cfg n w := by
  unfold fuseUnlink
  rw [Prog.bind_run_ok (getNodeByPath_found h hlen)]
  cases hl : w.store.lookup path with
  | none => rfl
  | some n =>
    have hn := h.live_of_lookup hl
    simp only
    rw [Prog.bind_run_ok (getIcalcomponentFromNode_opens hn (hopens n)),
      Prog.bind_run_ok (nodeIsDirectory_run hn)]
    split
    · rfl
    · rfl

theorem fuseRmdir_run (h : w.store.Inv) (hopens : w.Opens cfg)
    (hlen : (splitPath path).length ≤ 255) :
    fuseRmdir cfg path w =
      match w.store.lookup path with
      | none => .ok (-ENOENT, w)
      | some n =>
        if w.isDirectory cfg n then
          if w.store.links.children n ≠ [] then .ok (-ENOTEMPTY, w) else deleteVdirEntry cfg n w
        else .ok (-ENOTDIR, w) := by
  unfold fuseRmdir
  rw [Prog.bind_run_ok (getNodeByPath_found h hlen)]
  cases hl : w.store.lookup path with
  | none => rfl
  | some n =>
    have hn := h.live_of_lookup hl
    simp only
    rw [Prog.bind_run_ok (getIcalcomponentFromNode_opens hn (hopens n)),
      Prog.bind_run_ok (nodeIsDirectory_run hn)]
    split
    · rw [Prog.bind_run_ok (onStore_run (nodeHasChildren_run hn))]
      by_cases hchildren : w.store.links.children n = []
      · rw [decide_eq_false (not_not.2 hchildren), if_neg (not_not.2 hchildren)]
        rfl
      · rw [decide_eq_true hchildren, if_pos hchildren]
        rfl
    · rfl

end Run

/-! ## The edits of the namespace -/

theorem live_of_namespace {s : Store} (h : s.Inv) {segments : List CStr} {n : NodeId}
    (hn : s.namespace segments = some n) : s.Live n := by
  cases h.wf.resolve_below hn with
  | refl => exact h.root_live
  | step hq _ => exact live_of_parent hq

/-- Nothing is below a node without children. -/
theorem namespace_below_leaf {s : Store} {dir : List CStr} {d : NodeId}
    (hd : s.namespace dir = some d) (hleaf : s.links.children d = []) (x : CStr) :
    s.namespace (dir ++ [x]) = none := by
  rw [Store.namespace] at hd
  rw [Store.namespace, Links.resolve_append, hd, Option.bind_some, Links.resolve_singleton, hleaf]
  rfl

/-- A node that has just been made and put below `p` has no children. -/
theorem children_place_new {s : Store} (h : s.Inv) {e : AgendaEntry}
    (hnew : s.entriesVdir.get e.filenameVdir = none) {p : NodeId} (hp : s.Live p) (x : CStr) :
    ((s.create e).place p s.nextId x).links.children s.nextId = [] := by
  have hcreate := h.create hnew
  have hne : s.nextId ≠ p := fun hn => h.not_live_nextId (hn ▸ hp)
  have hentry : (s.create e).entry s.nextId = some e := (create_entry ..).trans (if_pos rfl)
  rw [place_links hcreate.wf ((create_live ..).2 (.inr hp)) (live_of_entry hentry),
    hcreate.wf.move_children, if_neg hne, h.links_create]
  simp only [links, h.heap_nextId, Option.elim_none, List.erase_nil]

/-- A node that has just been made takes the path of the place it is put in. -/
theorem namespace_place_new {s : Store} (h : s.Inv) (hu : s.UniqueNames) {e : AgendaEntry}
    (hnew : s.entriesVdir.get e.filenameVdir = none) {p : NodeId} {x : CStr}
    (hu' : ((s.create e).place p s.nextId x).UniqueNames) {dir : List CStr}
    (hp : s.namespace dir = some p) :
    ((s.create e).place p s.nextId x).namespace =
      Function.update s.namespace (dir ++ [x]) (some s.nextId) := by
  have hcreate := h.create hnew
  have hplive : (s.create e).Live p := (create_live ..).2 (.inr (live_of_namespace h hp))
  have hentry : (s.create e).entry s.nextId = some e := (create_entry ..).trans (if_pos rfl)
  have hname := place_name (p := p) (x := x) hentry
  have hmoved : Links.Moved s.links ((s.create e).place p s.nextId x).links s.name
      ((s.create e).place p s.nextId x).name s.nextId p := by
    refine ⟨?_, fun n hn => ?_⟩
    · rw [place_parent hcreate.wf hplive (live_of_entry hentry), h.links_create]
    · rw [hname, Function.update_of_ne hn, name, name, create_entry, if_neg hn]
  have hlone : s.links.parent s.nextId = none ∧ s.links.children s.nextId = [] := by
    simp only [links, h.heap_nextId, Option.elim_none, and_self]
  have hself : ((s.create e).place p s.nextId x).name s.nextId = x := by
    rw [hname, Function.update_self]
  unfold Store.namespace
  rw [place_fuseRoot]
  have hattach := h.wf.resolve_attach hu.distinct (hcreate.place hplive hentry).wf hu'.distinct
    hmoved h.root_parent h.root_ne_nextId.symm hlone.1 hlone.2 hp
  rw [hself] at hattach
  exact hattach

/-- A note that is taken out leaves its path. -/
theorem namespace_removed {s : Store} (h : s.Sound) (hu : s.UniqueNames) {n : NodeId}
    {e : AgendaEntry} (he : s.entry n = some e) (hchildren : s.links.children n = [])
    {segments : List CStr} (hn : s.namespace segments = some n) :
    (s.delete n e.filenameVdir).namespace = Function.update s.namespace segments none := by
  unfold Store.namespace
  rw [Inv.delete_fuseRoot]
  refine h.wf.resolve_remove hu.distinct (h.toInv.delete he hchildren).wf
    (hu.delete h.toInv hchildren _).distinct ?_ (fun m hm => ?_) h.root_parent (h.ne_root he)
    hchildren hn
  · rw [h.links_delete hchildren, Links.detach_parent]
  · rw [name, name, Inv.delete_entry, if_neg hm]

/-! ## What the calls do on paths -/

/-- The calls of the file system that come next succeed. -/
structure World.CallsSucceed (w : World Text) : Prop where
  written : w.outcome = .written
  removed : w.env.removes.head?.getD true = true

/-- The call returns, with 0 exactly when it is possible, and then leaves a state as said. -/
def ActsOn (call : FsM Text Int) (w : World Text) (possible : Prop) (after : World Text → Prop) :
    Prop :=
  ∃ status w', call w = .ok (status, w') ∧ (status = 0 ↔ possible) ∧ (status = 0 → after w')

theorem ActsOn.refused {call : FsM Text Int} {possible : Prop} {after : World Text → Prop}
    {status : Int} (hrun : call w = .ok (status, w')) (hstatus : status ≠ 0) (hnot : ¬ possible) :
    ActsOn call w possible after :=
  ⟨status, w', hrun, iff_of_false hstatus hnot, fun h0 => absurd h0 hstatus⟩

/-- Nothing has this path, and what is to hold it is a directory. -/
def World.HasRoom (cfg : Config Text) (w : World Text) (dir : List CStr) (name : CStr) : Prop :=
  w.store.namespace (dir ++ [name]) = none ∧
    ∃ d, w.store.namespace dir = some d ∧ w.isDirectory cfg d = true

/-- A new node without children has this path, and the other paths are as before. -/
def PathAdded (w : World Text) (segments : List CStr) (w' : World Text) : Prop :=
  ∃ n, ¬ w.store.Live n ∧ w'.store.links.children n = [] ∧
    w'.store.namespace = Function.update w.store.namespace segments (some n)

/-- Nothing has this path any more, the file of its note is gone, and the other paths and files
    are as before. -/
def PathRemoved (cfg : Config Text) (w : World Text) (segments : List CStr) (w' : World Text) :
    Prop :=
  ∃ n e, w.store.namespace segments = some n ∧ w.store.entry n = some e ∧
    w.files (appendPath cfg.vdir e.filenameVdir) ≠ none ∧
    w'.files = Function.update w.files (appendPath cfg.vdir e.filenameVdir) none ∧
    w'.store.namespace = Function.update w.store.namespace segments none

theorem createNew_actsOn (h : w.store.Sound) (hu : w.store.UniqueNames) (hopens : w.Opens cfg)
    (hfresh : w.FreshUuid cfg) (hwritten : w.outcome = .written) {dir : List CStr} {name : CStr}
    (hlen : (dir ++ [name]).length ≤ 255) (hproper : ProperSegments (dir ++ [name]))
    (etype : EntryType) :
    ActsOn (createNew cfg (normalPath (dir ++ [name])) etype) w (w.HasRoom cfg dir name)
      (PathAdded w (dir ++ [name])) := by
  have hgo : w.Proceeds cfg (normalPath (dir ++ [name])) :=
    ⟨hopens, by rw [splitPath_normalPath hproper]; exact hlen⟩
  obtain ⟨status, w', hrun, hc⟩ := (wp_createNew (E := fun _ => False) h.toInv hfresh
    (fun hstop => absurd hgo hstop) etype).returns
  have hfound := lookup_normalPath w.store hproper
  obtain ⟨parent, hparent, hsplit⟩ := getParentPath_normalPath hproper
  have hdir : w.store.lookup parent = w.store.namespace dir := by
    rw [Store.lookup, hsplit, Store.namespace]
  have hrejects : w.Rejects (normalPath (dir ++ [name])) ↔
      w.store.namespace (dir ++ [name]) ≠ none := by
    have hne : dir ++ [name] ≠ [] := List.concat_ne_nil name dir
    obtain ⟨path, hpath⟩ := exists_normalPath hne
    rw [World.Rejects, hfound, ← Option.isSome_iff_ne_none, hpath]
    simp [pathIsHidden, startsWithStr, slash, dot]
  cases hc with
  | rejected hr hs =>
    have hnot : status ≠ 0 := fun h0 => absurd hs (by rw [h0]; decide)
    exact .refused hrun hnot fun hroom => hrejects.1 hr hroom.1
  | noParent _ hparent' hp =>
    rw [hparent] at hparent'
    cases hparent'
    rw [hdir] at hp
    refine .refused hrun (by decide) ?_
    rintro ⟨_, d, hd, _⟩
    cases hp.symm.trans hd
  | notDirectory _ hparent' hp hdirectory =>
    rw [hparent] at hparent'
    cases hparent'
    rw [hdir] at hp
    refine .refused hrun (by decide) ?_
    rintro ⟨_, d, hd, hisdir⟩
    cases hp.symm.trans hd
    cases hisdir.symm.trans hdirectory
  | @created _ p hr hparent' hp hdirectory =>
    rw [hparent] at hparent'
    cases hparent'
    have hcreated : Created cfg w _ etype _ _ := .created hr hparent hp hdirectory
    have hu' := hcreated.uniqueNames h hu hfresh
    have hplive := h.live_of_lookup hp
    rw [hdir] at hp
    have hstatus : w.createStatus cfg p = 0 := by
      unfold World.createStatus
      rw [hwritten]
      exact ite_self _
    refine ⟨_, _, hrun, iff_of_true hstatus ⟨not_not.1 (hrejects.not.1 hr), p, hp, hdirectory⟩,
      fun _ => ?_⟩
    refine ⟨w.store.nextId, h.not_live_nextId, ?_, ?_⟩
    · rw [created_store h.toInv]
      exact children_place_new h.toInv hfresh.not_indexed hplive _
    · rw [created_store h.toInv] at hu' ⊢
      rw [getFilename_normalPath hproper] at hu' ⊢
      exact namespace_place_new h.toInv hu hfresh.not_indexed hu' hp

/-- A deletion that may take the note at a path away, and leaves the tree alone otherwise. -/
theorem deleteVdirEntry_actsOn (h : w.store.Sound) (hu : w.store.UniqueNames)
    (hparses : w.Parses cfg) (hremoved : w.env.removes.head?.getD true = true)
    {segments : List CStr} {n : NodeId} {e : AgendaEntry} (he : w.store.entry n = some e)
    (hn : w.store.namespace segments = some n) (hchildren : w.store.links.children n = []) :
    ∃ w', deleteVdirEntry cfg n w = .ok (0, w') ∧ PathRemoved cfg w segments w' := by
  have hrun : deleteVdirEntry cfg n w = _ := deleteVdirEntry_run h.toInv he hchildren
  rw [if_pos (hparses.removeSucceeds hremoved he)] at hrun
  refine ⟨_, hrun, n, e, hn, he, hparses.file he, ?_, namespace_removed h hu he hchildren hn⟩
  funext f
  exact (Function.update_apply ..).symm

/-- A path that is not that of the root leads to a note. -/
theorem exists_entry_of_namespace {s : Store} (h : s.Inv) {dir : List CStr} {name : CStr}
    {n : NodeId} (hn : s.namespace (dir ++ [name]) = some n) : ∃ e, s.entry n = some e := by
  obtain ⟨p, _, hp, _⟩ := h.wf.of_resolve_append hn
  exact h.entry_of_live n (live_of_parent hp) (h.child_ne_root hp)

section

variable {dir : List CStr} {name : CStr}

theorem fuseUnlink_actsOn (h : w.store.Sound) (hu : w.store.UniqueNames) (hparses : w.Parses cfg)
    (hremoved : w.env.removes.head?.getD true = true) (hlen : (dir ++ [name]).length ≤ 255)
    (hproper : ProperSegments (dir ++ [name])) :
    ActsOn (fuseUnlink cfg (normalPath (dir ++ [name]))) w
      (∃ n, w.store.namespace (dir ++ [name]) = some n ∧ w.isDirectory cfg n = false)
      (PathRemoved cfg w (dir ++ [name])) := by
  rw [← splitPath_normalPath hproper] at hlen
  have hrun : fuseUnlink cfg _ w = _ := fuseUnlink_run h.toInv hparses.opens hlen
  rw [lookup_normalPath w.store hproper] at hrun
  cases hn : w.store.namespace (dir ++ [name]) with
  | none =>
    rw [hn] at hrun
    exact .refused hrun (by decide) nofun
  | some n =>
    simp only [hn] at hrun
    simp only [Option.some.injEq, exists_eq_left']
    cases hd : w.isDirectory cfg n with
    | true =>
      rw [if_pos hd] at hrun
      exact .refused hrun (by decide) nofun
    | false =>
      rw [hd, if_neg Bool.false_ne_true] at hrun
      obtain ⟨e, he⟩ := exists_entry_of_namespace h.toInv hn
      obtain ⟨w', hdelete, hafter⟩ := deleteVdirEntry_actsOn h hu hparses hremoved he hn
        (children_of_not_directory hd)
      exact ⟨0, w', hrun.trans hdelete, iff_of_true rfl rfl, fun _ => hafter⟩

theorem fuseRmdir_actsOn (h : w.store.Sound) (hu : w.store.UniqueNames) (hparses : w.Parses cfg)
    (hremoved : w.env.removes.head?.getD true = true) (hlen : (dir ++ [name]).length ≤ 255)
    (hproper : ProperSegments (dir ++ [name])) :
    ActsOn (fuseRmdir cfg (normalPath (dir ++ [name]))) w
      (∃ n, w.store.namespace (dir ++ [name]) = some n ∧ w.isDirectory cfg n = true ∧
        w.store.links.children n = [])
      (PathRemoved cfg w (dir ++ [name])) := by
  rw [← splitPath_normalPath hproper] at hlen
  have hrun : fuseRmdir cfg _ w = _ := fuseRmdir_run h.toInv hparses.opens hlen
  rw [lookup_normalPath w.store hproper] at hrun
  cases hn : w.store.namespace (dir ++ [name]) with
  | none =>
    rw [hn] at hrun
    exact .refused hrun (by decide) nofun
  | some n =>
    simp only [hn] at hrun
    simp only [Option.some.injEq, exists_eq_left']
    cases hd : w.isDirectory cfg n with
    | false =>
      rw [hd, if_neg Bool.false_ne_true] at hrun
      exact .refused hrun (by decide) fun hx => nomatch hx.1
    | true =>
      rw [if_pos hd] at hrun
      by_cases hchildren : w.store.links.children n = []
      · rw [if_neg (not_not.2 hchildren)] at hrun
        obtain ⟨e, he⟩ := exists_entry_of_namespace h.toInv hn
        obtain ⟨w', hdelete, hafter⟩ := deleteVdirEntry_actsOn h hu hparses hremoved he hn hchildren
        exact ⟨0, w', hrun.trans hdelete, iff_of_true rfl ⟨rfl, hchildren⟩, fun _ => hafter⟩
      · rw [if_pos hchildren] at hrun
        exact .refused hrun (by decide) fun hx => hchildren hx.2

end

/-- Creating, making a directory, unlinking and removing a directory set or clear one path of the
    namespace, exactly when the path allows it. -/
theorem create_and_delete_act_on_paths (h : Reachable cfg w) (hu : w.store.UniqueNames)
    (hparses : w.Parses cfg) (hcalls : w.CallsSucceed) {dir : List CStr} {name : CStr}
    (hlen : (dir ++ [name]).length ≤ 255) (hproper : ProperSegments (dir ++ [name])) :
    (w.FreshUuid cfg →
      ActsOn (fuseCreate cfg (normalPath (dir ++ [name]))) w (w.HasRoom cfg dir name)
        (PathAdded w (dir ++ [name])) ∧
      ActsOn (fuseMkdir cfg (normalPath (dir ++ [name]))) w (w.HasRoom cfg dir name)
        (PathAdded w (dir ++ [name]))) ∧
    ActsOn (fuseUnlink cfg (normalPath (dir ++ [name]))) w
      (∃ n, w.store.namespace (dir ++ [name]) = some n ∧ w.isDirectory cfg n = false)
      (PathRemoved cfg w (dir ++ [name])) ∧
    ActsOn (fuseRmdir cfg (normalPath (dir ++ [name]))) w
      (∃ n, w.store.namespace (dir ++ [name]) = some n ∧ w.isDirectory cfg n = true ∧
        w.store.links.children n = [])
      (PathRemoved cfg w (dir ++ [name])) := by
  have hsound := h.sound
  refine ⟨fun hfresh => ⟨?_, ?_⟩, ?_, ?_⟩
  · exact createNew_actsOn hsound hu hparses.opens hfresh hcalls.written hlen hproper .file
  · exact createNew_actsOn hsound hu hparses.opens hfresh hcalls.written hlen hproper .directory
  · exact fuseUnlink_actsOn hsound hu hparses hcalls.removed hlen hproper
  · exact fuseRmdir_actsOn hsound hu hparses hcalls.removed hlen hproper

theorem create_and_delete_act_on_paths_nestedNote :
    ∃ w', fuseUnlink sampleConfig (bytes "/Dir/Note.txt") (sampleMount nestedNote {}) = .ok (0, w') ∧
      PathRemoved sampleConfig (sampleMount nestedNote {}) [bytes "Dir", bytes "Note.txt"] w' := by
  have hproper : ProperSegments ([bytes "Dir"] ++ [bytes "Note.txt"]) := by
    unfold ProperSegments
    decide
  obtain ⟨status, w', hunlink, hstatus, hafter⟩ :=
    (create_and_delete_act_on_paths reachable_nestedNote
      (run_nestedNote (G := parsingRuns _) trivial).uniqueNames
      (parses_of_check reachable_nestedNote.sound.toInv (by decide +kernel)) ⟨rfl, rfl⟩
      (by decide) hproper).2.1
  have hpossible : ∃ n, (sampleMount nestedNote {}).store.namespace
      ([bytes "Dir"] ++ [bytes "Note.txt"]) = some n ∧
      (sampleMount nestedNote {}).isDirectory sampleConfig n = false :=
    ⟨2, by decide +kernel, by decide +kernel⟩
  obtain rfl := hstatus.2 hpossible
  exact ⟨w', hunlink, hafter rfl⟩

end Agendafs
