import Agendafs.Spec.Namespace

/-!
# The names of edited notes

Writing a note or one of its attributes makes inotify report its file, and the
handler computes the name of the note anew from the file and numbers it against
the siblings it then has. The paths stay as they are exactly if the note still
has the first free name and the parent its file asks for.

## Key results

- `updated_of_indexed`: what handling the file of a note in the tree does to it
- `namespace_place_iff`: when placing a note anew leaves all paths
- `edit_keeps_paths_iff`
-/

namespace Agendafs

open Store

variable {Text : Type} {cfg : Config Text} {w w' v : World Text}

/-! ## Placing a note anew -/

section Place

variable {s : Store} {p n : NodeId} {e : AgendaEntry} {x : CStr}

theorem rename_rename (s : Store) (n : NodeId) (x y : CStr) :
    (s.rename n x).rename n y = s.rename n y := by
  unfold Store.rename Store.modifyNode
  congr 1
  funext m
  by_cases hm : m = n
  · simp only [if_pos hm, Option.map_map]
    congr 1
    funext t
    cases t with
    | mk data parent children => cases data <;> rfl
  · simp only [if_neg hm]

/-- Handling the file of a note in the tree gives it the first free name below its parent. -/
theorem updated_of_indexed (h : s.Inv) (hn : s.entriesVdir.get e.filenameVdir = some n) :
    s.updated e p = s.place p n (freshName e.filename ((s.detach n).childNames p)) := by
  obtain ⟨e', he', _⟩ := (h.index _ _).1 hn
  unfold Store.updated Store.placedName
  rw [upsert_of_some hn]
  simp only
  have hdetached := h.detach n
  have hparent : (s.detach n).links.parent n = none := by
    rw [links_detach h.wf, Links.detach_parent, Function.update_self]
  rw [rename_name he', Function.update_self, detach_rename,
    childNames_rename hdetached.wf hparent (by rw [detach_entry]; exact he')]
  unfold Store.place
  rw [detach_rename, rename_rename]

/-- A note that is placed below its parent under its own name leaves all paths, if no sibling
    has that name. -/
theorem namespace_place_same (h : s.Inv) (he : s.entry n = some e)
    (hp : s.links.parent n = some p) (hx : s.name n ∉ (s.detach n).childNames p) :
    (s.place p n (s.name n)).namespace = s.namespace := by
  unfold Store.namespace
  rw [place_fuseRoot, place_links h.wf (h.live_parent hp) (live_of_entry he), place_name he,
    Function.update_eq_self]
  funext segments
  refine Links.resolve_congr_find (fun q y => ?_) _ _
  rw [h.wf.move_children]
  split
  · rename_i hq
    subst hq
    refine Links.find?_erase_append (h.wf.mem_children.2 hp) fun hname d hd => ?_
    rw [detach_childNames h.wf] at hx
    refine decide_eq_false fun hdname => hx (List.mem_map.2 ⟨d, hd, ?_⟩)
    exact hdname.trans (of_decide_eq_true hname).symm
  · rename_i hq
    have hnot : n ∉ s.links.children q := fun hm => by
      have hp' := h.wf.mem_children.1 hm
      rw [hp, Option.some.injEq] at hp'
      exact hq hp'.symm
    rw [List.erase_of_not_mem hnot]

/-- Placing a note under a free name leaves all paths exactly if it is the place it has. -/
theorem namespace_place_iff (h : s.Inv) (he : s.entry n = some e) (hlive : s.Live p)
    {segments : List CStr} (hn : s.namespace segments = some n)
    (hx : x ∉ (s.detach n).childNames p) :
    (s.place p n x).namespace = s.namespace ↔ s.links.parent n = some p ∧ s.name n = x := by
  constructor
  · intro hsame
    have hinv := h.place (x := x) hlive he
    rcases List.eq_nil_or_concat' segments with rfl | ⟨dir, y, rfl⟩
    · exact absurd (Option.some.inj hn).symm (h.ne_root he)
    · have hn' : (s.place p n x).namespace (dir ++ [y]) = some n := by
        rw [hsame]
        exact hn
      obtain ⟨q, hdir, hq, hname⟩ := h.wf.of_resolve_append hn
      obtain ⟨q', hdir', hq', hname'⟩ := hinv.wf.of_resolve_append hn'
      rw [place_parent h.wf hlive (live_of_entry he), Function.update_self,
        Option.some.injEq] at hq'
      rw [place_name he, Function.update_self] at hname'
      have heq : s.namespace dir = some q' := by
        rw [← hsame]
        exact hdir'
      have hqq : some q = some q' := hdir.symm.trans heq
      exact ⟨by rw [hq, hqq, hq'], hname.trans hname'.symm⟩
  · rintro ⟨hp, rfl⟩
    exact namespace_place_same h he hp hx

end Place

/-! ## Handling the change of an edited file -/

/-- The path whose note a call edits. -/
def Op.editedPath : Op → Option CStr
  | .write path .. => some path
  | .setxattr path .. => some path
  | .removexattr path _ => some path
  | _ => none

/-- Handling the change of a file leaves every path where it led in `s`. -/
def World.KeepsPaths (cfg : Config Text) (v : World Text) (filenameVdir : CStr) (s : Store) : Prop :=
  ∃ v', handleVdirEvent cfg ⟨IN_MODIFY, filenameVdir⟩ v = .ok ((), v') ∧
    v'.store.namespace = s.namespace

/-- The note has the place that its file asks for: it is below the parent that the file names,
    which can take it, and its siblings have all the lower numbers of its name. -/
structure World.InPlace (cfg : Config Text) (v : World Text) (filenameVdir : CStr) (n : NodeId) :
    Prop where
  opens : v.files (appendPath cfg.vdir filenameVdir) ≠ none → v.Readable cfg filenameVdir
  placed : ∀ e, v.loadable cfg filenameVdir = some e → ∃ p, v.HandlesBelow cfg filenameVdir e p ∧
    v.store.links.parent n = some p ∧
      ∃ i, v.store.name n = numbered e.filename i ∧
        v.store.name n ∉ (v.store.detach n).childNames p ∧
        ∀ j < i, numbered e.filename j ∈ (v.store.detach n).childNames p

/-- What handling the file of a note in the tree does to the paths. -/
theorem namespace_updated_iff (h : v.store.Sound) {n : NodeId} {e e' : AgendaEntry} {k : CStr}
    {segments : List CStr} (hn : v.store.namespace segments = some n)
    (he : v.store.entry n = some e) (hk : e.filenameVdir = k) (he' : v.loadable cfg k = some e')
    {p : NodeId} (hp : v.HandlesBelow cfg k e' p) :
    (v.updated cfg e' p).store.namespace = v.store.namespace ↔ v.store.links.parent n = some p ∧
      freshName e'.filename ((v.store.detach n).childNames p) = v.store.name n := by
  have hflat := h.flat n e he
  rw [hk] at hflat
  have hk' := filenameVdir_of_loadable hflat he'
  have hget : v.store.entriesVdir.get e'.filenameVdir = some n :=
    (h.index _ _).2 ⟨e, he, hk.trans hk'.symm⟩
  have hlive : v.store.Live p := by
    rcases (upsert_live h.toInv).1 (h.toInv.upsert.live_of_target hp.target) with heq | hlive
    · rw [heq, upsert_of_some hget]
      exact live_of_entry he
    · exact hlive
  rw [updated_store, updated_of_indexed h.toInv hget,
    namespace_place_iff h.toInv he hlive hn (freshName_not_mem _ _), eq_comm (b := v.store.name n)]

theorem keepsPaths_iff (h : v.store.Sound) {n : NodeId} {e : AgendaEntry} {segments : List CStr}
    (hn : v.store.namespace segments = some n) (he : v.store.entry n = some e)
    (hevent : InotifyEvent.updates ⟨IN_MODIFY, e.filenameVdir⟩ = true) :
    v.KeepsPaths cfg e.filenameVdir v.store ↔ v.InPlace cfg e.filenameVdir n := by
  have hflat := h.flat n e he
  have hname := getFilename_appendPath cfg.vdir hflat
  unfold World.KeepsPaths
  rw [handleVdirEvent_eq hevent]
  constructor
  · rintro ⟨v', hrun, hsame⟩
    have hrule : Prog.wp (updateOrCreateFuseEntryFromVdir cfg (appendPath cfg.vdir e.filenameVdir))
        _ (fun _ => True) v :=
      wp_updateOrCreateFuseEntryFromVdir h.toInv fun _ _ _ => trivial
    rw [hname] at hrule
    cases hmake : updateOrCreateFuseEntryFromVdir cfg (appendPath cfg.vdir e.filenameVdir) v with
    | error c =>
      rw [Prog.bind_run, hmake] at hrun
      exact nomatch hrun
    | ok r =>
      obtain ⟨status, u⟩ := r
      rw [Prog.bind_run_ok hmake] at hrun
      cases hrun
      obtain ⟨hopens, hmade⟩ := hrule.ok hmake
      refine ⟨hopens, fun e' he' => ?_⟩
      rw [he'] at hmade
      obtain ⟨p, hp, _, rfl⟩ := hmade
      obtain ⟨hparent, hfresh⟩ := (namespace_updated_iff h hn he rfl he' hp).1 hsame
      exact ⟨p, hp, hparent, freshName_eq_iff.1 hfresh⟩
  · rintro ⟨hopens, hplaced⟩
    have hgo : v.Handles cfg (getFilename (appendPath cfg.vdir e.filenameVdir)) := by
      rw [hname]
      refine ⟨hopens, fun e' he' => ?_⟩
      obtain ⟨p, hp, _⟩ := hplaced e' he'
      exact ⟨p, hp⟩
    obtain ⟨status, u, hrun, _, hmade⟩ := (wp_updateOrCreateFuseEntryFromVdir
      (E := fun _ => False) h.toInv fun hstop => absurd hgo hstop).returns
    refine ⟨u, by rw [Prog.bind_run_ok hrun]; rfl, ?_⟩
    rw [hname] at hmade
    cases he' : v.loadable cfg e.filenameVdir with
    | none =>
      rw [he'] at hmade
      rw [hmade.2]
    | some e' =>
      rw [he'] at hmade
      obtain ⟨p, hp, _, rfl⟩ := hmade
      obtain ⟨q, hq, hparent, hfresh⟩ := hplaced e' he'
      cases hp.target.symm.trans hq.target
      exact (namespace_updated_iff h hn he rfl he' hp).2 ⟨hparent, freshName_eq_iff.2 hfresh⟩

/-- After an edit the change of the file is handled without changing a path exactly if the
    handler looks at no such file or the note has the place that its file asks for. -/
theorem edit_keeps_paths_iff (h : Reachable cfg w) {o : Op} {path : CStr}
    (ho : o.editedPath = some path) {n : NodeId} {e : AgendaEntry}
    (hn : w.store.lookup path = some n) (he : w.store.entry n = some e) {status : Int}
    (hrun : exec cfg o w = .ok (status, w')) :
    w'.KeepsPaths cfg e.filenameVdir w.store ↔
      (InotifyEvent.updates ⟨IN_MODIFY, e.filenameVdir⟩ = true →
        w'.InPlace cfg e.filenameVdir n) := by
  have hstore : w'.store = w.store := by
    cases o with
    | write | setxattr | removexattr =>
      have heffect := exec_effect h.sound (by exact trivial) hrun
      exact Edited.store heffect
    | _ => exact nomatch ho
  have hsound : w'.store.Sound := by
    rw [hstore]
    exact h.sound
  rw [← hstore] at hn he ⊢
  cases hevent : InotifyEvent.updates ⟨IN_MODIFY, e.filenameVdir⟩ with
  | false => exact iff_of_true ⟨w', handleVdirEvent_run hsound hevent, rfl⟩ nofun
  | true =>
    rw [keepsPaths_iff hsound hn he hevent]
    exact ⟨fun hplace _ => hplace, fun hplace => hplace rfl⟩

/-- The state after the note in the directory has been written. -/
def editedNested : World Icalcomponent :=
  (exec sampleConfig (.write (bytes "/Dir/Note.txt") (bytes "x") 1 0)).final
    (sampleMount nestedNote {})

theorem edit_keeps_paths_iff_nestedNote :
    editedNested.KeepsPaths sampleConfig (bytes "n.ics") (sampleMount nestedNote {}).store := by
  have hrun : exec sampleConfig (.write (bytes "/Dir/Note.txt") (bytes "x") 1 0)
      (sampleMount nestedNote {}) = .ok (1, editedNested) := exec_sample (by decide +kernel)
  have hentry : (sampleMount nestedNote {}).store.entry 2 =
      some ⟨bytes "Note.txt", bytes "n.ics"⟩ := by decide +kernel
  refine (edit_keeps_paths_iff reachable_nestedNote rfl (by decide +kernel) hentry hrun).2
    fun _ => ⟨fun _ => ?_, fun e he => ?_⟩
  · exact (Option.any_eq_true ..).1 (by decide +kernel)
  · have hname : editedNested.loadable sampleConfig (bytes "n.ics") =
        some ⟨bytes "Note.txt", bytes "n.ics"⟩ := by decide +kernel
    cases hname.symm.trans he
    have htarget : ((editedNested.store.upsert ⟨bytes "Note.txt", bytes "n.ics"⟩).2.target
        (editedNested.parentUid sampleConfig (bytes "n.ics"))) = some 1 := by decide +kernel
    have hparent : (editedNested.upserted ⟨bytes "Note.txt", bytes "n.ics"⟩).store.entry 1 =
        some ⟨bytes "Dir", bytes "d.ics"⟩ := by decide +kernel
    exact ⟨1, ⟨htarget, fun _ => takesNotes_of_entry hparent
      ((Option.any_eq_true ..).1 (by decide +kernel)) (by decide +kernel) (by decide +kernel)⟩,
      by decide +kernel, 0, by decide +kernel, by decide +kernel, nofun⟩

/-- Two notes with one title, after the one without a number has been deleted. -/
def numberedNote : World Icalcomponent :=
  (exec sampleConfig (.unlink (bytes "/Title.txt"))).final (sampleMount equalTitles {})

/-- A note with a number loses it when it is written after its namesake has been deleted. -/
theorem not_all_edits_keep_paths :
    ¬ ∀ (w w' : World Icalcomponent) (o : Op) (path : CStr) (n : NodeId) (e : AgendaEntry)
      (status : Int), Reachable sampleConfig w → o.editedPath = some path →
      w.store.lookup path = some n → w.store.entry n = some e →
      exec sampleConfig o w = .ok (status, w') → 0 ≤ status →
        w'.KeepsPaths sampleConfig e.filenameVdir w.store := by
  intro hall
  have hmount : Reachable sampleConfig (sampleMount equalTitles {}) :=
    run_sampleMount {} (by decide) (by decide) trivial (by decide +kernel)
  have hunlink : exec sampleConfig (.unlink (bytes "/Title.txt")) (sampleMount equalTitles {}) =
      .ok (0, numberedNote) := exec_sample (by decide +kernel)
  have hreach : Reachable sampleConfig numberedNote :=
    .call hmount (by exact trivial) (by exact trivial) hunlink
  have hwrite : exec sampleConfig (.write (bytes "/Title.1.txt") (bytes "x") 1 0) numberedNote =
      .ok (1, _) := exec_sample (by decide +kernel)
  have hentry : numberedNote.store.entry 1 = some ⟨bytes "Title.1.txt", bytes "a.ics"⟩ := by
    decide +kernel
  obtain ⟨v', hrun, hsame⟩ := hall _ _ _ _ 1 _ 1 hreach rfl (by decide +kernel) hentry hwrite
    (by decide)
  have hlost : (handleVdirEvent sampleConfig ⟨IN_MODIFY, bytes "a.ics"⟩).check
      ((exec sampleConfig (.write (bytes "/Title.1.txt") (bytes "x") 1 0)).final numberedNote)
      (fun _ v => decide (v.store.namespace [bytes "Title.1.txt"] = none)) = true := by
    decide +kernel
  have hfound : numberedNote.store.namespace [bytes "Title.1.txt"] ≠ none := by decide +kernel
  have hgone := (Prog.check_run hrun _).symm.trans hlost
  rw [hsame] at hgone
  exact hfound (of_decide_eq_true hgone)

end Agendafs
