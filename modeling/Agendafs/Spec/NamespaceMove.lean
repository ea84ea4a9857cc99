import Agendafs.Spec.EditsCorrect
import Agendafs.Spec.Namespace

/-!
# Rename on the namespace

When siblings have different names and files parse, `fuse_rename` moves the
subtree at the old path to the new one, in place of the note there. It stops
instead when the file of the old parent has no UID and the note has a relation,
which is compared with that UID.

## Key results

- `TargetCleared`: the state the rename goes on in when the target is out of the way
- `namespace_moved`: the paths after the subtree has been placed
- `rename_moves_subtree_iff`
-/

namespace Agendafs

open Icalcomponent Store

variable {Text : Type} {cfg : Config Text} {w w' v : World Text}

/-! ## The relation to the old parent -/

/-- The note at the path has a relation, and the file of its parent no UID. -/
def World.RelatedToUnnamed (cfg : Config Text) (w : World Text) (segments : List CStr) : Prop :=
  ∃ c q ics pic, w.store.namespace segments = some c ∧ w.component cfg c = some ics ∧
    w.store.links.parent c = some q ∧ w.component cfg q = some pic ∧ pic.getUid = none ∧
    (ics.getFirstAnyComponent.bind (·.getFirstProperty .relatedTo)).isSome = true

theorem removeRelation_ok_iff {pic ics : Icalcomponent} :
    (∃ ics', removeParentChildRelationshipFromComponent pic ics = .ok ics') ↔
      ¬ (pic.getUid = none ∧
        (ics.getFirstAnyComponent.bind (·.getFirstProperty .relatedTo)).isSome = true) := by
  unfold removeParentChildRelationshipFromComponent
  cases pic.getUid with
  | some uid => exact iff_of_true ⟨_, rfl⟩ fun h => nomatch h.1
  | none =>
    simp only [true_and]
    split
    · rename_i h
      exact iff_of_false nofun (not_not.2 h)
    · rename_i h
      exact iff_of_true ⟨_, rfl⟩ h

/-- A new name leaves the relations of a note alone. -/
theorem relatedTo_renamedNote (n : NodeId) (k x : CStr) (ics : Icalcomponent) :
    (w.renamedNote cfg n k x ics).getFirstAnyComponent.bind (·.getFirstProperty .relatedTo) =
      ics.getFirstAnyComponent.bind (·.getFirstProperty .relatedTo) := by
  have honly := onlyKind_kind .relatedTo
  have hkeeps : Keeps (·.kind = .relatedTo) (w.renamedNote cfg n k x) :=
    keeps_renamedNote honly (by decide) (fun p hp =>
      honly.eq_false (by rw [onlyKind_isXProp _ p hp]; decide)) n k x
  unfold getFirstProperty
  rw [head?_view_any, head?_view_any, hkeeps.view]

theorem unrelates_iff {old : List CStr} (hproper : ProperSegments old) (new : CStr) :
    w.Unrelates cfg (normalPath old) new ↔ ¬ w.RelatedToUnnamed cfg old := by
  unfold World.Unrelates World.RelatedToUnnamed
  rw [lookup_normalPath w.store hproper]
  constructor
  · rintro h ⟨c, q, ics, pic, hc, hics, hq, hpic, hbad⟩
    obtain ⟨e, he⟩ := exists_entry_of_component hics
    have hok := removeRelation_ok_iff.1 (h c q e ics pic hc he hics hq hpic)
    rw [relatedTo_renamedNote] at hok
    exact hok hbad
  · intro h c q e ics pic hc he hics hq hpic
    rw [removeRelation_ok_iff, relatedTo_renamedNote]
    exact fun hbad => h ⟨c, q, ics, pic, hc, hics, hq, hpic, hbad⟩

/-! ## The target out of the way -/

/-- The state in which nothing is at the path `new` any more, and all else is as before. -/
structure TargetCleared (cfg : Config Text) (w : World Text) (new : List CStr) (v : World Text) :
    Prop where
  sound : v.store.Sound
  unique : v.store.UniqueNames
  parses : v.Parses cfg
  namespace_eq : v.store.namespace = Function.update w.store.namespace new none
  others : ∀ n, w.store.namespace new ≠ some n →
    v.store.links.parent n = w.store.links.parent n ∧ v.component cfg n = w.component cfg n
  gone : ∀ n e, w.store.namespace new = some n → w.store.entry n = some e →
    ¬ v.store.Live n ∧ v.store.entriesVdir.get e.filenameVdir = none ∧
      v.files (appendPath cfg.vdir e.filenameVdir) = none

theorem targetCleared_free (h : w.store.Sound) (hu : w.store.UniqueNames) (hparses : w.Parses cfg)
    {new : List CStr} (hn : w.store.namespace new = none) : TargetCleared cfg w new w where
  sound := h
  unique := hu
  parses := hparses
  namespace_eq := by
    rw [← hn]
    exact (Function.update_eq_self ..).symm
  others _ _ := ⟨rfl, rfl⟩
  gone _ _ hn' := nomatch hn.symm.trans hn'

theorem targetCleared_removed (h : w.store.Sound) (hu : w.store.UniqueNames)
    (hparses : w.Parses cfg) {new : List CStr} {n : NodeId} {e : AgendaEntry}
    (hn : w.store.namespace new = some n) (he : w.store.entry n = some e)
    (hchildren : w.store.links.children n = []) :
    TargetCleared cfg w new (w.removed cfg n e.filenameVdir) where
  sound := h.delete he hchildren
  unique := hu.delete h.toInv hchildren _
  parses m e' he' := by
    have hentry : (w.store.delete n e.filenameVdir).entry m = some e' := he'
    rw [Inv.delete_entry] at hentry
    split at hentry
    · exact nomatch hentry
    · rename_i hmn
      obtain ⟨hr, hc⟩ := hparses m e' hentry
      have hcomponent : (w.removed cfg n e.filenameVdir).component cfg m = w.component cfg m :=
        component_removed h.toInv he hmn
      rw [component_of_entry he', component_of_entry hentry] at hcomponent
      rw [hcomponent]
      refine ⟨?_, hc⟩
      have hne : e'.filenameVdir ≠ e.filenameVdir := fun hk => hmn <| by
        have hm := (h.index _ _).2 ⟨e', hentry, hk⟩
        rw [(h.index _ _).2 ⟨e, he, rfl⟩, Option.some.injEq] at hm
        exact hm.symm
      obtain ⟨f, hf, hreadable⟩ := hr
      exact ⟨f, (if_neg fun hk => hne (appendPath_inj.1 hk)).trans hf, hreadable⟩
  namespace_eq := namespace_removed h hu he hchildren hn
  others m hm := by
    have hmn : m ≠ n := fun heq => hm (heq ▸ hn)
    refine ⟨?_, component_removed h.toInv he hmn⟩
    change (w.store.delete n e.filenameVdir).links.parent m = _
    rw [h.links_delete hchildren, Links.detach_parent, Function.update_of_ne hmn]
  gone m e' hm he' := by
    cases hn.symm.trans hm
    cases he.symm.trans he'
    refine ⟨fun hlive => ((Inv.delete_live ..).1 hlive).1 rfl, ?_, if_pos rfl⟩
    change (w.store.delete n e.filenameVdir).entriesVdir.get _ = none
    rw [Inv.delete_entriesVdir, Hashmap.get_remove, if_pos rfl]

/-- Nothing that decides whether the relation can be taken out is at the target. -/
theorem TargetCleared.relatedToUnnamed_iff (h : w.store.Sound) {old new : List CStr}
    (hv : TargetCleared cfg w new v) (hold : old ≠ new)
    (htarget : ∀ n, w.store.namespace new = some n → w.store.links.children n = []) :
    v.RelatedToUnnamed cfg old ↔ w.RelatedToUnnamed cfg old := by
  have hsame : v.store.namespace old = w.store.namespace old := by
    rw [hv.namespace_eq, Function.update_of_ne hold]
  unfold World.RelatedToUnnamed
  rw [hsame]
  refine exists_congr fun c => exists_congr fun q => exists_congr fun ics => exists_congr fun pic =>
    and_congr_right fun hc => ?_
  obtain ⟨hparent, hcomponent⟩ := hv.others c fun hn =>
    hold (h.wf.resolve_inj h.root_parent hc hn)
  rw [hparent, hcomponent]
  refine and_congr_right fun _ => and_congr_right fun hq => ?_
  -- The parent has a child, so it is not the node that made way.
  have hne : w.store.namespace new ≠ some q := fun hn => by
    have hmem := h.wf.mem_children.2 hq
    rw [htarget q hn] at hmem
    exact nomatch hmem
  rw [(hv.others q hne).2]

/-! ## The move -/

/-- A subtree that is placed under a free name moves the paths through it. -/
theorem namespace_moved {s : Store} (h : s.Inv) (hu : s.UniqueNames) {p c : NodeId}
    {e : AgendaEntry} {x : CStr} (hu' : (s.place p c x).UniqueNames) (he : s.entry c = some e)
    {old dir : List CStr} (hc : s.namespace old = some c) (hp : s.namespace dir = some p)
    (hbelow : ¬ old <+: dir) (hfree : s.namespace (dir ++ [x]) = none) :
    (s.place p c x).namespace = Links.moveSubtree s.namespace old (dir ++ [x]) := by
  have hplive := live_of_namespace h hp
  have hname := place_name (p := p) (x := x) he
  have hmoved : Links.Moved s.links (s.place p c x).links s.name (s.place p c x).name c p := by
    refine ⟨place_parent h.wf hplive (live_of_entry he), fun n hn => ?_⟩
    rw [hname, Function.update_of_ne hn]
  have hself : (s.place p c x).name c = x := by rw [hname, Function.update_self]
  have hmove := h.wf.resolve_move hu.distinct (h.place hplive he).wf hu'.distinct hmoved
    h.root_parent (h.ne_root he) hc hp hbelow (by rw [hself]; exact hfree)
  rw [hself] at hmove
  unfold Store.namespace
  rw [place_fuseRoot]
  exact hmove

/-- The files but that of the node that is moved are as before. -/
theorem files_moved_of_ne {c : NodeId} {k k' x : CStr} {ics : Icalcomponent} {p q : NodeId}
    (hk : k' ≠ k) :
    (v.moved cfg c k x ics p q).files (appendPath cfg.vdir k') =
      v.files (appendPath cfg.vdir k') := by
  have hrenamed : (v.renamed cfg c k x ics).files (appendPath cfg.vdir k') =
      v.files (appendPath cfg.vdir k') := by
    unfold World.renamed World.extended World.titled
    split
    · rw [files_wrote_of_ne hk]
    · rw [files_wrote_of_ne hk, files_wrote_of_ne hk]
  unfold World.moved
  simp only
  split
  · rw [files_wrote_of_ne hk]
    exact hrenamed
  · exact hrenamed

/-- What a rename is meant to do to paths, tree, index and files. -/
structure SubtreeMoved (cfg : Config Text) (w : World Text) (old new : List CStr)
    (w' : World Text) : Prop where
  paths : w'.store.namespace = Links.moveSubtree w.store.namespace old new
  gone : ∀ n e, w.store.namespace new = some n → w.store.entry n = some e →
    ¬ w'.store.Live n ∧ w'.store.entriesVdir.get e.filenameVdir = none ∧
      w'.files (appendPath cfg.vdir e.filenameVdir) = none

section Cleared

variable {old dir : List CStr} {name : CStr} {c p : NodeId}

/-- With the target out of the way nothing but the relation stops the rest of a rename. -/
theorem TargetCleared.moves {new : List CStr} (hv : TargetCleared cfg w new v)
    (hold : ProperSegments old) (hproper : ProperSegments new) (hne : old ≠ [] ∧ new ≠ [])
    (hlen : old.length ≤ 255 ∧ new.length ≤ 255) (hc : v.store.namespace old = some c)
    (hunrelates : v.Unrelates cfg (normalPath old) (normalPath new)) :
    v.Moves cfg (normalPath old) (normalPath new) := by
  have hinv := hv.sound.toInv
  obtain ⟨ys, x, rfl⟩ := (List.eq_nil_or_concat' old).resolve_left hne.1
  obtain ⟨dir, name, rfl⟩ := (List.eq_nil_or_concat' new).resolve_left hne.2
  obtain ⟨e, he⟩ := exists_entry_of_namespace hinv hc
  obtain ⟨q, _, hq, _⟩ := hinv.wf.of_resolve_append hc
  obtain ⟨parent, hparent, _⟩ := getParentPath_normalPath hproper
  refine ⟨hv.parses.opens, ?_, ?_, ⟨c, (lookup_normalPath _ hold).trans hc, ?_, ?_⟩, hunrelates⟩
  · rw [splitPath_normalPath hold, splitPath_normalPath hproper]
    exact hlen
  · rw [hparent]
    exact nofun
  · rw [component_of_entry he, ← Option.isSome_iff_ne_none]
    exact (hv.parses c e he).2
  · rw [hq]
    exact nofun

/-- What the rest of a rename has done when it returns. -/
theorem TargetCleared.moved (hv : TargetCleared cfg w (dir ++ [name]) v)
    (hold : ProperSegments old) (hnew : ProperSegments (dir ++ [name]))
    (hc : v.store.namespace old = some c) (hp : v.store.namespace dir = some p)
    (hbelow : ¬ old <+: dir ++ [name]) {status : Int}
    (hrenamed : AgendaRenamed cfg v (normalPath old) (normalPath (dir ++ [name])) status w') :
    status = 0 ∧ SubtreeMoved cfg w old (dir ++ [name]) w' := by
  have hinv := hv.sound.toInv
  obtain ⟨parent, hparent, hsplit⟩ := getParentPath_normalPath hnew
  have hfound : v.store.lookup parent = some p := by
    rw [Store.lookup, hsplit]
    exact hp
  have hfree : v.store.namespace (dir ++ [name]) = none := by
    rw [hv.namespace_eq, Function.update_self]
  -- The file of the new parent parses, so the node goes there and not below the root.
  have hnamed : v.newParent cfg p = p := newParent_eq fun hroot => by
    obtain ⟨e, he⟩ := hinv.entry_of_live p (live_of_namespace hinv hp) hroot
    rw [component_of_entry he]
    exact (hv.parses p e he).2
  have hu' := hrenamed.uniqueNames hv.sound hv.unique fun parent' p' hparent' hp' => by
    cases hparent.symm.trans hparent'
    cases hfound.symm.trans hp'
    refine ⟨hnamed, not_mem_childNames hparent hfound ?_⟩
    rw [lookup_normalPath _ hnew]
    exact hfree
  cases hrenamed with
  | noParent hparent' hp' =>
    cases hparent.symm.trans hparent'
    cases hfound.symm.trans hp'
  | @moved _ p' c' q e ics hparent' hp' hc' he hics hq =>
    cases hparent.symm.trans hparent'
    cases hfound.symm.trans hp'
    cases ((lookup_normalPath v.store hold).trans hc).symm.trans hc'
    rw [getFilename_normalPath hnew] at hu' ⊢
    rw [moved_store, hnamed] at hu'
    refine ⟨rfl, ?_, fun n e' hn he' => ?_⟩
    · rw [moved_store, hnamed,
        namespace_moved hinv hv.unique hu' he hc hp (fun hpre => hbelow ?_) hfree,
        hv.namespace_eq, Links.moveSubtree_update _ hbelow]
      exact hpre.trans (List.prefix_append _ _)
    · obtain ⟨hlive, hindex, hfile⟩ := hv.gone n e' hn he'
      rw [moved_store, place_live, place_entriesVdir]
      refine ⟨hlive, hindex, ?_⟩
      rw [files_moved_of_ne, hfile]
      -- The file of the moved note is in the index, the other is not.
      intro hk
      rw [hk, (hinv.index _ _).2 ⟨e, he, rfl⟩] at hindex
      cases hindex

/-- With the target out of the way the rest of a rename moves the subtree, unless the relation
    stops it. -/
theorem TargetCleared.moves_iff (h : w.store.Sound) (hv : TargetCleared cfg w (dir ++ [name]) v)
    (hold : ProperSegments old) (hnew : ProperSegments (dir ++ [name])) (hne : old ≠ [])
    (hlen : old.length ≤ 255 ∧ (dir ++ [name]).length ≤ 255)
    (hexists : w.store.namespace old ≠ none) (hdir : w.store.namespace dir ≠ none)
    (hbelow : ¬ old <+: dir ++ [name])
    (htarget : ∀ n, w.store.namespace (dir ++ [name]) = some n → w.store.links.children n = []) :
    (∃ w', doAgendaRename cfg (normalPath old) (normalPath (dir ++ [name])) v = .ok (0, w') ∧
      SubtreeMoved cfg w old (dir ++ [name]) w') ↔ ¬ w.RelatedToUnnamed cfg old := by
  have hneq : old ≠ dir ++ [name] := fun heq => hbelow (heq ▸ List.prefix_rfl)
  rw [← hv.relatedToUnnamed_iff h hneq htarget, ← unrelates_iff hold (normalPath (dir ++ [name]))]
  constructor
  · rintro ⟨w', hrun, _⟩
    exact ((wp_doAgendaRename hv.sound.toInv fun _ _ hvis => hvis).ok hrun).2 rfl
  · intro hunrelates
    obtain ⟨c, hc⟩ := Option.ne_none_iff_exists'.1 hexists
    obtain ⟨p, hp⟩ := Option.ne_none_iff_exists'.1 hdir
    have hvc : v.store.namespace old = some c := by
      rw [hv.namespace_eq, Function.update_of_ne hneq, hc]
    have hvp : v.store.namespace dir = some p := by
      rw [hv.namespace_eq, Function.update_of_ne (by simp), hp]
    have hmoves := hv.moves hold hnew ⟨hne, List.concat_ne_nil name dir⟩ hlen hvc hunrelates
    obtain ⟨status, w', hrun, hrenamed, _⟩ := (wp_doAgendaRename (E := fun _ => False)
      hv.sound.toInv (fun hstop => absurd hmoves hstop)).returns
    obtain ⟨rfl, hmoved⟩ := hv.moved hold hnew hvc hvp hbelow hrenamed
    exact ⟨w', hrun, hmoved⟩

end Cleared

/-- A rename moves the subtree, or says that the target is not empty. -/
def RenamesSubtree (cfg : Config Text) (w : World Text) (old new : List CStr) : Prop :=
  ((∃ n, w.store.namespace new = some n ∧ w.store.links.children n ≠ []) →
    fuseRename cfg (normalPath old) (normalPath new) 0 w = .ok (-ENOTEMPTY, w)) ∧
  ((¬ ∃ n, w.store.namespace new = some n ∧ w.store.links.children n ≠ []) →
    ∃ w', fuseRename cfg (normalPath old) (normalPath new) 0 w = .ok (0, w') ∧
      SubtreeMoved cfg w old new w')

/-- A rename moves the subtree exactly if the target is not empty, so that it is turned down, or
    the relation of the note can be compared with a UID of the old parent. -/
theorem rename_moves_subtree_iff (h : Reachable cfg w) (hu : w.store.UniqueNames)
    (hparses : w.Parses cfg) (hcalls : w.CallsSucceed) {old dir : List CStr} {name : CStr}
    (hold : ProperSegments old) (hnew : ProperSegments (dir ++ [name])) (hne : old ≠ [])
    (hlen : old.length ≤ 255 ∧ (dir ++ [name]).length ≤ 255)
    (hexists : w.store.namespace old ≠ none) (hdir : w.store.namespace dir ≠ none)
    (hbelow : ¬ old <+: dir ++ [name]) :
    RenamesSubtree cfg w old (dir ++ [name]) ↔
      (∃ n, w.store.namespace (dir ++ [name]) = some n ∧ w.store.links.children n ≠ []) ∨
        ¬ w.RelatedToUnnamed cfg old := by
  have hsound := h.sound
  have hlen' : (splitPath (normalPath (dir ++ [name]))).length ≤ 255 := by
    rw [splitPath_normalPath hnew]
    exact hlen.2
  have hfound := lookup_normalPath w.store hnew
  unfold RenamesSubtree
  by_cases hfull : ∃ n, w.store.namespace (dir ++ [name]) = some n ∧
      w.store.links.children n ≠ []
  · refine iff_of_true ⟨fun _ => ?_, fun hempty => absurd hfull hempty⟩ (.inl hfull)
    obtain ⟨n, hn, hchildren⟩ := hfull
    exact fuseRename_notEmpty hsound.toInv hlen' (hfound.trans hn) hchildren
  · have htarget : ∀ n, w.store.namespace (dir ++ [name]) = some n →
        w.store.links.children n = [] := fun n hn => by
      by_contra hchildren
      exact hfull ⟨n, hn, hchildren⟩
    rw [or_iff_right hfull, and_iff_right fun hx => absurd hx hfull, forall_prop_of_true hfull]
    cases hn : w.store.namespace (dir ++ [name]) with
    | none =>
      rw [fuseRename_free hsound.toInv hlen' (hfound.trans hn)]
      exact (targetCleared_free hsound hu hparses hn).moves_iff hsound hold hnew hne hlen hexists
        hdir hbelow htarget
    | some n =>
      obtain ⟨e, he⟩ := exists_entry_of_namespace hsound.toInv hn
      rw [fuseRename_replaces hsound.toInv hlen' (hfound.trans hn) he (htarget n hn)
        (hparses.removeSucceeds hcalls.removed he)]
      exact (targetCleared_removed hsound hu hparses hn he (htarget n hn)).moves_iff hsound hold
        hnew hne hlen hexists hdir hbelow htarget

/-- A note that is moved out of its directory is found in the root only. -/
example : (exec sampleConfig (.rename (bytes "/Dir/Note.txt") (bytes "/Note.txt") 0)).check
    (sampleMount nestedNote {}) (fun status w => decide (status = 0 ∧
      w.store.namespace [bytes "Note.txt"] = some 2 ∧
      w.store.namespace [bytes "Dir", bytes "Note.txt"] = none)) = true := by decide +kernel

theorem rename_moves_subtree_iff_nestedNote :
    RenamesSubtree sampleConfig (sampleMount nestedNote {}) [bytes "Dir", bytes "Note.txt"]
      [bytes "Note.txt"] := by
  have hproper : ProperSegments [bytes "Dir", bytes "Note.txt"] := by
    unfold ProperSegments
    decide
  have hnew : ProperSegments ([] ++ [bytes "Note.txt"]) := by
    unfold ProperSegments
    decide
  have hparses : (sampleMount nestedNote {}).Parses sampleConfig :=
    parses_of_check reachable_nestedNote.sound.toInv (by decide +kernel)
  refine (rename_moves_subtree_iff reachable_nestedNote
    (run_nestedNote (G := parsingRuns _) trivial).uniqueNames hparses ⟨rfl, rfl⟩ hproper hnew
    (by decide) (by decide) (by decide +kernel) (by decide +kernel) (by decide)).2 (.inr ?_)
  -- The directory has a UID.
  rintro ⟨c, q, ics, pic, hc, _, hq, hpic, huid, _⟩
  have hnote : (sampleMount nestedNote {}).store.namespace [bytes "Dir", bytes "Note.txt"] = some 2 :=
    by decide +kernel
  cases hnote.symm.trans hc
  have hdir : (sampleMount nestedNote {}).store.links.parent 2 = some 1 := by decide +kernel
  cases hdir.symm.trans hq
  have hnamed : ((sampleMount nestedNote {}).component sampleConfig 1).all (·.getUid.isSome) = true :=
    by decide +kernel
  rw [hpic, Option.all_some, huid] at hnamed
  exact nomatch hnamed

/-- A directory whose file has no UID, and a note in it. -/
def unnamedParent : List (CStr × Icalcomponent) :=
  [(bytes "d.ics", newCalendar ⟨.vjournal,
      [{ kind := .summary, value := bytes "Dir" }, sampleDirectory], []⟩),
    (bytes "n.ics", sampleNote (bytes "n") (bytes "Note") [sampleParent (bytes "d")])]

/-- Moving a note out of a directory whose file has no UID stops at a NULL pointer. -/
theorem not_all_renames_move_subtrees :
    ¬ ∀ (w : World Icalcomponent) (old dir : List CStr) (name : CStr), Reachable sampleConfig w →
      w.store.UniqueNames → (∀ n e, w.store.entry n = some e → e.filename ≠ [] ∧ slash ∉ e.filename) →
      w.Parses sampleConfig → w.CallsSucceed → ProperSegments old → ProperSegments (dir ++ [name]) →
      old ≠ [] → old.length ≤ 255 → (dir ++ [name]).length ≤ 255 → w.store.namespace old ≠ none →
      w.store.namespace dir ≠ none → ¬ old <+: dir ++ [name] →
        RenamesSubtree sampleConfig w old (dir ++ [name]) := by
  intro hall
  have hrun : ∀ G : Guard Icalcomponent,
      G.load (sampleStart unnamedParent) (sampleListing unnamedParent) →
        Run sampleConfig G (sampleMount unnamedParent {}) := fun G hG =>
    run_sampleMount {} (by decide) (by decide) hG (by decide +kernel)
  have hreach : Reachable sampleConfig (sampleMount unnamedParent {}) := hrun _ trivial
  have hnames : ∀ n e, (sampleMount unnamedParent {}).store.entry n = some e →
      e.filename ≠ [] ∧ slash ∉ e.filename := fun n e he =>
    of_decide_eq_true (forall_entry_of_check (P := fun e =>
      decide (e.filename ≠ [] ∧ slash ∉ e.filename)) hreach.sound.toInv (by decide +kernel) he)
  have hmoves := (hall (sampleMount unnamedParent {}) [bytes "Dir", bytes "Note.txt"] []
    (bytes "Note.txt") hreach (hrun (parsingRuns _) trivial).uniqueNames hnames
    (parses_of_check hreach.sound.toInv (by decide +kernel)) ⟨rfl, rfl⟩
    (by unfold ProperSegments; decide) (by unfold ProperSegments; decide) (by decide) (by decide)
    (by decide) (by decide +kernel) (by decide +kernel) (by decide)).2
  have hfree : (sampleMount unnamedParent {}).store.namespace [bytes "Note.txt"] = none := by
    decide +kernel
  obtain ⟨w', hrename, _⟩ := hmoves fun ⟨n, hn, _⟩ => nomatch hfree.symm.trans hn
  have hstops : (fuseRename sampleConfig (normalPath [bytes "Dir", bytes "Note.txt"])
      (normalPath [bytes "Note.txt"]) 0).check (sampleMount unnamedParent {}) (fun _ _ => true) =
        false := by decide +kernel
  rw [List.nil_append] at hrename
  rw [Prog.check_run hrename] at hstops
  cases hstops

end Agendafs
