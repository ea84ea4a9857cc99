import Agendafs.Spec.Runs

/-!
# Siblings have different names

Moves by `move_fuse_node` and `add_fuse_child` number the name when it is taken.
Creating and renaming do not: there the name is free because the kernel's path
did not resolve, or because the note it resolved to has just been removed.

## Key results

- `not_mem_childNames`: a path that does not resolve names a free name
- `Effect.uniqueNames`: a call keeps the names of siblings different
- `siblings_have_different_names`: so they are different along every run
-/

namespace Agendafs

open Store

variable {Text : Type} {cfg : Config Text} {w w' : World Text}

/-! ## Paths and names -/

/-- A path with a last name is looked up among the children of its parent. -/
theorem lookup_child {s : Store} {path parentPath : CStr} {p : NodeId}
    (hparent : getParentPath path = some parentPath) (hp : s.lookup parentPath = some p)
    (hname : getFilename path ≠ []) :
    s.lookup path = (s.links.children p).find? (s.name · = getFilename path) := by
  unfold Store.lookup at hp ⊢
  rw [splitPath_eq_parent hparent, if_neg hname, Links.resolve_append, hp, Option.bind_some,
    Links.resolve_singleton]

/-- A path that does not resolve, below one that does, ends in a name. -/
theorem getFilename_ne_nil {s : Store} {path parentPath : CStr} {p : NodeId}
    (hparent : getParentPath path = some parentPath) (hp : s.lookup parentPath = some p)
    (hl : s.lookup path = none) : getFilename path ≠ [] := by
  intro hname
  unfold Store.lookup at hp hl
  rw [splitPath_eq_parent hparent, if_pos hname, List.append_nil, hp] at hl
  exact nomatch hl

/-- The last name of a path that does not resolve is free in the parent. -/
theorem not_mem_childNames {s : Store} {path parentPath : CStr} {p : NodeId}
    (hparent : getParentPath path = some parentPath) (hp : s.lookup parentPath = some p)
    (hl : s.lookup path = none) : getFilename path ∉ s.childNames p := by
  rw [lookup_child hparent hp (getFilename_ne_nil hparent hp hl), List.find?_eq_none] at hl
  unfold childNames
  rw [List.mem_map]
  rintro ⟨n, hn, hname⟩
  exact hl n hn (by simpa using hname)

/-- When the node a path resolves to is removed, its name becomes free. -/
theorem not_mem_childNames_delete {s : Store} (h : s.Inv) (hu : s.UniqueNames)
    {path parentPath k : CStr} {p n : NodeId} (hparent : getParentPath path = some parentPath)
    (hp : s.lookup parentPath = some p) (hname : getFilename path ≠ [])
    (hl : s.lookup path = some n) (hc : s.links.children n = []) :
    getFilename path ∉ (s.delete n k).childNames p := by
  rw [lookup_child hparent hp hname] at hl
  have hn := List.mem_of_find?_eq_some hl
  have hnname : s.name n = getFilename path := by simpa using List.find?_some hl
  unfold childNames
  rw [h.links_delete hc, h.wf.detach_children, List.mem_map]
  rintro ⟨m, hm, hmname⟩
  have hmn := (h.wf.nodup p).mem_erase_iff.1 hm
  have hmname' : s.name m = getFilename path := by
    rw [name, Inv.delete_entry, if_neg hmn.1] at hmname
    exact hmname
  -- Both are children of `p` with this name.
  exact hmn.1 (List.inj_on_of_nodup_map (hu p) hmn.2 hn (hmname'.trans hnname.symm))

/-! ## A removed note and the others -/

/-- Removing a note with its file leaves the component of every other node. -/
theorem component_removed (h : w.store.Inv) {n m : NodeId} {e : AgendaEntry}
    (he : w.store.entry n = some e) (hmn : m ≠ n) :
    (w.removed cfg n e.filenameVdir).component cfg m = w.component cfg m := by
  have hentry : (w.removed cfg n e.filenameVdir).store.entry m = w.store.entry m :=
    (Inv.delete_entry ..).trans (if_neg hmn)
  cases hm : w.store.entry m with
  | none =>
    unfold World.component
    rw [hentry, hm]
    rfl
  | some e' =>
    have hne : appendPath cfg.vdir e'.filenameVdir ≠ appendPath cfg.vdir e.filenameVdir := by
      intro hk
      -- The index has one node for a file.
      have hm' := (h.index e.filenameVdir m).2 ⟨e', hm, appendPath_inj.1 hk⟩
      rw [(h.index e.filenameVdir n).2 ⟨e, he, rfl⟩, Option.some.injEq] at hm'
      exact hmn hm'.symm
    rw [component_of_entry (hentry.trans hm), component_of_entry hm]
    unfold World.fileComponent
    have hfiles : (w.removed cfg n e.filenameVdir).files (appendPath cfg.vdir e'.filenameVdir) =
        w.files (appendPath cfg.vdir e'.filenameVdir) := if_neg hne
    rw [hfiles]

/-- A path that resolves to another node than the removed one still does. -/
theorem lookup_removed {s : Store} (h : s.Inv) {n m : NodeId} (hc : s.links.children n = [])
    {path k : CStr} (hm : s.lookup path = some m) (hmn : m ≠ n) :
    (s.delete n k).lookup path = some m := by
  unfold Store.lookup at hm ⊢
  have hnames : ∀ p, ∀ c ∈ (s.links.detach n).children p, (s.delete n k).name c = s.name c := by
    intro p c hcm
    rw [h.wf.detach_children] at hcm
    have hcn := ((h.wf.nodup p).mem_erase_iff.1 hcm).1
    rw [name, name, Inv.delete_entry, if_neg hcn]
  rw [h.links_delete hc, Inv.delete_fuseRoot, Links.resolve_congr hnames]
  exact h.wf.resolve_detach hc hm hmn

/-- The parent of the node at a path that has a last name. -/
theorem lookup_parent {s : Store} (h : s.Inv) {path parentPath : CStr} {n : NodeId}
    (hparent : getParentPath path = some parentPath) (hname : getFilename path ≠ [])
    (hn : s.lookup path = some n) :
    ∃ p, s.lookup parentPath = some p ∧ s.links.parent n = some p := by
  unfold Store.lookup at hn ⊢
  rw [splitPath_eq_parent hparent, if_neg hname] at hn
  obtain ⟨p, hp, hpar, _⟩ := h.wf.of_resolve_append hn
  exact ⟨p, hp, hpar⟩

/-- The parent of a removed node is found as before. -/
theorem lookup_parent_removed {s : Store} (h : s.Inv) {path parentPath k : CStr} {n : NodeId}
    (hparent : getParentPath path = some parentPath) (hname : getFilename path ≠ [])
    (hn : s.lookup path = some n) (hc : s.links.children n = []) :
    ∃ p, s.lookup parentPath = some p ∧ (s.delete n k).lookup parentPath = some p ∧ p ≠ n := by
  obtain ⟨p, hp, hpar⟩ := lookup_parent h hparent hname hn
  have hne : p ≠ n := by
    rintro rfl
    rw [← h.wf.mem_children, hc] at hpar
    exact nomatch hpar
  exact ⟨p, hp, lookup_removed h hc hp hne, hne⟩

/-! ## Calls keep the names different -/

/-- The file of the directory a rename moves to parses when it is read. Of the files
    that calls read, it is the only one that matters for the names. -/
def World.TargetParses (cfg : Config Text) (w : World Text) : Op → Prop
  | .rename _ new _ => ∀ parentPath p, getParentPath new = some parentPath →
      w.store.lookup parentPath = some p → p ≠ w.store.fuseRoot → (w.component cfg p).isSome = true
  | _ => True

theorem Created.uniqueNames {path : CStr} {etype : EntryType} {status : Int}
    (h : w.store.Sound) (hu : w.store.UniqueNames) (hfresh : w.FreshUuid cfg)
    (hc : Created cfg w path etype status w') : w'.store.UniqueNames := by
  have hcreate : (w.store.create (w.newEntry path)).UniqueNames := hu.create h.toInv
  cases hc with
  | rejected => exact hu
  | noParent => exact hcreate
  | notDirectory => exact hcreate
  | @created parentPath p hr hparent hp _ =>
    have hl : w.store.lookup path = none := by
      cases hl : w.store.lookup path with
      | none => rfl
      | some n => exact absurd (.inr (.inl (by rw [hl]; rfl))) hr
    have hinv : (w.store.create (w.newEntry path)).Inv := h.toInv.create hfresh.not_indexed
    have hplive := h.live_of_lookup hp
    -- The path did not resolve, so no child of the parent has the name.
    have hfree : getFilename path ∉ (w.store.create (w.newEntry path)).childNames p := by
      have hname : ∀ n ∈ w.store.links.children p,
          (w.store.create (w.newEntry path)).name n = w.store.name n := fun n hn => by
        have hne : n ≠ w.store.nextId := fun hn' => h.not_live_nextId (hn' ▸ h.live_child hn)
        rw [name, name, create_entry, if_neg hne]
      have hfree := not_mem_childNames hparent hp hl
      unfold childNames at hfree ⊢
      rw [h.links_create, List.map_congr_left hname]
      exact hfree
    rw [created_store h.toInv]
    refine (hcreate.detach hinv.wf _).place hinv ((create_live ..).2 (.inr hplive))
      ((create_entry ..).trans (if_pos rfl)) fun hm => hfree ?_
    rw [detach_childNames hinv.wf] at hm
    exact (List.erase_sublist.map _).subset hm

theorem Removed.uniqueNames {path : CStr} {status : Int} (h : w.store.Sound)
    (hu : w.store.UniqueNames) (hc : Removed cfg w path status w') : w'.store.UniqueNames := by
  cases hc with
  | rejected => exact hu
  | failed => exact hu
  | removed _ _ hchildren => exact hu.delete h.toInv hchildren _

/-- A rename whose new name is free, to a directory whose file parses. -/
theorem AgendaRenamed.uniqueNames {old new : CStr} {status : Int} (h : w.store.Sound)
    (hu : w.store.UniqueNames)
    (hfree : ∀ parentPath p, getParentPath new = some parentPath →
      w.store.lookup parentPath = some p →
        w.newParent cfg p = p ∧ getFilename new ∉ w.store.childNames p)
    (hc : AgendaRenamed cfg w old new status w') : w'.store.UniqueNames := by
  cases hc with
  | noParent => exact hu
  | @moved _ p c q e ics hnew hp _ he _ _ =>
    obtain ⟨hparent, hname⟩ := hfree _ p hnew hp
    rw [moved_store, hparent]
    refine (hu.detach h.wf c).place h.toInv (h.live_of_lookup hp) he fun hm => hname ?_
    rw [detach_childNames h.wf] at hm
    exact (List.erase_sublist.map _).subset hm

theorem newParent_eq {p : NodeId}
    (h : p ≠ w.store.fuseRoot → (w.component cfg p).isSome = true) : w.newParent cfg p = p := by
  unfold World.newParent
  by_cases hp : p = w.store.fuseRoot
  · rw [hp]
    split <;> rfl
  · rw [if_pos (h hp)]

theorem Renamed.uniqueNames {old new : CStr} {flags : Nat} {status : Int} (h : w.store.Sound)
    (hu : w.store.UniqueNames) (hv : (Op.rename old new flags).Valid cfg w)
    (hparses : w.TargetParses cfg (.rename old new flags))
    (hc : Renamed cfg w old new status w') : w'.store.UniqueNames := by
  cases hc with
  | notEmpty => exact hu
  | removeFailed => exact hu
  | @replaced n e _ _ hn he hchildren _ hr =>
    refine hr.uniqueNames (h.delete he hchildren) (hu.delete h.toInv hchildren _) ?_
    -- The note that had the name is gone, and its parent is where it was.
    intro parentPath p hparent hp
    obtain ⟨p', hp', hp'removed, hpn⟩ := lookup_parent_removed (k := e.filenameVdir) h.toInv
      hparent hv.2.2 hn hchildren
    have hpp : p = p' := Option.some.inj (hp.symm.trans hp'removed)
    subst hpp
    refine ⟨newParent_eq fun hroot => ?_, ?_⟩
    · rw [component_removed h.toInv he hpn]
      refine hparses parentPath p hparent hp' fun hr => hroot (hr.trans ?_)
      exact (Inv.delete_fuseRoot ..).symm
    · exact not_mem_childNames_delete h.toInv hu hparent hp' hv.2.2 hn hchildren
  | fresh hn hr =>
    refine hr.uniqueNames h hu fun parentPath p hparent hp => ?_
    exact ⟨newParent_eq (hparses parentPath p hparent hp), not_mem_childNames hparent hp hn⟩

theorem Handled.uniqueNames {k : CStr} (h : w.store.Sound) (hu : w.store.UniqueNames)
    (hc : Handled cfg w k w') : w'.store.UniqueNames := by
  cases hc with
  | unchanged => exact hu
  | updated _ _ hp =>
    rw [updated_store]
    exact (hu.upsert_detach h.toInv).place h.toInv.upsert (h.toInv.upsert.live_of_target hp)
      (upsert_entry h.toInv) (freshName_not_mem _ _)

/-- A call keeps the names of siblings different. -/
theorem Effect.uniqueNames {o : Op} {status : Int} (h : w.store.Sound)
    (hu : w.store.UniqueNames) (hv : o.Valid cfg w) (hparses : w.TargetParses cfg o)
    (hc : Effect cfg w o status w') : w'.store.UniqueNames := by
  cases o with
  | create filepath => exact Created.uniqueNames h hu hv hc
  | mkdir filepath => exact Created.uniqueNames h hu hv hc
  | write path buf size offset => rw [Edited.store hc]; exact hu
  | setxattr path attrib value s flags => rw [Edited.store hc]; exact hu
  | removexattr path attrib => rw [Edited.store hc]; exact hu
  | unlink file => exact Removed.uniqueNames h hu hc
  | rmdir filepath => exact Removed.uniqueNames h hu hc
  | rename old new flags => exact Renamed.uniqueNames h hu hv hparses hc
  | event event => exact Handled.uniqueNames h hu hc.1

/-- The runs in which the files that are read parse. -/
def parsingRuns (cfg : Config Text) : Guard Text := ⟨fun _ _ => True, fun w o => w.TargetParses cfg o⟩

theorem Run.uniqueNames (h : Run cfg (parsingRuns cfg) w) : w.store.UniqueNames := by
  induction h with
  | load hstart hlisting _ hrun => exact ((wp_loadRootNodeTree_sound hstart hlisting).ok hrun).2
  | external files env _ ih => exact ih
  | call h hv hG hrun ih => exact (exec_effect h.sound hv hrun).uniqueNames h.sound ih hv hG

/-- Siblings have different names in every state of a run in which the files that are
    read parse, whatever the titles of the notes in VDIR are. -/
theorem siblings_have_different_names (h : Run cfg (parsingRuns cfg) w) (p c c' : NodeId)
    (hc : c ∈ w.store.links.children p) (hc' : c' ∈ w.store.links.children p) (hne : c ≠ c') :
    w.store.name c ≠ w.store.name c' := fun hname =>
  hne (List.inj_on_of_nodup_map (h.uniqueNames p) hc hc' hname)

/-- Two notes with the same title. -/
def equalTitles : List (CStr × Icalcomponent) :=
  [(bytes "a.ics", sampleNote (bytes "a") (bytes "Title") []),
    (bytes "b.ics", sampleNote (bytes "b") (bytes "Title") [])]

/-- The note that comes later in the hash map is numbered. -/
example : (sampleMount equalTitles {}).store.name 1 = bytes "Title.1.txt" ∧
    (sampleMount equalTitles {}).store.name 2 = bytes "Title.txt" := by decide +kernel

theorem siblings_have_different_names_equalTitles :
    (sampleMount equalTitles {}).store.name 1 ≠ (sampleMount equalTitles {}).store.name 2 := by
  have h : Run sampleConfig (parsingRuns sampleConfig) (sampleMount equalTitles {}) :=
    run_sampleMount {} (by decide) (by decide) trivial (by decide +kernel)
  exact siblings_have_different_names h 0 1 2 (by decide +kernel) (by decide +kernel) (by decide)

end Agendafs
