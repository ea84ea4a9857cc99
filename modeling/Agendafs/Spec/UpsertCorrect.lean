import Agendafs.Spec.EditedNames
import Agendafs.Spec.EventQueue

/-!
# The effect of an upsert

What `update_or_create_fuse_entry_from_vdir` does to a file that holds a note:
its node stands below the parent that the file names, under the first free
number of its name, and everything else stays where it is. The event may come
again, as it does after every file creation; the second time the tree is the
same and at most the time of writing of one file is new.

## Key results

- `updated_updated`: placing a note again changes nothing
- `unstamped_markedAgain`: marking a file again changes nothing but its time of writing
- `upsert_effect_and_idempotence`: the parent of a note that arrives becomes a directory, and a
  second event changes at most a time of writing
-/

namespace Agendafs

open Icalcomponent Store

variable {Text : Type} {cfg : Config Text} {w v u : World Text}

/-! ## The tree -/

section Tree

variable {s s' : Store} {e : AgendaEntry} {p n : NodeId}

/-- A store is known by its links, its notes and its live nodes. -/
theorem store_ext (hparent : s'.links.parent = s.links.parent)
    (hchildren : s'.links.children = s.links.children) (hentry : ∀ n, s'.entry n = s.entry n)
    (hlive : ∀ n, s'.Live n ↔ s.Live n) (hnext : s'.nextId = s.nextId)
    (hroot : s'.fuseRoot = s.fuseRoot) (hindex : s'.entriesVdir = s.entriesVdir) : s' = s := by
  have hheap : s'.heap = s.heap := by
    funext m
    cases hm : s.heap m with
    -- The same nodes are live.
    | none =>
      have hdead : ¬ s'.Live m := fun hl => by
        have hl := (hlive m).1 hl
        rw [Store.Live, hm] at hl
        cases hl
      rw [Store.Live, Bool.not_eq_true, Option.isSome_eq_false_iff, Option.isNone_iff_eq_none]
        at hdead
      exact hdead
    -- A live node is its entry, its parent and its children.
    | some t =>
      obtain ⟨t', ht'⟩ := exists_heap ((hlive m).2 (by rw [Store.Live, hm]; rfl))
      have hd := hentry m
      have hp := congrFun hparent m
      have hc := congrFun hchildren m
      rw [entry_eq ht', entry_eq hm] at hd
      rw [links_parent_eq ht', links_parent_eq hm] at hp
      rw [links_children_eq ht', links_children_eq hm] at hc
      rw [ht']
      cases t
      cases t'
      simp only at hd hp hc
      rw [hd, hp, hc]
  cases s
  cases s'
  simp only at hheap hnext hroot hindex
  rw [hheap, hnext, hroot, hindex]

/-- A note that is the last child of its parent is placed there again under its name. -/
theorem place_self (h : s.Inv) (he : s.entry n = some e) (hp : s.links.parent n = some p)
    {older : List NodeId} (hlast : s.links.children p = older ++ [n]) :
    s.place p n e.filename = s := by
  have hlinks := place_links (x := e.filename) h.wf (h.live_parent hp) (live_of_entry he)
  refine store_ext ?_ ?_ (fun m => ?_) (fun m => place_live) ?_ place_fuseRoot place_entriesVdir
  · rw [place_parent h.wf (h.live_parent hp) (live_of_entry he), ← hp, Function.update_eq_self]
  -- The node is taken from the end of the children of `p` and put back there.
  · funext q
    rw [hlinks, h.wf.move_children]
    split
    · rename_i hq
      have hnodup := h.wf.nodup p
      rw [hlast] at hnodup
      have hnot : n ∉ older := fun hm =>
        (List.nodup_append.1 hnodup).2.2 n hm n (List.mem_singleton_self n) rfl
      rw [hq, hlast, List.erase_append_right _ hnot, List.erase_cons_head, List.append_nil]
    · rename_i hq
      refine List.erase_of_not_mem fun hm => hq ?_
      have hparent := h.wf.mem_children.1 hm
      exact Option.some.inj (hparent.symm.trans hp)
  · rw [place_entry]
    split
    · rename_i hm
      rw [hm, he]
      rfl
    · rfl
  · unfold Store.place
    rw [attach_nextId]
    exact detach_nextId s n

theorem updated_inv (h : s.Inv) (hp : (s.upsert e).2.Live p) : (s.updated e p).Inv :=
  h.upsert.place hp (upsert_entry h)

theorem updated_children (h : s.Inv) (hp : (s.upsert e).2.Live p) (q : NodeId) :
    (s.updated e p).links.children q =
      if q = p then (s.links.children p).erase (s.upsert e).1 ++ [(s.upsert e).1]
      else (s.links.children q).erase (s.upsert e).1 := by
  have hlinks := place_links (x := (s.upsert e).2.placedName p (s.upsert e).1) h.upsert.wf hp
    (live_of_entry (upsert_entry h))
  unfold Store.updated
  rw [hlinks, h.upsert.wf.move_children, h.upsert_links]

/-- The order of the other children does not change. -/
theorem updated_children_erase (h : s.Inv) (hp : (s.upsert e).2.Live p) (q : NodeId) :
    ((s.updated e p).links.children q).erase (s.upsert e).1 =
      (s.links.children q).erase (s.upsert e).1 := by
  have hnot : (s.upsert e).1 ∉ (s.links.children q).erase (s.upsert e).1 :=
    (h.wf.nodup q).not_mem_erase
  rw [updated_children h hp]
  split
  · rename_i hq
    rw [hq] at hnot
    rw [hq, List.erase_append_right _ hnot, List.erase_cons_head, List.append_nil]
  · exact List.erase_of_not_mem hnot

/-- The names of the children of a node but for one, which may be elsewhere. -/
def Store.otherNames (s : Store) (p n : NodeId) : List CStr :=
  ((s.links.children p).erase n).map s.name

/-- The name is the first that no other child has, before and afterwards. -/
theorem updated_name_eq (h : s.Inv) (hp : (s.upsert e).2.Live p) :
    (s.updated e p).name (s.upsert e).1 =
      freshName e.filename ((s.updated e p).otherNames p (s.upsert e).1) := by
  have hsame : (s.updated e p).otherNames p (s.upsert e).1 =
      ((s.upsert e).2.detach (s.upsert e).1).childNames p := by
    unfold Store.otherNames
    rw [detach_childNames h.upsert.wf, updated_children_erase h hp, h.upsert_links]
    refine List.map_congr_left fun m hm => ?_
    have hne : m ≠ (s.upsert e).1 := fun heq => (h.wf.nodup p).not_mem_erase (heq ▸ hm)
    unfold Store.updated
    rw [place_name (upsert_entry h), Function.update_of_ne hne]
  rw [hsame]
  unfold Store.updated Store.placedName
  rw [place_name (upsert_entry h), Function.update_self, name_of_entry (upsert_entry h)]

theorem updated_entry_of_ne (h : n ≠ (s.upsert e).1) : (s.updated e p).entry n = s.entry n := by
  unfold Store.updated
  rw [place_entry, if_neg h, upsert_entry_of_ne h]

/-- Placing the note of a file again changes nothing. -/
theorem updated_updated (h : s.Inv) (hp : (s.upsert e).2.Live p) :
    (s.updated e p).updated e p = s.updated e p := by
  have hinv := updated_inv h hp
  have hget : (s.updated e p).entriesVdir.get e.filenameVdir = some (s.upsert e).1 := by
    rw [updated_get, if_pos rfl]
  have hparent : (s.updated e p).links.parent (s.upsert e).1 = some p := by
    rw [updated_parent h hp, Function.update_self]
  have hlast := updated_children h hp p
  rw [if_pos rfl] at hlast
  obtain ⟨e', he', _⟩ := (hinv.index _ _).1 hget
  rw [updated_of_indexed hinv hget, detach_childNames hinv.wf]
  have hname := updated_name_eq h hp
  unfold Store.otherNames at hname
  rw [← hname, name_of_entry he']
  -- The first event has left the node last, under the name that the second one finds.
  exact place_self hinv he' hparent hlast

end Tree

/-! ## The files -/

/-- The file has at most one directory flag where the flag is looked for. -/
def OneFlag (c : Icalcomponent) : Prop :=
  ((icalcomponentGetInnermost c).properties.filter (isXProp isDirectoryProperty)).length ≤ 1

instance (c : Icalcomponent) : Decidable (OneFlag c) := inferInstanceAs (Decidable (_ ≤ _))

/-- The directory flag that `icalcomponent_mark_as_directory` sets. -/
def directoryFlag : Icalproperty :=
  { kind := .x, xName := isDirectoryProperty, value := bytes "YES" }

section Mark

variable {c : Icalcomponent}

theorem markAsDirectory_of_flat (hc : c.components = []) :
    icalcomponentMarkAsDirectory c =
      { c with properties := c.properties.eraseP (isXProp isDirectoryProperty) ++ [directoryFlag] } := by
  unfold icalcomponentMarkAsDirectory icalcomponentSetUniqueXValue icalcomponentRemoveXProp
    modifyInnermost
  rw [if_pos hc]
  exact if_pos hc

theorem markedComponent_kinds (now : CStr) (c : Icalcomponent) :
    (markedComponent now c).kinds = c.kinds := by
  have hstamp := keeps_stamp (onlyKind_isXProp isDirectoryProperty) (by decide) now
  have hmark : Keeps (fun _ => false) icalcomponentMarkAsDirectory :=
    keeps_markAsDirectory fun _ _ => rfl
  unfold markedComponent
  rw [reread_kinds, hstamp.kinds, hmark.kinds]

theorem components_eq_nil_iff : c.components = [] ↔ c.kinds = [] := List.map_eq_nil_iff.symm

/-- A mark turns the calendar of a note with one flag into a directory. -/
theorem isDirectoryComponent_marked (hL : cfg.ical.Lawful) (hparsed : c.parsed = true)
    (hone : OneFlag c) (hc : c.components ≠ []) (now : CStr) :
    isDirectoryComponent cfg.ical (markedComponent now c) = true := by
  have hkinds : c.kinds ≠ [] := fun h => hc (components_eq_nil_iff.2 h)
  obtain ⟨a, ha⟩ : ∃ a, c.getFirstAnyComponent = some a := by
    cases hhead : c.getFirstAnyComponent with
    | none => exact absurd (List.head?_eq_none_iff.1 hhead) hc
    | some a => exact ⟨a, rfl⟩
  unfold OneFlag icalcomponentGetInnermost at hone
  rw [ha, Option.getD_some] at hone
  have htail : (a.properties.filter (isXProp isDirectoryProperty)).tail = [] :=
    List.eq_nil_of_length_eq_zero (by rw [List.length_tail]; omega)
  rw [isDirectoryComponent_eq, Bool.or_eq_true, icalcomponentGetUniqXValue_eq,
    flags_marked hparsed hkinds, view_any, ha, Option.map_some, Option.map_some, htail]
  -- With one flag at most, the new YES is the one that is read.
  refine .inr (decide_eq_true ?_)
  exact congrArg some (hL.valueAsString_plain _ (by decide))

/-- Marking a marked file again changes nothing but its time of writing. A file that is still no
    directory after a mark has no subcomponent, and its flag is found in the calendar. -/
theorem unstamped_markedAgain (hL : cfg.ical.Lawful) (hparsed : c.parsed = true)
    (hone : OneFlag c) {now : CStr}
    (hnot : isDirectoryComponent cfg.ical (markedComponent now c) = false) :
    unstamped (icalcomponentMarkAsDirectory (markedComponent now c)) =
      unstamped (markedComponent now c) := by
  have hc : c.components = [] := by
    by_contra hc
    exact Bool.false_ne_true (hnot.symm.trans (isDirectoryComponent_marked hL hparsed hone hc now))
  have hc' : (markedComponent now c).components = [] := by
    rw [components_eq_nil_iff, markedComponent_kinds, ← components_eq_nil_iff, hc]
  unfold OneFlag icalcomponentGetInnermost getFirstAnyComponent at hone
  rw [hc, List.head?_nil, Option.getD_none] at hone
  -- No flag is left beside the one that the mark has set.
  have hrest : ∀ p ∈ c.properties.eraseP (isXProp isDirectoryProperty),
      ¬ isXProp isDirectoryProperty p = true := fun p hp hflag => by
    have hmem : p ∈ (c.properties.eraseP (isXProp isDirectoryProperty)).filter
        (isXProp isDirectoryProperty) := List.mem_filter.2 ⟨hp, hflag⟩
    rw [filter_eraseP] at hmem
    have hlength := List.length_pos_of_mem hmem
    rw [List.length_tail] at hlength
    omega
  have hmarked : unstamped (markedComponent now c) = unstamped (icalcomponentMarkAsDirectory c) :=
    unstamped_restamped (parsed_markAsDirectory hparsed) now
  have hproperties : (markedComponent now c).properties.filter (·.kind ≠ .lastModified) =
      (c.properties.eraseP (isXProp isDirectoryProperty)).filter (·.kind ≠ .lastModified) ++
        [directoryFlag] := by
    have h := congrArg Icalcomponent.properties hmarked
    rw [markAsDirectory_of_flat hc] at h
    exact h.trans (List.filter_append ..)
  have hflag : ∀ p, (isXProp isDirectoryProperty p && decide (p.kind ≠ .lastModified)) =
      isXProp isDirectoryProperty p := fun p => by
    cases hp : isXProp isDirectoryProperty p with
    | false => rfl
    | true =>
      have hkind := onlyKind_isXProp _ p hp
      rw [Bool.true_and, hkind]
      rfl
  have hagain : (markedComponent now c).properties.filter (·.kind ≠ .lastModified) =
      ((markedComponent now c).properties.eraseP (isXProp isDirectoryProperty) ++
        [directoryFlag]).filter (·.kind ≠ .lastModified) := by
    have herase := List.eraseP_filter (p := isXProp isDirectoryProperty)
      (f := fun p => decide (p.kind ≠ .lastModified)) (l := (markedComponent now c).properties)
    simp only [hflag] at herase
    have hlast : [directoryFlag].eraseP (isXProp isDirectoryProperty) = [] := by decide
    rw [List.filter_append, ← herase, hproperties,
      List.eraseP_append_right _ fun p hp => hrest p (List.mem_of_mem_filter hp), hlast,
      List.append_nil]
    rfl
  unfold unstamped
  rw [markAsDirectory_of_flat hc', hagain]

end Mark

/-- The two contents of a file differ at most in the time of writing. -/
def SameButStamps (cfg : Config Text) (file file' : Option (File Text)) : Prop :=
  file' = file ∨ ∃ t t' readable c c', file = some ⟨t, readable⟩ ∧ file' = some ⟨t', readable⟩ ∧
    cfg.ical.newFromString t = some c ∧ cfg.ical.newFromString t' = some c' ∧
    unstamped c' = unstamped c

/-- The state when the clock and the coming system calls are others. -/
def World.withEnv (w : World Text) (env : Environment Text) : World Text := { w with env := env }

theorem markedFile_of_component {p : NodeId} {e : AgendaEntry} {pic : Icalcomponent}
    (he : w.store.entry p = some e) (hpic : w.fileComponent cfg e.filenameVdir = some pic)
    (hnot : isDirectoryComponent cfg.ical pic = false) :
    w.markedFile cfg p = some e.filenameVdir := by
  have hc : w.component cfg p = some pic := (component_of_entry he).trans hpic
  unfold World.markedFile
  rw [he, hc]
  exact if_neg (by rw [hnot]; exact Bool.false_ne_true)

/-- Marking a parent again leaves every file but for a time of writing. -/
theorem marked_marked (hL : cfg.ical.Lawful) (ho : w.outcome = .written) {p : NodeId}
    (hone : ∀ c, w.component cfg p = some c → OneFlag c) {env : Environment Text}
    (henv : ((w.marked cfg p).withEnv env).outcome = .written) (f : CStr) :
    SameButStamps cfg ((w.marked cfg p).files f)
      ((((w.marked cfg p).withEnv env).marked cfg p).files f) := by
  cases hm : ((w.marked cfg p).withEnv env).markedFile cfg p with
  | none =>
    rw [marked_of_markedFile_none hm]
    exact .inl rfl
  | some k =>
    obtain ⟨e, pic, he, rfl, hpic, hnot, hmarked⟩ := marked_of_markedFile hm
    have he' : w.store.entry p = some e := by
      have hstore : (w.marked cfg p).store = w.store := marked_store p
      rw [← hstore]
      exact he
    have hread : (w.marked cfg p).fileComponent cfg e.filenameVdir = some pic := hpic
    -- The file has been marked the first time too.
    have hfirst : ∃ c, w.fileComponent cfg e.filenameVdir = some c ∧
        markedComponent w.now c = pic := by
      rw [fileComponent_marked hL ho] at hread
      by_cases hk : w.markedFile cfg p = some e.filenameVdir
      · rw [if_pos hk] at hread
        exact Option.map_eq_some_iff.1 hread
      · rw [if_neg hk] at hread
        exact absurd (markedFile_of_component he' hread hnot) hk
    obtain ⟨c, hc, rfl⟩ := hfirst
    have hparsed := parsed_of_fileComponent hL hc
    have hparsed' := parsed_of_fileComponent hL hpic
    have hflag := hone c ((component_of_entry he').trans hc)
    obtain ⟨⟨t, readable⟩, hfile, ht⟩ := Option.bind_eq_some_iff.1 hpic
    rw [hmarked]
    unfold World.wrote
    rw [henv]
    by_cases hf : f = appendPath cfg.vdir e.filenameVdir
    · have hprintable := printable_stamp ((w.marked cfg p).withEnv env).now _
        (printable_markAsDirectory _ (printable_of_parsed hparsed'))
      refine .inr ⟨t, _, readable, _, _, hf ▸ hfile, ?_, ht,
        hL.newFromString_asIcalString _ hprintable, ?_⟩
      · simp only [writtenFiles, if_pos hf, hfile, Option.all_some]
      · rw [unstamped_restamped (parsed_markAsDirectory hparsed')]
        exact unstamped_markedAgain hL hparsed hflag hnot
    · refine .inl ?_
      simp only [writtenFiles, if_neg hf]
      rfl

/-! ## The upsert -/

/-- The file `k` was that of no directory, and has gained the directory flag and nothing else but a
    new time of writing. -/
def World.GainsFlag (cfg : Config Text) (w w' : World Text) (k : CStr) : Prop :=
  ∃ c c', w.fileComponent cfg k = some c ∧ isDirectoryComponent cfg.ical c = false ∧
    w'.fileComponent cfg k = some c' ∧
    directoryFlag ∈ (icalcomponentGetInnermost c').properties ∧
    unstamped c' = unstamped (icalcomponentMarkAsDirectory c)

/-- What handling the event of a file does: the node `n` of the file stands for the entry `e` below
    `p`, and nothing else has changed but the file of `p`, which gains the directory flag when it is
    that of no directory. -/
structure Upserted (cfg : Config Text) (w : World Text) (e : AgendaEntry) (p n : NodeId)
    (w' : World Text) : Prop where
  /-- The node is the one the file had, or a new one. -/
  node : w.store.entriesVdir.get e.filenameVdir = some n ∨
    w.store.entriesVdir.get e.filenameVdir = none ∧ ¬ w.store.Live n
  index : ∀ k, w'.store.entriesVdir.get k =
    if k = e.filenameVdir then some n else w.store.entriesVdir.get k
  parent : w'.store.links.parent = Function.update w.store.links.parent n (some p)
  name : ∃ i, w'.store.name n = numbered e.filename i ∧
    w'.store.name n ∉ w'.store.otherNames p n ∧
      ∀ j < i, numbered e.filename j ∈ w'.store.otherNames p n
  others : ∀ m, m ≠ n → w'.store.entry m = w.store.entry m
  order : ∀ q, (w'.store.links.children q).erase n = (w.store.links.children q).erase n
  files : ∀ f, w'.files f = w.files f ∨ ∃ ep, w'.store.entry p = some ep ∧
    f = appendPath cfg.vdir ep.filenameVdir ∧ w.GainsFlag cfg w' ep.filenameVdir
  marks : ∀ ep c, w'.store.entry p = some ep → w.fileComponent cfg ep.filenameVdir = some c →
    isDirectoryComponent cfg.ical c = false → w.GainsFlag cfg w' ep.filenameVdir

theorem innermost_modifyInnermost {f : Icalcomponent → Icalcomponent}
    (hf : ∀ c, (f c).components = c.components) (c : Icalcomponent) :
    icalcomponentGetInnermost (modifyInnermost f c) = f (icalcomponentGetInnermost c) := by
  obtain ⟨kind, properties, components⟩ := c
  unfold modifyInnermost icalcomponentGetInnermost getFirstAnyComponent
  cases components with
  | nil => rw [if_pos rfl, hf, List.head?_nil, Option.getD_none, Option.getD_none]
  | cons a as => rfl

/-- A property other than the time of writing is where it was. -/
theorem mem_innermost_unstamped {x : Icalproperty} (hx : x.kind ≠ .lastModified)
    (c : Icalcomponent) : x ∈ (icalcomponentGetInnermost (unstamped c)).properties ↔
      x ∈ (icalcomponentGetInnermost c).properties := by
  obtain ⟨kind, properties, components⟩ := c
  unfold unstamped icalcomponentGetInnermost getFirstAnyComponent
  cases components with
  | nil => exact List.mem_filter.trans (and_iff_left (decide_eq_true hx))
  | cons a as => rfl

/-- The flag is in the file of a parent that has been marked. -/
theorem directoryFlag_mem {c c' : Icalcomponent}
    (h : unstamped c' = unstamped (icalcomponentMarkAsDirectory c)) :
    directoryFlag ∈ (icalcomponentGetInnermost c').properties := by
  have hx : directoryFlag.kind ≠ .lastModified := by decide
  rw [← mem_innermost_unstamped hx, h, mem_innermost_unstamped hx]
  change directoryFlag ∈ (icalcomponentGetInnermost (modifyInnermost (addProperty directoryFlag)
    (icalcomponentRemoveXProp c isDirectoryProperty))).properties
  rw [innermost_modifyInnermost (f := addProperty directoryFlag) fun _ => rfl]
  exact List.mem_append_right _ (List.mem_singleton_self _)

theorem updated_of_same {e : AgendaEntry} {p : NodeId} (h : w.store.updated e p = w.store) :
    w.updated cfg e p = w.marked cfg p := by
  unfold World.updated
  rw [h]

/-- The file that marking `p` writes gains the flag. -/
theorem gainsFlag_updated (hL : cfg.ical.Lawful) (ho : w.outcome = .written) {e : AgendaEntry}
    {p : NodeId} {k : CStr} {c : Icalcomponent} (hc : w.fileComponent cfg k = some c)
    (hnot : isDirectoryComponent cfg.ical c = false)
    (hm : World.markedFile cfg { w with store := w.store.updated e p } p = some k) :
    w.GainsFlag cfg (w.updated cfg e p) k := by
  have hread := fileComponent_marked (w := { w with store := w.store.updated e p }) hL ho p k
  have hc' : World.fileComponent cfg { w with store := w.store.updated e p } k = some c := hc
  rw [if_pos hm, hc', Option.map_some] at hread
  have hsame := unstamped_restamped (parsed_markAsDirectory (parsed_of_fileComponent hL hc)) w.now
  exact ⟨c, _, hc, hnot, hread, directoryFlag_mem hsame, hsame⟩

theorem upserted_updated (hL : cfg.ical.Lawful) (h : w.store.Inv) (ho : w.outcome = .written)
    {e : AgendaEntry} {p : NodeId} (hp : (w.store.upsert e).2.Live p) :
    Upserted cfg w e p (w.store.upsert e).1 (w.updated cfg e p) where
  node := by
    cases hget : w.store.entriesVdir.get e.filenameVdir with
    | some n =>
      rw [upsert_of_some hget]
      exact .inl rfl
    | none =>
      rw [upsert_of_none hget]
      exact .inr ⟨rfl, h.not_live_nextId⟩
  index k := by rw [updated_store, updated_get]
  parent := by rw [updated_store, updated_parent h hp]
  name := by
    rw [updated_store]
    exact freshName_eq_iff.1 (updated_name_eq h hp).symm
  others m hm := by rw [updated_store, updated_entry_of_ne hm]
  order q := by rw [updated_store, updated_children_erase h hp]
  files f := by
    cases hm : World.markedFile cfg { w with store := w.store.updated e p } p with
    | none =>
      unfold World.updated
      rw [marked_of_markedFile_none hm]
      exact .inl rfl
    | some k =>
      obtain ⟨ep, pic, hep, rfl, hpic, hnot, hmarked⟩ := marked_of_markedFile hm
      have ho' : World.outcome { w with store := w.store.updated e p } = .written := ho
      -- The file of the parent is the only one that is written.
      by_cases hf : f = appendPath cfg.vdir ep.filenameVdir
      · refine .inr ⟨ep, ?_, hf, gainsFlag_updated hL ho hpic hnot hm⟩
        rw [updated_store]
        exact hep
      · refine .inl ?_
        unfold World.updated
        rw [hmarked]
        unfold World.wrote
        rw [ho']
        exact if_neg hf
  marks ep c hep hc hnot := by
    rw [updated_store] at hep
    exact gainsFlag_updated hL ho hc hnot
      (markedFile_of_component (w := { w with store := w.store.updated e p }) hep hc hnot)

/-- Handling the event of a file that holds a note, whose parent UID is absent or in the index,
    puts its node below that parent under the first free number of its name and leaves the rest;
    handling it again, with the file as it was, changes at most a time of writing. -/
theorem upsert_effect_and_idempotence (hL : cfg.ical.Lawful) (h : Reachable cfg w)
    (hparses : w.Parses cfg) (ho : w.outcome = .written) {k : CStr} (hflat : slash ∉ k)
    (hr : w.Readable cfg k) {c : Icalcomponent} (hc : w.fileComponent cfg k = some c)
    (hnote : IsNote c) {summary : CStr} (hsummary : c.getSummary = some summary) {p : NodeId}
    (hp : w.store.target (getParentUid cfg.ical c) = some p) :
    ∃ n w', updateOrCreateFuseEntryFromVdir cfg (appendPath cfg.vdir k) w = .ok (0, w') ∧
      Upserted cfg w ⟨shownFilename cfg c summary, k⟩ p n w' ∧
      ((∀ k c, w.fileComponent cfg k = some c → OneFlag c) →
        ∀ env : Environment Text, (w'.withEnv env).outcome = .written →
          w'.files (appendPath cfg.vdir k) = w.files (appendPath cfg.vdir k) →
          ∃ w'', updateOrCreateFuseEntryFromVdir cfg (appendPath cfg.vdir k) (w'.withEnv env) =
              .ok (0, w'') ∧ w''.store = w'.store ∧
            ∀ f, SameButStamps cfg (w'.files f) (w''.files f)) := by
  have hinv := h.sound.toInv
  have he : w.loadable cfg k = some ⟨shownFilename cfg c summary, k⟩ := by
    unfold World.loadable
    rw [hc, Option.bind_some, agendaEntryOf_eq, if_pos hnote, hsummary, Option.map_some,
      getFilename_appendPath cfg.vdir hflat]
  have huid : w.parentUid cfg k = getParentUid cfg.ical c := by
    unfold World.parentUid
    rw [hc, Option.bind_some]
  rw [← huid] at hp
  generalize (⟨shownFilename cfg c summary, k⟩ : AgendaEntry) = e at he
  have hk := filenameVdir_of_loadable hflat he
  have hbelow := hparses.handlesBelow hinv ho hr he hk hp
  have hlive := hinv.upsert.live_of_target hbelow.target
  refine ⟨(w.store.upsert e).1, w.updated cfg e p,
    updateOrCreateFuseEntryFromVdir_run hinv hflat hr he hbelow,
    upserted_updated hL hinv ho hlive, fun hone env henv hfile => ?_⟩
  -- The second event finds the same note, the same parent and the same tree.
  have hstore : ((w.updated cfg e p).withEnv env).store = w.store.updated e p := updated_store e p
  have hinv' : ((w.updated cfg e p).withEnv env).store.Inv := by
    rw [hstore]
    exact updated_inv hinv hlive
  have hplaced : World.Parses cfg { w with store := w.store.updated e p } :=
    (hparses.upserted hinv hr he hk).placed _ _
  have ho' : World.outcome { w with store := w.store.updated e p } = .written := ho
  have hparses' : ((w.updated cfg e p).withEnv env).Parses cfg := hplaced.marked hL ho' p
  have hr' : ((w.updated cfg e p).withEnv env).Readable cfg k := by
    obtain ⟨f, hf, hreadable⟩ := hr
    exact ⟨f, hfile.trans hf, hreadable⟩
  obtain ⟨he', huid'⟩ : ((w.updated cfg e p).withEnv env).loadable cfg k = w.loadable cfg k ∧
      ((w.updated cfg e p).withEnv env).parentUid cfg k = w.parentUid cfg k :=
    loadable_of_files hfile
  have hp' : ((w.updated cfg e p).withEnv env).store.target
      (((w.updated cfg e p).withEnv env).parentUid cfg k) = some p := by
    rw [huid', hstore, updated_target]
    exact hbelow.target
  have hbelow' := hparses'.handlesBelow hinv' henv hr' (he'.trans he) hk hp'
  refine ⟨_, updateOrCreateFuseEntryFromVdir_run hinv' hflat hr' (he'.trans he) hbelow', ?_, ?_⟩
  · rw [updated_store, hstore, updated_updated hinv hlive, updated_store]
  · rw [updated_of_same (w := (w.updated cfg e p).withEnv env)
      (by rw [hstore, updated_updated hinv hlive])]
    refine marked_marked hL ho' (fun c' hc' => ?_) henv
    obtain ⟨ep, _, hep⟩ := Option.bind_eq_some_iff.1 hc'
    exact hone ep.filenameVdir c' hep

/-- The flags of sample files can be tested on the list of the files. -/
theorem oneFlag_of_check {w : World Icalcomponent} {files : List (CStr × Icalcomponent)}
    (hfiles : w.files = sampleFiles files)
    (hcheck : ∀ p ∈ files, (structuralIcal.newFromString p.2).all (OneFlag ·) = true) (k : CStr)
    (c : Icalcomponent) (hc : w.fileComponent sampleConfig k = some c) : OneFlag c := by
  unfold World.fileComponent at hc
  rw [hfiles] at hc
  obtain ⟨f, hf, hparse⟩ := Option.bind_eq_some_iff.1 hc
  obtain ⟨p, hp, rfl⟩ := Option.map_eq_some_iff.1 hf
  have hall := hcheck p (List.mem_of_find?_eq_some hp)
  rw [show structuralIcal.newFromString p.2 = some c from hparse] at hall
  exact of_decide_eq_true hall

/-- Two notes, the second below the first, which is no directory yet. -/
def arrivedFiles : List (CStr × Icalcomponent) :=
  [(bytes "d.ics", sampleNote (bytes "d") (bytes "Dir") []),
    (bytes "n.ics", sampleNote (bytes "n") (bytes "Note") [sampleParent (bytes "d")])]

/-- A mount of the first note, after the file of the second has arrived. -/
def arrivedNote : World Icalcomponent :=
  { sampleMount (arrivedFiles.take 1) {} with files := sampleFiles arrivedFiles }

/-- The first event turns the parent into a directory; the second changes no file but for a time
    of writing. -/
theorem upsert_effect_and_idempotence_arrivedNote :
    ∃ n w', updateOrCreateFuseEntryFromVdir sampleConfig
        (appendPath sampleConfig.vdir (bytes "n.ics")) arrivedNote = .ok (0, w') ∧
      Upserted sampleConfig arrivedNote ⟨bytes "Note.txt", bytes "n.ics"⟩ 1 n w' ∧
      arrivedNote.GainsFlag sampleConfig w' (bytes "d.ics") ∧
      ∃ w'', updateOrCreateFuseEntryFromVdir sampleConfig
          (appendPath sampleConfig.vdir (bytes "n.ics")) (w'.withEnv {}) = .ok (0, w'') ∧
        w''.store = w'.store ∧ ∀ f, SameButStamps sampleConfig (w'.files f) (w''.files f) := by
  have hmount : Reachable sampleConfig (sampleMount (arrivedFiles.take 1) {}) :=
    run_sampleMount {} (by decide) (by decide) trivial (by decide +kernel)
  have hreach : Reachable sampleConfig arrivedNote :=
    .external (sampleFiles arrivedFiles) {} hmount
  have hflags : ∀ k c, arrivedNote.fileComponent sampleConfig k = some c → OneFlag c :=
    oneFlag_of_check rfl (by decide +kernel)
  obtain ⟨c, hc, hcheck⟩ := (Option.any_eq_true ..).1 (show (arrivedNote.fileComponent sampleConfig
    (bytes "n.ics")).any (fun c => decide (IsNote c ∧ c.getSummary = some (bytes "Note") ∧
      arrivedNote.store.target (getParentUid sampleConfig.ical c) = some 1 ∧
      shownFilename sampleConfig c (bytes "Note") = bytes "Note.txt")) = true by decide +kernel)
  obtain ⟨hnote, hsummary, hp, hshown⟩ := of_decide_eq_true hcheck
  obtain ⟨n, w', hrun, hupserted, hagain⟩ := upsert_effect_and_idempotence structuralIcal_lawful
    hreach (parses_of_check hreach.sound.toInv (by decide +kernel)) rfl (by decide)
    ((Option.any_eq_true ..).1 (by decide +kernel)) hc hnote hsummary hp
  rw [hshown] at hupserted
  -- The parent is another note than the one of the event.
  have hentry : w'.store.entry 1 = some ⟨bytes "Dir.txt", bytes "d.ics"⟩ := by
    have hnode : arrivedNote.store.entry 1 = some ⟨bytes "Dir.txt", bytes "d.ics"⟩ := by
      decide +kernel
    rw [hupserted.others 1 fun hn => ?_, hnode]
    have hnone : arrivedNote.store.entriesVdir.get (bytes "n.ics") = none := by decide +kernel
    rcases hupserted.node with hsome | ⟨_, hdead⟩
    · exact absurd (hnone.symm.trans hsome) (by simp)
    · exact hdead (hn ▸ live_of_entry hnode)
  have hgains : arrivedNote.GainsFlag sampleConfig w' (bytes "d.ics") := by
    obtain ⟨d, hd, hnot⟩ := (Option.any_eq_true ..).1 (show (arrivedNote.fileComponent sampleConfig
      (bytes "d.ics")).any (fun d => !isDirectoryComponent sampleConfig.ical d) = true by
        decide +kernel)
    exact hupserted.marks _ d hentry hd (Bool.not_eq_true' _ ▸ hnot)
  have hsame : w'.files (appendPath sampleConfig.vdir (bytes "n.ics")) =
      arrivedNote.files (appendPath sampleConfig.vdir (bytes "n.ics")) := by
    rcases hupserted.files (appendPath sampleConfig.vdir (bytes "n.ics")) with
      hfile | ⟨ep, hep, hfile, _⟩
    · exact hfile
    · rw [hentry] at hep
      cases hep
      exact absurd (appendPath_inj.1 hfile) (by decide)
  obtain ⟨w'', hrun', hstore, hstamps⟩ := hagain hflags {} rfl hsame
  exact ⟨n, w', hrun, hupserted, hgains, w'', hrun', hstore, hstamps⟩

end Agendafs
