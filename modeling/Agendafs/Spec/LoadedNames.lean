import Agendafs.ForStd.Naming
import Agendafs.Spec.EventOrder
import Agendafs.Spec.EventQueue
import Agendafs.Spec.LoadRelation
import Agendafs.Spec.Namespace

/-!
# The names the load gives

The first loop takes the name of each note from its file. The second hangs the
notes in the order of the hash table and numbers a name that a sibling has; while
it runs it marks parents as directories, after which their files stand for other
names than those they have been given. So the tree is the one that `World.layout`
describes, and the files are those of a tree whose names may differ.

## Key results

- `shownAfter_marked`: a mark brings a file one step closer to the name of a directory
- `LaidOut.attached`: what one round of the second loop keeps
- `wp_load_laidOut`: what the load gives and leaves
- `LoadedAs.fileAt`: the map from paths to files
-/

namespace Agendafs

open Icalcomponent Store

variable {Text : Type} {cfg : Config Text} {w u u' v : World Text}

/-! ## The name of a file after marks -/

/-- The name that the file of a note stands for. -/
def World.shown (cfg : Config Text) (w : World Text) (filenameVdir : CStr) : CStr :=
  (w.loadable cfg filenameVdir).elim [] (·.filename)

/-- The name that the file stands for after so many children have been hung below its note:
    once it has been marked as a directory, the summary alone. -/
def World.shownAfter (cfg : Config Text) (w : World Text) (children : ℕ) (filenameVdir : CStr) :
    CStr :=
  if w.marksLeft cfg filenameVdir ≤ children then
    ((w.fileComponent cfg filenameVdir).bind (·.getSummary)).getD []
  else w.shown cfg filenameVdir

/-- A journal entry that relates to a child is a directory without any flag. -/
def relatesToChild (c : Icalcomponent) : Bool :=
  (c.view isJournal (hasReltype (bytes "CHILD"))).any (· ≠ [])

theorem marksUntil_eq_zero {isYes : Icalproperty → Bool} {flags : List Icalproperty} :
    marksUntil isYes flags = 0 ↔ ∃ p, flags.head? = some p ∧ isYes p = true := by
  unfold marksUntil
  cases flags with
  | nil => simp
  | cons p flags =>
    rw [if_neg (List.cons_ne_nil _ _), List.findIdx_cons]
    cases hp : isYes p with
    | true => simp [hp]
    | false => simp [hp]

section Note

variable {k : CStr} {c : Icalcomponent} {summary : CStr}

/-- The file is a note with this component and summary. -/
structure World.IsNoteFile (cfg : Config Text) (w : World Text) (k : CStr) (c : Icalcomponent)
    (summary : CStr) : Prop where
  file : w.fileComponent cfg k = some c
  note : IsNote c
  summary : c.getSummary = some summary

theorem exists_isNoteFile (h : (w.loadable cfg k).isSome = true) :
    ∃ c summary, w.IsNoteFile cfg k c summary := by
  obtain ⟨e, he⟩ := Option.isSome_iff_exists.1 h
  obtain ⟨c, summary, hc, hnote, hsummary⟩ := exists_note_of_loadable he
  exact ⟨c, summary, hc, hnote, hsummary⟩

theorem World.IsNoteFile.loadable (h : w.IsNoteFile cfg k c summary) :
    w.loadable cfg k =
      some ⟨shownFilename cfg c summary, getFilename (appendPath cfg.vdir k)⟩ := by
  rw [World.loadable, h.file, Option.bind_some, agendaEntryOf_eq, if_pos h.note, h.summary,
    Option.map_some]

/-- The note is read as a directory when it relates to a child or needs no mark. -/
theorem World.IsNoteFile.isDirectory (h : w.IsNoteFile cfg k c summary) :
    isDirectoryComponent cfg.ical c = true ↔
      relatesToChild c = true ∨ w.marksLeft cfg k = 0 := by
  obtain ⟨ps, hps⟩ := exists_view_of_isNote h.note (isXProp isDirectoryProperty)
  have hflags : w.flags cfg k = some ps := by
    rw [World.flags, h.file, Option.bind_some, hps]
  rw [isDirectoryComponent_eq, icalcomponentGetUniqXValue_eq, hps, World.marksLeft, hflags,
    h.loadable, Option.isSome_some, if_pos rfl, Option.elim_some, marksUntil_eq_zero,
    Bool.or_eq_true, Option.bind_some, decide_eq_true_eq, Option.map_eq_some_iff]
  exact or_congr_right (exists_congr fun p => and_congr_right fun _ => decide_eq_true_iff.symm)

/-- The name after some children in terms of what a mark does not change. -/
theorem World.IsNoteFile.shownAfter (h : w.IsNoteFile cfg k c summary) (children : ℕ) :
    w.shownAfter cfg children k =
      if relatesToChild c = true ∨ w.marksLeft cfg k ≤ children then summary
      else join summary (((storedExtension cfg c).map unsentinel).getD cfg.fileExtension) := by
  have hshown : w.shown cfg k = shownFilename cfg c summary := by
    rw [World.shown, h.loadable, Option.elim_some]
  rw [World.shownAfter, h.file, Option.bind_some, h.summary, Option.getD_some, hshown,
    shownFilename_eq]
  by_cases hleft : w.marksLeft cfg k ≤ children
  · rw [if_pos hleft, if_pos (.inr hleft)]
  · rw [if_neg hleft]
    by_cases hchild : relatesToChild c = true
    · rw [if_pos (h.isDirectory.2 (.inl hchild)), if_pos (.inl hchild)]
    · have hnot : ¬ isDirectoryComponent cfg.ical c = true := fun hd => by
        rcases h.isDirectory.1 hd with hd | hd
        · exact hchild hd
        · omega
      rw [if_neg hnot, if_neg (not_or.2 ⟨hchild, hleft⟩)]

end Note

theorem shownAfter_zero {k : CStr} (h : (w.loadable cfg k).isSome = true) :
    w.shownAfter cfg 0 k = w.shown cfg k := by
  obtain ⟨c, summary, hnote⟩ := exists_isNoteFile h
  rw [World.shown, hnote.loadable, Option.elim_some, hnote.shownAfter, shownFilename_eq]
  have hiff := hnote.isDirectory
  rw [← Nat.le_zero] at hiff
  by_cases hd : isDirectoryComponent cfg.ical c = true
  · rw [if_pos hd, if_pos (hiff.1 hd)]
  · rw [if_neg hd, if_neg fun h => hd (hiff.2 h)]

/-- A mark does not change the extension of the note, nor its relations to children. -/
theorem storedExtension_marked {c : Icalcomponent} (hc : c.parsed = true) (now : CStr) :
    storedExtension cfg (markedComponent now c) = storedExtension cfg c := by
  have hne : ∀ p, isXProp isDirectoryProperty p = true →
      isXProp fileExtensionProperty p = false := by
    intro p hp
    simp only [isXProp, decide_eq_true_eq, decide_eq_false_iff_not, not_and] at hp ⊢
    rw [hp.2]
    exact fun _ => by decide
  unfold storedExtension markedComponent
  rw [icalcomponentGetUniqXValue_eq, icalcomponentGetUniqXValue_eq,
    view_restamped (onlyKind_isXProp _) (by decide) (parsed_markAsDirectory hc),
    (keeps_markAsDirectory hne).view]

theorem relatesToChild_marked {c : Icalcomponent} (hc : c.parsed = true) (now : CStr) :
    relatesToChild (markedComponent now c) = relatesToChild c := by
  have honly := onlyKind_hasReltype (bytes "CHILD")
  unfold relatesToChild markedComponent
  rw [view_restamped honly (by decide) (parsed_markAsDirectory hc),
    (keeps_markAsDirectory fun p hp => honly.eq_false (by
      rw [onlyKind_isXProp _ p hp]; decide)).view]

/-- The mark for one more child brings the file of a note a step closer to the name of a
    directory. -/
theorem shownAfter_marked (hL : cfg.ical.Lawful) (ho : w.outcome = .written) {p : NodeId}
    {e : AgendaEntry} (he : w.store.entry p = some e)
    (hnote : (w.loadable cfg e.filenameVdir).isSome = true) (children : ℕ) :
    (w.marked cfg p).shownAfter cfg children e.filenameVdir =
      w.shownAfter cfg (children + 1) e.filenameVdir := by
  obtain ⟨c, summary, hc⟩ := exists_isNoteFile hnote
  cases hm : w.markedFile cfg p with
  | none =>
    -- A file that is not marked is that of a directory already.
    have hd : isDirectoryComponent cfg.ical c = true := by
      unfold World.markedFile at hm
      rw [he, component_of_entry he, hc.file] at hm
      by_contra hd
      simp [hd] at hm
    rw [marked_of_markedFile_none hm, hc.shownAfter, hc.shownAfter]
    rcases hc.isDirectory.1 hd with hchild | hzero
    · rw [if_pos (.inl hchild), if_pos (.inl hchild)]
    · rw [if_pos (.inr (by omega)), if_pos (.inr (by omega))]
  | some k =>
    obtain ⟨e', _, he', rfl, _⟩ := marked_of_markedFile hm
    cases he.symm.trans he'
    have hparsed := parsed_of_fileComponent hL hc.file
    have hmarked : (w.marked cfg p).IsNoteFile cfg e.filenameVdir (markedComponent w.now c)
        summary := by
      refine ⟨?_, (isNote_marked w.now).2 hc.note, (getSummary_marked hparsed w.now).trans hc.summary⟩
      rw [fileComponent_marked hL ho, if_pos hm, hc.file, Option.map_some]
    have hleft := marksLeft_marked hL ho hm hnote
    have hiff : (w.marked cfg p).marksLeft cfg e.filenameVdir ≤ children ↔
        w.marksLeft cfg e.filenameVdir ≤ children + 1 := by omega
    rw [hmarked.shownAfter, hc.shownAfter, relatesToChild_marked hparsed,
      storedExtension_marked hparsed]
    simp only [hiff]

/-- The other files stand for the same names. -/
theorem shownAfter_marked_of_ne (hL : cfg.ical.Lawful) (ho : w.outcome = .written) {p : NodeId}
    {k : CStr} (hk : w.markedFile cfg p ≠ some k) (children : ℕ) :
    (w.marked cfg p).shownAfter cfg children k = w.shownAfter cfg children k := by
  unfold World.shownAfter World.shown
  rw [marksLeft_marked_of_ne hL ho hk, fileComponent_marked hL ho, if_neg hk,
    (loadable_of_files (files_marked_of_ne hk)).1]

/-! ## Directories of the tree -/

section Directories

variable {s : Store} {D D' : Option CStr} {p n : NodeId} {e : AgendaEntry} {x : CStr}

/-- The node of a directory: that of a file, or the root. -/
def Store.dirNode (s : Store) : Option CStr → Option NodeId
  | none => some s.fuseRoot
  | some k => s.entriesVdir.get k

/-- The files of the children of a node, and the names they are shown under. -/
def Store.listed (s : Store) (p : NodeId) : List (CStr × CStr) :=
  (s.links.children p).map fun n => ((s.entry n).elim [] (·.filenameVdir), s.name n)

/-- What is in a directory. -/
def Store.directory (s : Store) (D : Option CStr) : List (CStr × CStr) :=
  (s.dirNode D).elim [] s.listed

/-- The map from paths to files. -/
def Store.fileAt (s : Store) (segments : List CStr) : Option CStr :=
  (s.namespace segments).bind fun n => (s.entry n).map (·.filenameVdir)

theorem target_eq_dirNode (s : Store) (parentUid : Option CStr) :
    s.target parentUid = s.dirNode (parentUid.map (· ++ bytes ".ics")) := by
  cases parentUid <;> rfl

theorem dirNode_congr {s' : Store} (hroot : s'.fuseRoot = s.fuseRoot)
    (hindex : s'.entriesVdir = s.entriesVdir) (D : Option CStr) : s'.dirNode D = s.dirNode D := by
  cases D with
  | none => exact congrArg some hroot
  | some k => exact congrArg (Hashmap.get · k) hindex

theorem file_of_dirNode (h : s.Inv) (hp : s.dirNode D = some p) :
    (s.entry p).map (·.filenameVdir) = D := by
  cases D with
  | none =>
    rw [← Option.some.inj hp, h.root_entry]
    rfl
  | some k =>
    obtain ⟨e, he, hk⟩ := (h.index k p).1 hp
    rw [he, Option.map_some, hk]

theorem dirNode_inj (h : s.Inv) (hp : s.dirNode D = some p) (hp' : s.dirNode D' = some p) :
    D = D' := (file_of_dirNode h hp).symm.trans (file_of_dirNode h hp')

theorem live_of_dirNode (h : s.Inv) (hp : s.dirNode D = some p) : s.Live p := by
  cases D with
  | none => exact Option.some.inj hp ▸ h.root_live
  | some k => exact h.live_of_index hp

theorem directory_of_dirNode (hp : s.dirNode D = some p) : s.directory D = s.listed p := by
  rw [Store.directory, hp, Option.elim_some]

/-- A node that hung nowhere is listed last where it is placed. -/
theorem listed_place (h : s.Inv) (hp : s.Live p) (he : s.entry n = some e)
    (hparent : s.links.parent n = none) (q : NodeId) :
    (s.place p n x).listed q =
      if q = p then s.listed p ++ [(e.filenameVdir, x)] else s.listed q := by
  have hmem : ∀ q, n ∉ s.links.children q := fun q hm => by
    rw [h.wf.mem_children, hparent] at hm
    exact nomatch hm
  have hsame : ∀ q, (s.links.children q).map (fun c =>
      (((s.place p n x).entry c).elim [] (·.filenameVdir), (s.place p n x).name c)) =
        s.listed q := by
    intro q
    refine List.map_congr_left fun c hc => ?_
    have hne : c ≠ n := fun hcn => hmem q (hcn ▸ hc)
    rw [place_entry, if_neg hne, place_name he, Function.update_of_ne hne]
  rw [Store.listed, place_links h.wf hp (live_of_entry he), h.wf.move_children,
    List.erase_of_not_mem (hmem p), List.erase_of_not_mem (hmem q)]
  split
  · rw [List.map_append, hsame, List.map_singleton, place_entry, if_pos rfl, he, Option.map_some,
      Option.elim_some, place_name he, Function.update_self]
  · exact hsame q

/-- Following names in the tree and in its directories. -/
theorem resolve_eq_find (h : s.Inv) (hp : s.dirNode D = some p) (segments : List CStr) :
    (s.links.resolve s.name p segments).map (fun n => (s.entry n).map (·.filenameVdir)) =
      find s.directory D segments := by
  induction segments generalizing D p with
  | nil => exact congrArg some (file_of_dirNode h hp)
  | cons x xs ih =>
    rw [find, directory_of_dirNode hp, Store.listed, List.find?_map, Links.resolve]
    change _ = (Option.map _ ((s.links.children p).find? fun n => decide (s.name n = x))).bind _
    cases hfind : (s.links.children p).find? fun n => decide (s.name n = x) with
    | none => rfl
    | some c =>
      have hc := List.mem_of_find?_eq_some hfind
      obtain ⟨e, he⟩ := h.entry_of_live c (h.live_child hc) (h.child_ne_root (h.wf.mem_children.1 hc))
      rw [Option.map_some, Option.bind_some, he, Option.elim_some]
      exact ih ((h.index _ c).2 ⟨e, he, rfl⟩)

theorem fileAt_eq_seen (h : s.Inv) (segments : List CStr) :
    s.fileAt segments = seen s.directory segments := by
  rw [seen, ← resolve_eq_find h (D := none) rfl, Store.fileAt, Store.namespace]
  cases s.links.resolve s.name s.fuseRoot segments <;> rfl

end Directories

/-! ## The second loop -/

theorem freshName_stable {title : CStr} {names names' : List CStr} (hsub : names ⊆ names')
    (h : freshName title names ∉ names') : freshName title names' = freshName title names := by
  obtain ⟨i, hi, _, hmin⟩ := freshName_eq_iff.1 (rfl : freshName title names = _)
  exact freshName_eq_iff.2 ⟨i, hi, h, fun j hj => hsub (hmin j hj)⟩

/-- `add_fuse_child` numbers the title of a file until no sibling is called so. -/
def titles (title : CStr → CStr) : Chooser CStr CStr where
  pick k names := freshName (title k) names
  fresh k names := freshName_not_mem (title k) names
  stable := freshName_stable

/-- Those of some files whose parent is this directory. -/
def World.inDirectory (cfg : Config Text) (w : World Text) (D : Option CStr) (ks : List CStr) :
    List CStr := ks.filter (w.parentFile cfg · = D)

theorem inDirectory_append (D : Option CStr) (pre : List CStr) (k : CStr) :
    w.inDirectory cfg D (pre ++ [k]) =
      w.inDirectory cfg D pre ++ if w.parentFile cfg k = D then [k] else [] := by
  unfold World.inDirectory
  rw [List.filter_append, List.filter_singleton]
  by_cases hD : w.parentFile cfg k = D
  · rw [decide_eq_true hD, if_pos hD, cond_true]
  · rw [decide_eq_false hD, if_neg hD, cond_false]

/-- What holds between two rounds of the second loop of the names in the tree and of the names
    the files stand for. -/
structure LaidOut (cfg : Config Text) (w : World Text) (listing : List Dirent)
    (pre : List CStr) (u : World Text) : Prop where
  waiting : ∀ k ∉ pre, ∀ n, u.store.entriesVdir.get k = some n →
    u.store.entry n = w.loadable cfg k
  listed : ∀ D p, u.store.dirNode D = some p →
    u.store.listed p = (titles (w.shown cfg)).assign [] (w.inDirectory cfg D pre)
  parentUid : ∀ k, u.parentUid cfg k = w.parentUid cfg k
  isNote : ∀ k, (u.loadable cfg k).isSome = (w.loadable cfg k).isSome
  shownAfter : ∀ k, w.Accepts cfg listing k → ∀ children, u.shownAfter cfg children k =
    w.shownAfter cfg (children + (w.inDirectory cfg (some k) pre).length) k
  readable : ∀ k, w.Readable cfg k → u.Readable cfg k
  absent : ∀ k, w.files (appendPath cfg.vdir k) = none → u.files (appendPath cfg.vdir k) = none
  writes : ∀ o ∈ u.env.writes, o = .written

/-- What has been accepted is still a note. -/
theorem LaidOut.isSome_loadable {w u : World Text} {listing : List Dirent} {pre : List CStr}
    {k : CStr} (h : LaidOut cfg w listing pre u) (hk : w.Accepts cfg listing k) :
    (u.loadable cfg k).isSome = true := by
  obtain ⟨_, _, _, _, _, hsome⟩ := hk
  rw [h.isNote, hsome]

section Round

variable {listing : List Dirent} {pre : List CStr} {k : CStr}

theorem LaidOut.target (h : LaidOut cfg w listing pre u) (k : CStr) :
    u.store.target (u.parentUid cfg k) = u.store.dirNode (w.parentFile cfg k) := by
  rw [target_eq_dirNode, h.parentUid, World.parentFile]

/-- A note without a place leaves everything as it is. -/
theorem LaidOut.orphan (h : LaidOut cfg w listing pre u)
    (hindex : ∀ k, (∃ n, u.store.entriesVdir.get k = some n) ↔ w.Accepts cfg listing k)
    (hp : u.store.dirNode (w.parentFile cfg k) = none) :
    LaidOut cfg w listing (pre ++ [k]) u := by
  have hsame : ∀ D p, u.store.dirNode D = some p →
      w.inDirectory cfg D (pre ++ [k]) = w.inDirectory cfg D pre := by
    intro D p hD
    have hne : w.parentFile cfg k ≠ D := by
      rintro rfl
      exact nomatch hp.symm.trans hD
    rw [inDirectory_append, if_neg hne, List.append_nil]
  refine { h with waiting := ?_, listed := ?_, shownAfter := ?_ }
  · exact fun k' hk' => h.waiting k' fun hm => hk' (List.mem_append_left _ hm)
  · intro D p hD
    rw [hsame D p hD]
    exact h.listed D p hD
  · intro k' hk'
    obtain ⟨n, hn⟩ := (hindex k').2 hk'
    rw [hsame (some k') n hn]
    exact h.shownAfter k' hk'

/-- A note that is hung below its parent is listed there, and the file of the parent marked. -/
theorem LaidOut.placed (hL : cfg.ical.Lawful) (hinv : LoadInv v pre u)
    (h : LaidOut cfg w listing pre u)
    (hindex : ∀ k, (∃ n, u.store.entriesVdir.get k = some n) ↔ w.Accepts cfg listing k)
    (hk : k ∉ pre) {n p : NodeId} (hn : u.store.entriesVdir.get k = some n)
    (hp : u.store.dirNode (w.parentFile cfg k) = some p) :
    LaidOut cfg w listing (pre ++ [k])
      { u.marked cfg p with store := u.store.place p n (u.store.placedName p n) } := by
  have hs := hinv.sound.toInv
  have ho := outcome_of_writes h.writes
  have hlive := live_of_dirNode hs hp
  obtain ⟨e, he, hek⟩ := (hs.index k n).1 hn
  have hparent := hinv.unattached k hk n hn
  have hdir : ∀ D, (u.store.place p n (u.store.placedName p n)).dirNode D = u.store.dirNode D :=
    dirNode_congr place_fuseRoot place_entriesVdir
  have hname : u.store.placedName p n =
      (titles (w.shown cfg)).pick k ((u.store.listed p).map Prod.snd) := by
    have hshown : e.filename = w.shown cfg k := by
      rw [World.shown, ← h.waiting k hk n hn, he, Option.elim_some]
    have hnames : (u.store.listed p).map Prod.snd = u.store.childNames p := List.map_map ..
    rw [Store.placedName, detach_of_none hparent, name_of_entry he, hshown, hnames]
    rfl
  refine ⟨fun k' hk' m hm => ?_, fun D q hq => ?_, fun k' => ?_, fun k' => ?_,
    fun k' hk' children => ?_, fun k' hk' => ?_, fun k' hk' => ?_, fun o hmem => ?_⟩
  · rw [List.mem_append, List.mem_singleton, not_or] at hk'
    rw [place_entriesVdir] at hm
    change (u.store.place p n _).entry m = _
    rw [place_entry, if_neg (hs.index_ne hk'.2 hn hm)]
    exact h.waiting k' hk'.1 m hm
  · rw [hdir] at hq
    change (u.store.place p n _).listed q = _
    rw [listed_place hs hlive he hparent, inDirectory_append]
    by_cases hD : w.parentFile cfg k = D
    · subst hD
      obtain rfl := Option.some.inj (hp.symm.trans hq)
      rw [if_pos rfl, if_pos rfl, Chooser.assign_append, ← h.listed _ _ hp, hname, hek,
        List.nil_append]
      rfl
    · have hqp : q ≠ p := by
        rintro rfl
        exact hD (dirNode_inj hs hp hq)
      rw [if_neg hqp, if_neg hD, List.append_nil]
      exact h.listed D q hq
  -- The files are as the mark leaves them.
  · rcases parentUid_marked (w := u) hL p k' with hu | ⟨_, hleft, _⟩
    · exact hu.trans (h.parentUid k')
    · cases ho.symm.trans hleft
  · exact (isSome_loadable_marked hL ho p k').trans (h.isNote k')
  · change (u.marked cfg p).shownAfter cfg children k' = _
    obtain ⟨m, hm⟩ := (hindex k').2 hk'
    rw [inDirectory_append]
    by_cases hD : w.parentFile cfg k = some k'
    · -- The parent is marked for one more child.
      rw [hD] at hp
      obtain rfl : m = p := Option.some.inj (hm.symm.trans hp)
      obtain ⟨e', he', rfl⟩ := (hs.index k' m).1 hm
      rw [if_pos hD, List.length_append, List.length_singleton,
        shownAfter_marked hL ho he' (h.isSome_loadable hk'), h.shownAfter _ hk']
      exact congrArg (w.shownAfter cfg · _) (by omega)
    · have hne : u.markedFile cfg p ≠ some k' := by
        intro hmarked
        obtain ⟨e', _, he', hk, _⟩ := marked_of_markedFile hmarked
        exact hD (dirNode_inj hs hp ((hs.index k' p).2 ⟨e', he', hk⟩))
      rw [if_neg hD, List.append_nil, shownAfter_marked_of_ne hL ho hne]
      exact h.shownAfter k' hk' children
  · exact readable_marked (h.readable k' hk') p
  · exact files_marked_of_none (h.absent k' hk') p
  · exact h.writes o (marked_env_writes p o hmem)

theorem LaidOut.attached (hL : cfg.ical.Lawful) (hinv : LoadInv v pre u)
    (h : LaidOut cfg w listing pre u)
    (hindex : ∀ k, (∃ n, u.store.entriesVdir.get k = some n) ↔ w.Accepts cfg listing k)
    (hk : k ∉ pre) (ha : Attached cfg u k u') : LaidOut cfg w listing (pre ++ [k]) u' := by
  cases ha with
  | orphan hn hp =>
    rw [h.target] at hp
    exact h.orphan hindex hp
  | placed hn hp =>
    rw [h.target] at hp
    exact h.placed hL hinv hindex hk hn hp

/-- Files of notes that can be opened parse. -/
theorem LaidOut.parses (h : LaidOut cfg w listing pre u) (hs : u.store.Inv)
    (hreadable : ¬ w.Unreadable cfg listing)
    (hindex : ∀ k, (∃ n, u.store.entriesVdir.get k = some n) ↔ w.Accepts cfg listing k) :
    u.Parses cfg := by
  intro m e he
  have hk := (hindex e.filenameVdir).1 ⟨m, (hs.index _ m).2 ⟨e, he, rfl⟩⟩
  obtain ⟨c, _, hc⟩ := exists_isNoteFile (h.isSome_loadable hk)
  exact ⟨h.readable _ (holdsNote_of_accepts hreadable hk).readable, by rw [hc.file]; rfl⟩

end Round

/-! ## The load -/

/-- The order in which the second loop goes through the notes. -/
def World.loadOrder (cfg : Config Text) (w : World Text) (listing : List Dirent) : List CStr :=
  Hashmap.keyOrder (w.noteNames cfg listing)

/-- What is in a directory after the load: its notes in the order of the table, each under its
    title or that with a number. -/
def World.layout (cfg : Config Text) (w : World Text) (listing : List Dirent) (D : Option CStr) :
    List (CStr × CStr) :=
  (titles (w.shown cfg)).assign [] (w.inDirectory cfg D (w.loadOrder cfg listing))

/-- The state after a load. -/
structure LoadedAs (cfg : Config Text) (w : World Text) (listing : List Dirent) (u : World Text) :
    Prop where
  readable : ¬ w.Unreadable cfg listing
  inv : u.store.Inv
  index : ∀ k, (∃ n, u.store.entriesVdir.get k = some n) ↔ w.Accepts cfg listing k
  laidOut : LaidOut cfg w listing (w.loadOrder cfg listing) u

/-- The first loop has read the files and hung nothing yet. -/
theorem Listed.laidOut {listing : List Dirent} {s : Store}
    (hv : Listed cfg { w with store := s } listing v) (hwrites : ∀ o ∈ w.env.writes, o = .written) :
    LaidOut cfg w listing [] v := by
  have hchildren : ∀ p, v.store.links.children p = [] := fun p => by
    refine List.eq_nil_iff_forall_not_mem.2 fun c hc => ?_
    rw [hv.sound.wf.mem_children, hv.parent] at hc
    exact nomatch hc
  have hfiles : v.files = w.files := hv.files
  refine ⟨fun k _ n hn => (hv.index k n hn).2, fun D p _ => ?_, fun k => ?_, fun k => ?_,
    fun k _ children => ?_, fun k hk => ?_, fun k hk => ?_, fun o ho => ?_⟩
  · rw [Store.listed, hchildren]
    rfl
  · unfold World.parentUid World.fileComponent
    rw [hfiles]
  · rw [loadable_congr hfiles]
  · unfold World.shownAfter World.shown World.marksLeft World.flags
    rw [loadable_congr hfiles, World.fileComponent, hfiles]
    rfl
  · unfold World.Readable
    rw [hfiles]
    exact hk
  · rw [hfiles]
    exact hk
  · rw [hv.env] at ho
    exact hwrites o ho

/-- The load gives the notes the names of `World.layout`, and stops only if a listed file
    cannot be read. -/
theorem wp_load_laidOut (hL : cfg.ical.Lawful) (hstart : w.AtStart)
    {listing : Option (List Dirent)} (hlisting : ValidListing (listing.getD []))
    (hwrites : ∀ o ∈ w.env.writes, o = .written) :
    Prog.wp (loadRootNodeTree cfg listing) (fun _ u => LoadedAs cfg w (listing.getD []) u)
      (fun _ => w.Unreadable cfg (listing.getD [])) w := by
  have hindex : ∀ {v u pre}, Listed cfg { w with store := w.store.mount } (listing.getD []) v →
      LoadInv v pre u → ∀ k, (∃ n, u.store.entriesVdir.get k = some n) ↔
        w.Accepts cfg (listing.getD []) k := by
    intro v u pre hv hinv k
    rw [hinv.index]
    exact ⟨fun ⟨n, hn⟩ => (hv.index k n hn).1, hv.accepts k⟩
  rw [← loadInOrder_id]
  refine Prog.wp_mono (wp_loadInOrder_listed (fun keys => List.Perm.refl (id keys)) hstart hlisting
    (fun hu _ _ => hu) (fun pre u => LaidOut cfg w (listing.getD []) pre u)
    (fun v hv => hv.laidOut hwrites) ?_) ?_ fun _ hc => hc
  · intro v pre k n u hv hinv h hk hn
    have hindexed := hindex hv hinv
    have hparent := hinv.unattached k hk n hn
    have hreadable : ¬ w.Unreadable cfg (listing.getD []) := fun hu =>
      hv.readable ((unreadable_congr rfl _).2 hu)
    obtain ⟨u', hrun⟩ := attachLoaded_returns hinv.sound.toInv hn hparent
      (h.parses hinv.sound.toInv hreadable hindexed) (by rw [outcome_of_writes h.writes]; rfl)
    rw [Prog.wp_of_ok hrun]
    have ha := (wp_attachLoaded hinv.sound.toInv hn hparent).ok hrun
    exact ⟨ha, h.attached hL hinv hindexed hk ha⟩
  · rintro _ u ⟨v, hv, hinv, h⟩
    rw [id, hv.lists.getKeys] at h
    exact ⟨fun hu => hv.readable ((unreadable_congr rfl _).2 hu), hinv.sound.toInv,
      hindex hv hinv, h⟩

section LoadedAs

variable {listing : List Dirent}

/-- The note of the file is in the directory. -/
def World.Inside (cfg : Config Text) (w : World Text) (listing : List Dirent) (D : Option CStr)
    (k : CStr) : Prop := w.Accepts cfg listing k ∧ w.parentFile cfg k = D

theorem mem_inDirectory_loadOrder {D : Option CStr} {k : CStr} :
    k ∈ w.inDirectory cfg D (w.loadOrder cfg listing) ↔ w.Inside cfg listing D k := by
  rw [World.inDirectory, List.mem_filter, World.loadOrder, Hashmap.mem_keyOrder, mem_noteNames,
    decide_eq_true_iff, World.Inside]

theorem mem_layout {D : Option CStr} {k : CStr} :
    (∃ x, (k, x) ∈ w.layout cfg listing D) ↔ w.Inside cfg listing D k := by
  rw [← mem_inDirectory_loadOrder]
  exact Chooser.mem_keys.symm

theorem LoadedAs.dirNode (h : LoadedAs cfg w listing u) {D : Option CStr}
    (hD : Reached (w.Inside cfg listing) D) : ∃ p, u.store.dirNode D = some p := by
  cases hD with
  | top => exact ⟨_, rfl⟩
  | step _ hk => exact (h.index _).2 hk.1

theorem LoadedAs.directory (h : LoadedAs cfg w listing u) {D : Option CStr} {p : NodeId}
    (hp : u.store.dirNode D = some p) : u.store.directory D = w.layout cfg listing D :=
  (directory_of_dirNode hp).trans (h.laidOut.listed D p hp)

/-- The loaded tree is seen as the layout. -/
theorem LoadedAs.fileAt (h : LoadedAs cfg w listing u) (segments : List CStr) :
    u.store.fileAt segments = seen (w.layout cfg listing) segments := by
  have hnames : ∀ D, ((w.layout cfg listing D).map Prod.snd).Nodup := fun D =>
    (Chooser.assign_names [] _).1
  have hnames' : ∀ D, ((u.store.directory D).map Prod.snd).Nodup := fun D => by
    cases hp : u.store.dirNode D with
    | none =>
      rw [Store.directory, hp]
      exact List.nodup_nil
    | some p =>
      rw [h.directory hp]
      exact hnames D
  rw [fileAt_eq_seen h.inv, seen, seen, find_congr (fun _ _ => mem_layout) hnames hnames' ?_ .top]
  intro D hD x
  obtain ⟨p, hp⟩ := h.dirNode hD
  rw [h.directory hp]

end LoadedAs

end Agendafs
