import Agendafs.ForStd.Locks
import Agendafs.Spec.FileReads
import Agendafs.Spec.Readers
import Agendafs.Spec.XattrSafety

/-!
# The program is a file system

A specification of the FUSE operations as calls on a tree of files, and the proof
that the program answers them so: each call that is permitted returns, with an
answer the specification allows, and leaves the tree of files it should. Not every
call that the kernel can make is permitted: the program stops on some of the others,
and not all are modelled (attributes of the root are not edited, a rename has no flags).

## Key results

- `FsCall.Answered`: the specification
- `createNew_settles`, `write_settles`, `rename_settles`, ..: the calls that change
  the tree
- `call_answered`: any call
-/

namespace Agendafs

open Store Prog TreeFs

/-! ## The calls and their answers -/

/-- A call of the kernel, with its paths as segments. -/
inductive FsCall
  | create (dir : List CStr) (name : CStr)
  | mkdir (dir : List CStr) (name : CStr)
  | write (path : List CStr) (buf : List UInt8) (offset : Nat)
  | unlink (dir : List CStr) (name : CStr)
  | rmdir (dir : List CStr) (name : CStr)
  | rename (old dir : List CStr) (name : CStr)
  | setxattr (dir : List CStr) (name attrib : CStr) (value : List UInt8) (s flags : Nat)
  | removexattr (dir : List CStr) (name attrib : CStr)
  | getxattr (path : List CStr) (attrib : CStr) (buf : List UInt8) (s : Nat)
  | listxattr (path : List CStr) (list : List UInt8) (size : Nat) (behind : List UInt8)
  | openFile (path : List CStr)
  | read (path : List CStr) (size offset : Nat)
  | getattr (path : List CStr)
  | readdir (path : List CStr)
  | readlink (path : List CStr)
  | utimens (path : List CStr)

/-- What a call hands back. -/
inductive Response
  | status (status : Int)
  | data (result : Int × List UInt8)
  | stat (result : Int × Stat)
  | listing (status : Int) (names : List CStr)
  | attributes (result : ListedXattrs)

/-- The file system as its clients know it: names and texts of notes. -/
abbrev NoteTree := TreeFs CStr CStr

section

variable {Text : Type}

/-- Run one call. `filler` has room for all names, and a rename has no flags. -/
def FsCall.exec (cfg : Config Text) : FsCall → FsM Text Response
  | .create dir name => do pure (.status (← fuseCreate cfg (kernelPath (dir ++ [name]))))
  | .mkdir dir name => do pure (.status (← fuseMkdir cfg (kernelPath (dir ++ [name]))))
  | .write path buf offset => do
    pure (.status (← fuseWrite cfg (kernelPath path) buf buf.length offset))
  | .unlink dir name => do pure (.status (← fuseUnlink cfg (kernelPath (dir ++ [name]))))
  | .rmdir dir name => do pure (.status (← fuseRmdir cfg (kernelPath (dir ++ [name]))))
  | .rename old dir name => do
    pure (.status (← fuseRename cfg (kernelPath old) (kernelPath (dir ++ [name])) 0))
  | .setxattr dir name attrib value s flags => do
    pure (.status (← fuseSetxattr cfg (kernelPath (dir ++ [name])) attrib value s flags))
  | .removexattr dir name attrib => do
    pure (.status (← fuseRemovexattr cfg (kernelPath (dir ++ [name])) attrib))
  | .getxattr path attrib buf s => do
    pure (.data (← fuseGetxattr cfg (kernelPath path) attrib buf s))
  | .listxattr path list size behind => do
    pure (.attributes (← fuseListxattr cfg (kernelPath path) list size behind))
  | .openFile path => do pure (.status (← fuseOpen (kernelPath path)))
  | .read path size offset => do
    pure (.data (← fuseRead cfg (kernelPath path) size offset))
  | .getattr path => do pure (.stat (← fuseGetattr cfg (kernelPath path)))
  | .readdir path => do
    let (status, handed) ← fuseReaddir cfg (fun _ => false) (kernelPath path)
    pure (.listing status (handed.map (·.name)))
  | .readlink path => do pure (.status (← fuseReadlink (kernelPath path)))
  | .utimens path => do pure (.status (← fuseUtimens (kernelPath path)))

/-- The lock that is held over a call. -/
def FsCall.access : FsCall → Locks.Access
  | .create .. | .mkdir .. | .write .. | .unlink .. | .rmdir .. | .rename .. | .setxattr ..
  | .removexattr .. => .exclusive
  | .getxattr .. | .listxattr .. | .openFile .. | .read .. | .getattr .. | .readdir .. => .shared
  | .readlink .. | .utimens .. => .none

end

/-! ## The specification -/

/-- The status of a call that is refused. -/
def errno : Refusal → Int
  | .missing => -ENOENT
  | .alreadyExists => -EEXIST
  | .notDirectory => -ENOTDIR
  | .isDirectory => -EISDIR
  | .notEmpty => -ENOTEMPTY
  | .insideItself => -EINVAL

/-- The answer to a call that may be refused, which leaves the tree as it is then. -/
def Settled (t : NoteTree) (result : Except Refusal NoteTree) (status : Int)
    (refused : Refusal → Int) (r : Response) (t' : NoteTree) : Prop :=
  match result with
  | .ok t₁ => r = .status status ∧ t' = t₁
  | .error refusal => r = .status (refused refusal) ∧ t' = t

/-- The text of a file after a write: what came after the bytes is gone, as is what follows a
    zero byte. -/
def writtenText (buf : List UInt8) (offset : Nat) (text : CStr) : CStr :=
  cString (text.take offset ++ buf)

/-- What a call may answer on a tree of files, and the tree it leaves. -/
def FsCall.Answered (t : NoteTree) : FsCall → Response → NoteTree → Prop
  | .create dir name, r, t' => Settled t (t.create dir name (.file [])) 0 errno r t'
  | .mkdir dir name, r, t' => Settled t (t.create dir name .directory) 0 errno r t'
  | .write path buf offset, r, t' =>
    Settled t (t.write path (writtenText buf offset)) (intOfSize buf.length) (fun _ => -ENONET) r t'
  | .unlink dir name, r, t' => Settled t (t.unlink (dir ++ [name])) 0 errno r t'
  | .rmdir dir name, r, t' => Settled t (t.rmdir (dir ++ [name])) 0 errno r t'
  | .rename old dir name, r, t' => Settled t (t.rename old dir name) 0 errno r t'
  | .setxattr .., r, t' | .removexattr .., r, t' => (∃ status, r = .status status) ∧ t' = t
  | .getxattr .., r, t' => (∃ result, r = .data result) ∧ t' = t
  | .listxattr .., r, t' => (∃ result, r = .attributes result) ∧ t' = t
  | .openFile path, r, t' =>
    r = .status (if (t.entry path).isSome then 0 else -ENOENT) ∧ t' = t
  | .read path size offset, r, t' => t' = t ∧
    match t.entry path with
    | none => r = .data (-ENOENT, [])
    | some (.file text) => r = .data (readText text size offset)
    | some .directory => False
  | .getattr path, r, t' => t' = t ∧
    match t.entry path with
    | none => r = .stat (-ENOENT, ⟨0, 0, 0⟩)
    | some (.file text) => r = .stat (0, ⟨0o100774, 1, Int.bmod text.length (2 ^ 64)⟩)
    | some .directory => ∃ stSize, r = .stat (0, ⟨0o040444, 2, stSize⟩)
  | .readdir path, r, t' => t' = t ∧ ∃ names : List CStr,
    r = .listing (if (t.entry path).isSome then 0 else -ENOENT) ([bytes ".", bytes ".."] ++ names) ∧
      names.Nodup ∧ ∀ x, x ∈ names ↔ t.entry (path ++ [x]) ≠ none
  | .readlink _, r, t' => r = .status (-ENOENT) ∧ t' = t
  | .utimens _, r, t' => r = .status 0 ∧ t' = t

/-- The calls that are specified. The kernel makes sure that only files are read and written, and
    that what is created or moved goes into a directory that is there. The other conditions are
    those of the program: it keeps 255 segments of a path, an attribute that is set has a name
    that libical prints whole, the UID of the root is not asked for, and a write leaves some
    text. -/
def FsCall.Permitted (t : NoteTree) : FsCall → Prop
  | .create dir name | .mkdir dir name =>
    ShortPath (dir ++ [name]) ∧ t.entry dir = some .directory
  | .write path buf offset => ShortPath path ∧ t.entry path ≠ some .directory ∧
    ∀ text, t.entry path = some (.file text) → writtenText buf offset text ≠ []
  | .unlink dir name | .rmdir dir name => ShortPath (dir ++ [name])
  | .rename old dir name => ShortPath old ∧ ShortPath (dir ++ [name]) ∧ old ≠ [] ∧
    t.entry old ≠ none ∧ t.entry dir = some .directory ∧ ¬ old <+: dir ++ [name]
  | .setxattr dir name attrib _ _ _ => ShortPath (dir ++ [name]) ∧
    (attrib ∉ ownKindXattrs → PrintableKey (attrib.drop 5))
  | .removexattr dir name _ => ShortPath (dir ++ [name])
  | .read path _ _ => ShortPath path ∧ t.entry path ≠ some .directory
  | .getxattr path attrib _ _ => ShortPath path ∧ (path = [] → attrib ≠ bytes "user.uid")
  | .listxattr path _ _ _ | .openFile path | .getattr path | .readdir path | .readlink path
  | .utimens path => ShortPath path

/-! ## The calls that change the tree -/

section Calls

variable {Text : Type} {cfg : Config Text} {w w' : World Text} {dir path old : List CStr}
  {name : CStr} {n : NodeId} {e : AgendaEntry}

/-- The call returns with an answer that is allowed, and leaves the tree it should. -/
def Settles (cfg : Config Text) (call : FsM Text Int) (w : World Text) (h : Mounted cfg w)
    (result : Except Refusal NoteTree) (success : Int) (refused : Refusal → Int) : Prop :=
  ∃ status w', ∃ h' : Mounted cfg w', call w = .ok (status, w') ∧
    Settled h.tree result success refused (.status status) h'.tree

/-- A call that is refused leaves everything as it is. -/
theorem Settles.refuse {call : FsM Text Int} {h : Mounted cfg w}
    {result : Except Refusal NoteTree} {success : Int} {refused : Refusal → Int}
    {refusal : Refusal} (hresult : result = .error refusal)
    (hrun : call w = .ok (refused refusal, w)) : Settles cfg call w h result success refused :=
  ⟨_, w, h, hrun, by rw [hresult]; exact ⟨rfl, rfl⟩⟩

theorem Settles.settle {call : FsM Text Int} {h : Mounted cfg w} (h' : Mounted cfg w')
    {result : Except Refusal NoteTree} {success : Int} {refused : Refusal → Int} {t : NoteTree}
    (hresult : result = .ok t) (hrun : call w = .ok (success, w'))
    (htree : h'.tree.entry = t.entry) :
    Settles cfg call w h result success refused :=
  ⟨success, w', h', hrun, by rw [hresult]; exact ⟨rfl, TreeFs.ext htree⟩⟩

theorem createNew_settles (hL : cfg.ical.Lawful) (h : Mounted cfg w) (hs : w.env.Succeeds)
    (hfresh : w.FreshUuid cfg) (hpath : ShortPath (dir ++ [name]))
    (hdir : h.tree.entry dir = some .directory) (etype : EntryType) :
    Settles cfg (createNew cfg (kernelPath (dir ++ [name])) etype) w h
      (h.tree.create dir name etype.shown) 0 errno := by
  obtain ⟨p, hp, hpdir⟩ := exists_directory h hdir
  by_cases hfree : w.store.namespace (dir ++ [name]) = none
  · have hgo : w.Proceeds cfg (kernelPath (dir ++ [name])) := ⟨h.parses.opens, hpath.few⟩
    obtain ⟨status, w', hrun, hc⟩ := (wp_createNew (E := fun _ => False) h.inv hfresh
      (fun hstop => absurd hgo hstop) etype).returns
    rw [kernelPath_concat] at hrun hc ⊢
    obtain ⟨parent, hparent, hsplit⟩ := getParentPath_normalPath hpath.proper
    have hlookup : w.store.lookup parent = some p := by
      rw [Store.lookup, hsplit]
      exact hp
    have hfreeTree : h.tree.entry (dir ++ [name]) = none := (tree_eq_none h.inv).2 hfree
    cases hc with
    | rejected hr => exact absurd hfree ((rejects_iff hpath.proper).1 hr)
    | noParent _ hparent' hp' =>
      cases hparent.symm.trans hparent'
      cases hlookup.symm.trans hp'
    | notDirectory _ hparent' hp' hd =>
      cases hparent.symm.trans hparent'
      cases hlookup.symm.trans hp'
      cases hpdir.symm.trans hd
    | @created _ p' hr hparent' hp' hd =>
      cases hparent.symm.trans hparent'
      cases hlookup.symm.trans hp'
      have hcreated : Created cfg w (normalPath (dir ++ [name])) etype _ _ :=
        .created hr hparent hp' hd
      have hstatus : w.createStatus cfg p = 0 := by
        unfold World.createStatus
        rw [hs.outcome]
        split <;> rfl
      rw [hstatus] at hrun
      exact .settle (h.created hL hs hfresh hcreated) (create_of_free hfreeTree hdir _) hrun
        (tree_created hL h hs hfresh hpath.proper hp hcreated)
  · obtain ⟨n, hn⟩ := Option.ne_none_iff_exists'.1 hfree
    refine .refuse (create_of_exists (mt (tree_eq_none h.inv).1 hfree) _) ?_
    unfold createNew
    rw [not_hidden_kernelPath, if_neg Bool.false_ne_true,
      bind_run_ok (getNodeByPath_found h.inv hpath.few), lookup_kernelPath _ hpath.proper, hn]
    rfl

/-- The file of a note can be removed, and then it is gone. -/
theorem deleteVdirEntry_removes (h : Mounted cfg w) (hs : w.env.Succeeds)
    (he : w.store.entry n = some e) (hchildren : w.store.links.children n = []) :
    deleteVdirEntry cfg n w = .ok (0, w.removed cfg n e.filenameVdir) := by
  rw [deleteVdirEntry_run h.inv he hchildren, if_pos (h.parses.removeSucceeds hs.remove he)]

theorem unlink_settles (h : Mounted cfg w) (hs : w.env.Succeeds)
    (hpath : ShortPath (dir ++ [name])) :
    Settles cfg (fuseUnlink cfg (kernelPath (dir ++ [name]))) w h (h.tree.unlink (dir ++ [name]))
      0 errno := by
  have hrun : fuseUnlink cfg _ w = _ := fuseUnlink_run h.inv h.parses.opens hpath.few
  rw [lookup_kernelPath _ hpath.proper] at hrun
  cases hn : w.store.namespace (dir ++ [name]) with
  | none =>
    rw [hn] at hrun
    exact .refuse (unlink_of_none ((tree_eq_none h.inv).2 hn)) hrun
  | some n =>
    obtain ⟨e, he⟩ := exists_entry_of_namespace h.inv hn
    have hentry := tree_entry_some h hn
    rw [hn] at hrun
    cases hdir : w.isDirectory cfg n with
    | true =>
      simp only [hdir, if_true] at hrun
      rw [seenAs_eq_directory_iff.2 hdir] at hentry
      exact .refuse (unlink_of_directory hentry) hrun
    | false =>
      have hchildren := children_of_not_directory hdir
      simp only [hdir, Bool.false_eq_true, if_false] at hrun
      rw [deleteVdirEntry_removes h hs he hchildren] at hrun
      rw [seenAs_eq_file hdir] at hentry
      exact .settle (h.removed he hchildren) (unlink_of_file hentry) hrun
        (tree_removed h he hn hchildren)

theorem rmdir_settles (h : Mounted cfg w) (hs : w.env.Succeeds)
    (hpath : ShortPath (dir ++ [name])) :
    Settles cfg (fuseRmdir cfg (kernelPath (dir ++ [name]))) w h (h.tree.rmdir (dir ++ [name]))
      0 errno := by
  have hrun : fuseRmdir cfg _ w = _ := fuseRmdir_run h.inv h.parses.opens hpath.few
  rw [lookup_kernelPath _ hpath.proper] at hrun
  cases hn : w.store.namespace (dir ++ [name]) with
  | none =>
    rw [hn] at hrun
    exact .refuse (rmdir_of_none ((tree_eq_none h.inv).2 hn)) hrun
  | some n =>
    obtain ⟨e, he⟩ := exists_entry_of_namespace h.inv hn
    have hentry := tree_entry_some h hn
    rw [hn] at hrun
    cases hdir : w.isDirectory cfg n with
    | false =>
      simp only [hdir, Bool.false_eq_true, if_false] at hrun
      rw [seenAs_eq_file hdir] at hentry
      exact .refuse (rmdir_of_file hentry) hrun
    | true =>
      simp only [hdir, if_true] at hrun
      rw [seenAs_eq_directory_iff.2 hdir] at hentry
      by_cases hchildren : w.store.links.children n = []
      · rw [if_neg (not_not.2 hchildren), deleteVdirEntry_removes h hs he hchildren] at hrun
        have hempty := (h.empty_iff hn).2 hchildren
        exact .settle (h.removed he hchildren)
          (rmdir_of_empty hentry (List.concat_ne_nil name dir) hempty) hrun
          (tree_removed h he hn hchildren)
      · rw [if_pos hchildren] at hrun
        exact .refuse (rmdir_of_not_empty hentry (mt (h.empty_iff hn).1 hchildren)) hrun

/-- With nothing at the target a rename moves what is there. -/
theorem doAgendaRename_moves (hL : cfg.ical.Lawful) (h : Mounted cfg w) (hs : w.env.Succeeds)
    (hold : ShortPath old) (hnew : ShortPath (dir ++ [name])) (hne : old ≠ [])
    (hexists : h.tree.entry old ≠ none) (hdir : h.tree.entry dir = some .directory)
    (hbelow : ¬ old <+: dir ++ [name]) (hfree : w.store.namespace (dir ++ [name]) = none) :
    ∃ w', ∃ h' : Mounted cfg w',
      doAgendaRename cfg (normalPath old) (normalPath (dir ++ [name])) w = .ok (0, w') ∧
      h'.tree.entry = Links.moveSubtree h.tree.entry old (dir ++ [name]) := by
  obtain ⟨p, hp, hpdir⟩ := exists_directory h hdir
  obtain ⟨c, hc⟩ := Option.ne_none_iff_exists'.1 (mt (tree_eq_none h.inv).2 hexists)
  have hr : FreeRename cfg w old dir name c p :=
    ⟨⟨hold.proper, hnew.proper⟩, hc, hp, hpdir, hfree, hbelow⟩
  -- The old parent has a UID, so the relation to it can be taken out.
  have hnamed : ¬ w.RelatedToUnnamed cfg old := by
    rintro ⟨_, q, _, pic, _, _, _, hpic, huid, _⟩
    obtain ⟨e, he⟩ := exists_entry_of_component hpic
    obtain ⟨c', hc', hjournal⟩ := (h.journals q e he).journal
    rw [component_of_entry he, hc', Option.some.injEq] at hpic
    exact hjournal.uid (hpic ▸ huid)
  have hmoves := (targetCleared_free h.sound h.unique h.parses hfree).moves hold.proper hnew.proper
    ⟨hne, List.concat_ne_nil name dir⟩ ⟨hold.length, hnew.length⟩ hc
    ((unrelates_iff hold.proper _).2 hnamed)
  obtain ⟨status, w', hrun, hrenamed, _⟩ := (wp_doAgendaRename (E := fun _ => False) h.inv
    fun hstop => absurd hmoves hstop).returns
  obtain ⟨rfl, _⟩ := hr.moved hrenamed
  exact ⟨w', h.moved hL hs hr hrenamed, hrun, tree_moved hL h hs hr hrenamed⟩

theorem rename_settles (hL : cfg.ical.Lawful) (h : Mounted cfg w) (hs : w.env.Succeeds)
    (hold : ShortPath old) (hnew : ShortPath (dir ++ [name])) (hne : old ≠ [])
    (hexists : h.tree.entry old ≠ none) (hdir : h.tree.entry dir = some .directory)
    (hbelow : ¬ old <+: dir ++ [name]) :
    Settles cfg (fuseRename cfg (kernelPath old) (kernelPath (dir ++ [name])) 0) w h
      (h.tree.rename old dir name) 0 errno := by
  rw [show kernelPath old = normalPath old from if_neg hne]
  have hlookup := lookup_kernelPath w.store hnew.proper
  have hlen := hnew.few
  rw [kernelPath_concat] at hlookup hlen ⊢
  cases hn : w.store.namespace (dir ++ [name]) with
  | none =>
    have hempty : h.tree.Empty (dir ++ [name]) := empty_of_none ((tree_eq_none h.inv).2 hn)
    obtain ⟨w', h', hrun, htree⟩ :=
      doAgendaRename_moves hL h hs hold hnew hne hexists hdir hbelow hn
    have hfree : fuseRename cfg (normalPath old) _ 0 w = _ :=
      fuseRename_free h.inv hlen (hlookup.trans hn)
    exact .settle h' (rename_of_empty hempty hexists hdir hne hbelow) (hfree.trans hrun) htree
  | some n =>
    by_cases hchildren : w.store.links.children n = []
    · obtain ⟨e, he⟩ := exists_entry_of_namespace h.inv hn
      have hempty := (h.empty_iff hn).2 hchildren
      -- The note in the way is removed first, which leaves the rest of the tree.
      have hcleared := tree_removed h he hn hchildren
      have hothers : ∀ segments, segments ≠ dir ++ [name] →
          (h.removed he hchildren).tree.entry segments = h.tree.entry segments :=
        fun segments hsegments => by rw [hcleared, Function.update_of_ne hsegments]
      have hfree : (w.removed cfg n e.filenameVdir).store.namespace (dir ++ [name]) = none :=
        (tree_eq_none (h.removed he hchildren).inv).1 (by rw [hcleared, Function.update_self])
      obtain ⟨w', h', hrun, htree⟩ := doAgendaRename_moves hL (h.removed he hchildren)
        (hs.afterRemove _ _) hold hnew hne
        (by rwa [hothers old fun heq => hbelow (heq ▸ List.prefix_rfl)])
        (by rwa [hothers dir (by simp)]) hbelow hfree
      have hreplaces : fuseRename cfg (normalPath old) _ 0 w = _ :=
        fuseRename_replaces h.inv hlen (hlookup.trans hn) he hchildren
          (h.parses.removeSucceeds hs.remove he)
      refine .settle h' (rename_of_empty hempty hexists hdir hne hbelow) (hreplaces.trans hrun) ?_
      rw [htree, hcleared, Links.moveSubtree_update _ hbelow]
      rfl
    · exact .refuse (rename_of_not_empty (mt (h.empty_iff hn).1 hchildren))
        (fuseRename_notEmpty h.inv hlen (hlookup.trans hn) hchildren)

/-! ### Edits of one note -/

theorem keepsJournal_noteEdit {o : Op} {f : Icalcomponent → Icalcomponent}
    (hf : o.noteEdit cfg = some f) (hkey : o.SetsPrintable) : KeepsJournal f where
  toKeepsMark := keepsMark_noteEdit hf hkey
  uid := keeps_noteEdit hf (onlyKind_kind .uid) (by decide) fun key _ p hp =>
    (onlyKind_kind .uid).eq_false (by rw [onlyKind_isXProp _ p hp]; decide)

/-- No attribute is the text of the note. -/
theorem keepsTexts_setxattrEdit {attrib : CStr} {value : List UInt8} {s : Nat}
    {f : Icalcomponent → Icalcomponent} (hf : setxattrEdit cfg attrib value s = some f) :
    KeepsTexts f :=
  keepsTexts_of_keeps <| keeps_setxattrEdit hf (onlyKind_kind .description) (by decide)
    fun _ p hp => (onlyKind_kind .description).eq_false (by rw [onlyKind_isXProp _ p hp]; decide)

theorem keepsTexts_removexattrEdit {attrib : CStr} {f : Icalcomponent → Icalcomponent}
    (hf : removexattrEdit attrib = some f) : KeepsTexts f :=
  keepsTexts_of_keeps <| keeps_removexattrEdit hf (onlyKind_kind .description) (by decide)
    fun _ p hp => (onlyKind_kind .description).eq_false (by rw [onlyKind_isXProp _ p hp]; decide)

theorem written_noteContent {buf : List UInt8} {offset : Nat} {c : Icalcomponent}
    (hc : c.parsed = true) (hjournal : IsJournal c) (now : CStr)
    (hne : writtenText buf offset (noteContent c) ≠ []) :
    noteContent (stamp now (icalcomponentInsertDescription c buf buf.length offset)).reread =
      writtenText buf offset (noteContent c) := by
  rw [noteContent, descriptions_insert hc hjournal.inner now (x := writtenText buf offset _) rfl,
    if_neg hne]
  rfl

theorem write_settles (hL : cfg.ical.Lawful) (h : Mounted cfg w) (hs : w.env.Succeeds)
    (hpath : ShortPath path) {buf : List UInt8} {offset : Nat}
    (hfile : h.tree.entry path ≠ some .directory)
    (htext : ∀ text, h.tree.entry path = some (.file text) → writtenText buf offset text ≠ []) :
    Settles cfg (fuseWrite cfg (kernelPath path) buf buf.length offset) w h
      (h.tree.write path (writtenText buf offset)) (intOfSize buf.length) (fun _ => -ENONET) := by
  cases hentry : h.tree.entry path with
  | none =>
    refine .refuse (write_of_none hentry _) ?_
    unfold fuseWrite
    rw [not_hidden_kernelPath, if_neg Bool.false_ne_true,
      bind_run_ok (getNodeByPath_found h.inv hpath.few), lookup_kernelPath _ hpath.proper,
      (tree_eq_none h.inv).1 hentry]
    rfl
  | some found =>
    cases found with
    | directory => exact absurd hentry hfile
    | file text =>
      obtain ⟨n, e, c, hn, he, hc, hjournal, _, hcdir, rfl⟩ := exists_file h hentry
      have hcfile : w.fileComponent cfg e.filenameVdir = some c := by
        rw [← component_of_entry he, hc]
      have hparsed := parsed_of_fileComponent hL hcfile
      have hat : w.NoteAt cfg (kernelPath path) n e.filenameVdir c :=
        ⟨⟨hpath.few, (lookup_kernelPath _ hpath.proper).trans hn, by rw [he]; rfl,
          (h.journals n e he).readable⟩, not_hidden_kernelPath path, hcfile, hjournal.inner⟩
      have hedit : (Op.write (kernelPath path) buf buf.length offset).noteEdit cfg =
          some (icalcomponentInsertDescription · buf buf.length offset) := rfl
      have hkeeps := keepsJournal_noteEdit hedit trivial
      refine .settle (h.wrote hL hs he hc hkeeps) (write_of_file hentry _)
        (fuseWrite_run h.inv hat buf buf.length offset) ?_
      rw [tree_wrote hL h hs hn he hc hkeeps, entryOf_restamped hkeeps.toKeepsMark hparsed, hcdir,
        if_neg Bool.false_ne_true, written_noteContent hparsed hjournal w.now (htext _ hentry)]
      rfl

/-- Setting or removing an attribute leaves the tree. -/
theorem xattr_settles (hL : cfg.ical.Lawful) (h : Mounted cfg w) (hs : w.env.Succeeds)
    (hpath : ShortPath (dir ++ [name])) {call : FsM Text Int} {o : Op}
    (hwp : wp call (Edited cfg w o) Crash.Visible w) (hreturns : call.Returns w)
    (hedit : ∀ n f, w.edit cfg o = some (n, f) →
      w.store.lookup (kernelPath (dir ++ [name])) = some n ∧ KeepsJournal f ∧ KeepsTexts f) :
    ∃ status w', ∃ h' : Mounted cfg w', call w = .ok (status, w') ∧ h'.tree = h.tree := by
  obtain ⟨⟨status, w'⟩, hrun⟩ := hreturns
  cases hwp.ok hrun with
  | rejected => exact ⟨status, w, h, hrun, rfl⟩
  | noComponent => exact ⟨_, w, h, hrun, rfl⟩
  | notOpened _ he hc =>
    -- Every note of the tree has a component.
    have hparses := (h.parses _ _ he).2
    rw [← component_of_entry he, hc] at hparses
    cases hparses
  | @written n f e c hf he hc =>
    obtain ⟨hn, hjournal, htexts⟩ := hedit n f hf
    rw [lookup_kernelPath _ hpath.proper] at hn
    have hparsed := parsed_of_fileComponent hL (by rw [← component_of_entry he, hc])
    refine ⟨_, _, h.wrote hL hs he hc hjournal, hrun, TreeFs.ext ?_⟩
    rw [tree_wrote hL h hs hn he hc hjournal,
      entryOf_restamped_texts hL hjournal.toKeepsMark htexts hparsed, ← hc,
      ← h.seenAs_eq (live_of_namespace h.inv hn), ← tree_entry_some h hn]
    exact Function.update_eq_self ..

theorem editXattrAt_returns (h : Mounted cfg w) (hpath : ShortPath (dir ++ [name]))
    (attrib : CStr) (edit : Option (Icalcomponent → Icalcomponent)) (refusal : Int) :
    (editXattrAt cfg (kernelPath (dir ++ [name])) attrib edit refusal).Returns w := by
  have hlookup := lookup_kernelPath w.store hpath.proper
  cases hn : w.store.namespace (dir ++ [name]) with
  | none =>
    unfold editXattrAt
    rw [returns_bind_ok (getNodeByPath_found h.inv hpath.few), hlookup, hn]
    exact returns_of_ok rfl
  | some n =>
    obtain ⟨e, he⟩ := exists_entry_of_namespace h.inv hn
    refine (editXattrAt_returns_iff h.inv (hlookup.trans hn) attrib edit refusal).2
      ⟨hpath.few, fun _ => ⟨fun e' he' => (h.journals n e' he').readable, .inr (.inl ?_)⟩⟩
    rw [component_of_entry he]
    exact (h.parses n e he).2

theorem setxattr_settles (hL : cfg.ical.Lawful) (h : Mounted cfg w) (hs : w.env.Succeeds)
    (hpath : ShortPath (dir ++ [name])) {attrib : CStr} (value : List UInt8) (s flags : Nat)
    (hkey : attrib ∉ ownKindXattrs → PrintableKey (attrib.drop 5)) :
    ∃ status w', ∃ h' : Mounted cfg w',
      fuseSetxattr cfg (kernelPath (dir ++ [name])) attrib value s flags w = .ok (status, w') ∧
      h'.tree = h.tree := by
  refine xattr_settles hL h hs hpath (wp_fuseSetxattr h.inv _ attrib value s flags) ?_ ?_
  · by_cases hlen : 256 ≤ attrib.length ∨ 64 * 1024 ≤ (cString value).length
    · rw [fuseSetxattr_tooLong hlen]
      exact returns_of_ok rfl
    · rw [fuseSetxattr_eq hlen]
      exact editXattrAt_returns h hpath attrib _ _
  · intro n f hf
    obtain ⟨m, hm, hsome⟩ := Option.bind_eq_some_iff.1 hf
    obtain ⟨f', hf', hpair⟩ := Option.map_eq_some_iff.1 hsome
    cases hpair
    exact ⟨hm, keepsJournal_noteEdit (noteEdit_of_edit hf) hkey,
      keepsTexts_setxattrEdit hf'⟩

theorem removexattr_settles (hL : cfg.ical.Lawful) (h : Mounted cfg w) (hs : w.env.Succeeds)
    (hpath : ShortPath (dir ++ [name])) (attrib : CStr) :
    ∃ status w', ∃ h' : Mounted cfg w',
      fuseRemovexattr cfg (kernelPath (dir ++ [name])) attrib w = .ok (status, w') ∧
      h'.tree = h.tree := by
  refine xattr_settles hL h hs hpath (wp_fuseRemovexattr h.inv _ attrib) ?_ ?_
  · rw [fuseRemovexattr_eq]
    exact editXattrAt_returns h hpath attrib _ _
  · intro n f hf
    obtain ⟨m, hm, hsome⟩ := Option.bind_eq_some_iff.1 hf
    obtain ⟨f', hf', hpair⟩ := Option.map_eq_some_iff.1 hsome
    cases hpair
    exact ⟨hm, keepsJournal_noteEdit (noteEdit_of_edit hf) trivial,
      keepsTexts_removexattrEdit hf'⟩

/-- Reading an attribute changes nothing. -/
theorem getxattr_mounted (h : Mounted cfg w) (hpath : ShortPath path) {attrib : CStr}
    (huid : path = [] → attrib ≠ bytes "user.uid") (buf : List UInt8) (s : Nat) :
    ∃ result, fuseGetxattr cfg (kernelPath path) attrib buf s w = .ok (result, w) := by
  have hlookup := lookup_kernelPath w.store hpath.proper
  suffices hreturns : (fuseGetxattr cfg (kernelPath path) attrib buf s).Returns w by
    obtain ⟨⟨result, w'⟩, hrun⟩ := hreturns
    obtain rfl : w' = w := (observes_fuseGetxattr ..).reads _ _ _ hrun
    exact ⟨result, hrun⟩
  cases hn : w.store.namespace path with
  | none =>
    unfold fuseGetxattr
    rw [returns_bind_ok (getNodeByPath_found h.inv hpath.few), hlookup, hn]
    exact returns_of_ok rfl
  | some n =>
    refine (fuseGetxattr_returns_iff h.inv (hlookup.trans hn) attrib buf s).2 ⟨hpath.few, fun _ =>
      ⟨fun e he => (h.journals n e he).readable, fun hattrib => ?_⟩⟩
    -- Every note has a UID.
    obtain ⟨dir, name, rfl⟩ := (List.eq_nil_or_concat' path).resolve_left fun hnil =>
      huid hnil hattrib
    obtain ⟨e, he⟩ := exists_entry_of_namespace h.inv hn
    obtain ⟨c, hc, _, hsome⟩ := (h.journals n e he).journal
    rw [component_of_entry he, hc]
    exact Option.isSome_iff_ne_none.2 hsome

/-- So does listing the attributes. -/
theorem listxattr_mounted (h : Mounted cfg w) (hpath : ShortPath path) (list : List UInt8)
    (size : Nat) (behind : List UInt8) :
    ∃ result, fuseListxattr cfg (kernelPath path) list size behind w = .ok (result, w) := by
  have hlookup := lookup_kernelPath w.store hpath.proper
  suffices hreturns : (fuseListxattr cfg (kernelPath path) list size behind).Returns w by
    obtain ⟨⟨result, w'⟩, hrun⟩ := hreturns
    obtain rfl : w' = w := (observes_fuseListxattr ..).reads _ _ _ hrun
    exact ⟨result, hrun⟩
  cases hn : w.store.namespace path with
  | none =>
    unfold fuseListxattr
    rw [returns_bind_ok (getNodeByPath_found h.inv hpath.few), hlookup, hn]
    exact returns_of_ok rfl
  | some n =>
    refine (fuseListxattr_returns_iff h.inv (hlookup.trans hn) list size behind).2 ⟨hpath.few, ?_⟩
    cases he : w.store.entry n with
    | none => exact .inl rfl
    | some e =>
      rw [component_of_entry he]
      exact .inr ⟨fun e' he' => (h.journals n e' he').readable, (h.parses n e he).2⟩

end Calls

/-! ## Any call -/

section

variable {Text : Type} {cfg : Config Text} {w w' : World Text}

/-- The UUID that a new note gets is that of no other. -/
def FsCall.Ready (cfg : Config Text) (w : World Text) : FsCall → Prop
  | .create .. | .mkdir .. => w.FreshUuid cfg
  | _ => True

/-- A mounted file system answers every call, as specified. -/
theorem call_answered (hL : cfg.ical.Lawful) (h : Mounted cfg w) (call : FsCall)
    (hsucceeds : call.access = .exclusive → w.env.Succeeds) (hready : call.Ready cfg w)
    (hpermitted : call.Permitted h.tree) :
    ∃ r w', ∃ h' : Mounted cfg w', call.exec cfg w = .ok (r, w') ∧
      call.Answered h.tree r h'.tree := by
  cases call with
  | create dir name =>
    have hs := hsucceeds rfl
    obtain ⟨status, w', h', hrun, hsettled⟩ :=
      createNew_settles hL h hs hready hpermitted.1 hpermitted.2 .file
    exact ⟨_, w', h', bind_run_ok hrun, hsettled⟩
  | mkdir dir name =>
    have hs := hsucceeds rfl
    obtain ⟨status, w', h', hrun, hsettled⟩ :=
      createNew_settles hL h hs hready hpermitted.1 hpermitted.2 .directory
    exact ⟨_, w', h', bind_run_ok hrun, hsettled⟩
  | write path buf offset =>
    have hs := hsucceeds rfl
    obtain ⟨status, w', h', hrun, hsettled⟩ :=
      write_settles hL h hs hpermitted.1 hpermitted.2.1 hpermitted.2.2
    exact ⟨_, w', h', bind_run_ok hrun, hsettled⟩
  | unlink dir name =>
    have hs := hsucceeds rfl
    obtain ⟨status, w', h', hrun, hsettled⟩ := unlink_settles h hs hpermitted
    exact ⟨_, w', h', bind_run_ok hrun, hsettled⟩
  | rmdir dir name =>
    have hs := hsucceeds rfl
    obtain ⟨status, w', h', hrun, hsettled⟩ := rmdir_settles h hs hpermitted
    exact ⟨_, w', h', bind_run_ok hrun, hsettled⟩
  | rename old dir name =>
    have hs := hsucceeds rfl
    obtain ⟨hold, hnew, hne, hexists, hdir, hbelow⟩ := hpermitted
    obtain ⟨status, w', h', hrun, hsettled⟩ :=
      rename_settles hL h hs hold hnew hne hexists hdir hbelow
    exact ⟨_, w', h', bind_run_ok hrun, hsettled⟩
  | setxattr dir name attrib value s flags =>
    have hs := hsucceeds rfl
    obtain ⟨status, w', h', hrun, htree⟩ :=
      setxattr_settles hL h hs hpermitted.1 value s flags hpermitted.2
    exact ⟨_, w', h', bind_run_ok hrun, ⟨status, rfl⟩, htree⟩
  | removexattr dir name attrib =>
    have hs := hsucceeds rfl
    obtain ⟨status, w', h', hrun, htree⟩ := removexattr_settles hL h hs hpermitted attrib
    exact ⟨_, w', h', bind_run_ok hrun, ⟨status, rfl⟩, htree⟩
  | getxattr path attrib buf s =>
    obtain ⟨result, hrun⟩ := getxattr_mounted h hpermitted.1 hpermitted.2 buf s
    exact ⟨_, w, h, bind_run_ok hrun, ⟨result, rfl⟩, rfl⟩
  | listxattr path list size behind =>
    obtain ⟨result, hrun⟩ := listxattr_mounted h hpermitted list size behind
    exact ⟨_, w, h, bind_run_ok hrun, ⟨result, rfl⟩, rfl⟩
  | openFile path => exact ⟨_, w, h, bind_run_ok (openFile_mounted h hpermitted), rfl, rfl⟩
  | read path size offset =>
    have hrun := read_mounted h hpermitted.1 size offset hpermitted.2
    refine ⟨_, w, h, bind_run_ok hrun, rfl, ?_⟩
    cases hentry : h.tree.entry path with
    | none => rfl
    | some found =>
      cases found with
      | directory => exact absurd hentry hpermitted.2
      | file text => rfl
  | getattr path =>
    obtain ⟨stSize, hrun⟩ := getattr_mounted h hpermitted
    refine ⟨_, w, h, bind_run_ok hrun, rfl, ?_⟩
    cases hentry : h.tree.entry path with
    | none => rfl
    | some found =>
      cases found with
      | directory => exact ⟨stSize, rfl⟩
      | file text => rfl
  | readdir path =>
    obtain ⟨handed, hrun, names, hhanded, hnames⟩ := readdir_mounted h hpermitted
    refine ⟨_, w, h, bind_run_ok hrun, rfl, names, ?_, hnames⟩
    rw [hhanded]
  | readlink path => exact ⟨_, w, h, rfl, rfl, rfl⟩
  | utimens path => exact ⟨_, w, h, rfl, rfl, rfl⟩

end

end Agendafs
