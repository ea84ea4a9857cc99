import Agendafs.Spec.EventCorrect

/-!
# What a call comes to

For each FUSE operation a relation lists the ways it can end, with the status it
returns, the state it leaves and the facts that led there: `Created`, `Edited`,
`Removed` and `Renamed`. Together with `Handled` they make up `Effect`, and every
call on a sound state has its effect or stops visibly. Properties of runs are
proved by going through the cases of these relations, not through the code.

## Key results

- `wp_exec`: a call has its `Effect`
-/

namespace Agendafs

open Store

variable {Text : Type} {cfg : Config Text} {w : World Text}

/-! ## Creating -/

/-- The call is turned down before anything is done. -/
def World.Rejects (w : World Text) (path : CStr) : Prop :=
  pathIsHidden path = true ∨ (w.store.lookup path).isSome = true ∨
    startsWithStr path [slash] = false

instance (w : World Text) (path : CStr) : Decidable (w.Rejects path) :=
  inferInstanceAs (Decidable (_ ∨ _ ∨ _))

/-- The UID of the note that is created next. -/
def World.newId (w : World Text) : CStr := createNewUniqueIcsUid w.env.uuid

/-- The entry of the note that is created next. -/
def World.newEntry (w : World Text) (path : CStr) : AgendaEntry :=
  ⟨getFilename path, w.newId ++ bytes ".ics"⟩

/-- `uuid_generate` gives a UID that is not in use. -/
structure World.FreshUuid (cfg : Config Text) (w : World Text) : Prop where
  flat : slash ∉ w.env.uuid
  not_indexed : w.store.entriesVdir.get (w.newId ++ bytes ".ics") = none
  no_file : w.files (appendPath cfg.vdir (w.newId ++ bytes ".ics")) = none

/-- The state after the node of a new note has been allocated and indexed. -/
def World.allocated (w : World Text) (path : CStr) : World Text :=
  { w.tick with store := w.store.create (w.newEntry path) }

/-- The component of a new note in the directory `p`. -/
def World.newNote (cfg : Config Text) (w : World Text) (path : CStr) (etype : EntryType)
    (p : NodeId) : Icalcomponent :=
  let note := newComponent etype w.newId w.now (getFilename path)
  match w.component cfg p with
  | some pic => setParentChildRelationshipToComponent pic note
  | none => note

/-- The state after a new note has been written and attached to `p`. -/
def World.created (cfg : Config Text) (w : World Text) (path : CStr) (etype : EntryType)
    (p : NodeId) : World Text :=
  let v := (w.allocated path).wrote cfg (w.newEntry path).filenameVdir (w.newNote cfg path etype p)
  { v with store := v.store.attach p w.store.nextId }

/-- The status of a call that creates a note in `p`: that of the write, unless
    `p` has no component. -/
def World.createStatus (cfg : Config Text) (w : World Text) (p : NodeId) : Int :=
  if (w.component cfg p).isSome then w.outcome.status else 0

/-- What creating an entry can come to. -/
inductive Created (cfg : Config Text) (w : World Text) (path : CStr) (etype : EntryType) :
    Int → World Text → Prop
  | rejected {status : Int} (h : w.Rejects path) (hs : status < 0) :
      Created cfg w path etype status w
  | noParent {parentPath : CStr} (h : ¬ w.Rejects path)
      (hparent : getParentPath path = some parentPath) (hp : w.store.lookup parentPath = none) :
      Created cfg w path etype (-ENOENT) (w.allocated path)
  | notDirectory {parentPath : CStr} {p : NodeId} (h : ¬ w.Rejects path)
      (hparent : getParentPath path = some parentPath) (hp : w.store.lookup parentPath = some p)
      (hd : w.isDirectory cfg p = false) :
      Created cfg w path etype (-ENOTDIR) (w.allocated path)
  | created {parentPath : CStr} {p : NodeId} (h : ¬ w.Rejects path)
      (hparent : getParentPath path = some parentPath) (hp : w.store.lookup parentPath = some p)
      (hd : w.isDirectory cfg p = true) :
      Created cfg w path etype (w.createStatus cfg p) (w.created cfg path etype p)

/-- The directory that a creation puts its note in. -/
def World.createParent (cfg : Config Text) (w : World Text) (path : CStr) : Option NodeId :=
  if w.Rejects path then none
  else ((getParentPath path).bind w.store.lookup).filter (w.isDirectory cfg)

/-- A creation puts its note in a directory, or fails without writing a file. -/
theorem Created.cases {path : CStr} {etype : EntryType} {status : Int} {w' : World Text}
    (hc : Created cfg w path etype status w') :
    (∃ p, w.createParent cfg path = some p ∧ status = w.createStatus cfg p ∧
      w' = w.created cfg path etype p) ∨
    w.createParent cfg path = none ∧ status < 0 ∧ w'.env.writes = w.env.writes := by
  unfold World.createParent
  cases hc with
  | rejected hr hs => exact .inr ⟨if_pos hr, hs, rfl⟩
  | noParent hr hparent hp =>
    refine .inr ⟨?_, by decide, rfl⟩
    rw [if_neg hr, hparent, Option.bind_some, hp]
    rfl
  | notDirectory hr hparent hp hd =>
    refine .inr ⟨?_, by decide, rfl⟩
    rw [if_neg hr, hparent, Option.bind_some, hp, Option.filter_some, hd]
    rfl
  | @created _ p hr hparent hp hd =>
    refine .inl ⟨p, ?_, rfl, rfl⟩
    rw [if_neg hr, hparent, Option.bind_some, hp, Option.filter_some, hd]
    rfl

/-- A new note that is not attached changes no path. -/
theorem lookup_create {s : Store} (h : s.Inv) (e : AgendaEntry) (path : CStr) :
    (s.create e).lookup path = s.lookup path := by
  unfold Store.lookup
  rw [h.links_create]
  refine Links.resolve_congr (fun p n hn => ?_) _ _
  have hne : n ≠ s.nextId := fun hn' => h.not_live_nextId (hn' ▸ h.live_child hn)
  rw [name, name, create_entry, if_neg hne]

section Allocated

variable {path : CStr} {n : NodeId}

theorem allocated_entry (hn : n ≠ w.store.nextId) :
    (w.allocated path).store.entry n = w.store.entry n := by
  change (w.store.create _).entry n = _
  rw [create_entry, if_neg hn]

theorem allocated_component (hn : n ≠ w.store.nextId) :
    (w.allocated path).component cfg n = w.component cfg n :=
  component_congr (by rw [allocated_entry hn]) rfl

theorem allocated_isDirectory (h : w.store.Inv) (hn : n ≠ w.store.nextId) :
    (w.allocated path).isDirectory cfg n = w.isDirectory cfg n := by
  unfold World.isDirectory
  rw [allocated_entry hn, allocated_component hn]
  change (_ || decide ((w.store.create _).links.children n ≠ []) || _) = _
  rw [h.links_create]

end Allocated

/-- The file of every note in the tree can be opened for reading. -/
def World.Opens (cfg : Config Text) (w : World Text) : Prop :=
  ∀ n e, w.store.entry n = some e → w.Readable cfg e.filenameVdir

/-- What keeps the calls on one path from stopping. -/
def World.Proceeds (cfg : Config Text) (w : World Text) (path : CStr) : Prop :=
  w.Opens cfg ∧ (splitPath path).length ≤ 255

theorem length_splitPath_parent {path parent : CStr} (h : getParentPath path = some parent) :
    (splitPath parent).length ≤ (splitPath path).length := by
  rw [splitPath_eq_parent h, List.length_append]
  exact Nat.le_add_right _ _

theorem wp_insertFuseNodeToPath {E : Crash → Prop} (h : w.store.Inv) (hfresh : w.FreshUuid cfg)
    {path : CStr} (hE : ¬ w.Proceeds cfg path → ∀ c : Crash, c.Visible → E c)
    (etype : EntryType) (hr : ¬ w.Rejects path) {parentPath : CStr}
    (hparent : getParentPath path = some parentPath) :
    Prog.wp (insertFuseNodeToPath cfg path w.store.nextId
        (newComponent etype w.newId w.now (getFilename path)))
      (Created cfg w path etype) E (w.allocated path) := by
  have halloc : (w.allocated path).store.Inv := h.create hfresh.not_indexed
  unfold insertFuseNodeToPath
  rw [hparent, Prog.wp_bind_ok (onStore_run (nonNull_run parentPath))]
  refine wp_getNodeByPath halloc (fun hlen => hE (fun hgo => hlen ?_) _ (.inr (.inr rfl))) ?_
  · exact (length_splitPath_parent hparent).trans hgo.2
  -- The new node stands alone, so no path leads to it yet.
  have hlookup : (w.allocated path).store.lookup parentPath = w.store.lookup parentPath :=
    lookup_create h _ _
  rw [hlookup]
  cases hp : w.store.lookup parentPath with
  | none => exact .noParent hr hparent hp
  | some p =>
    have hplive := h.live_of_lookup hp
    have hne : p ≠ w.store.nextId := fun hn => h.not_live_nextId (hn ▸ hplive)
    have hlive : (w.allocated path).store.Live p := (create_live ..).2 (.inr hplive)
    have hnew : (w.allocated path).store.entry w.store.nextId = some (w.newEntry path) :=
      (create_entry ..).trans (if_pos rfl)
    simp only
    refine wp_getIcalcomponentFromNode hlive (fun hopens => hE fun hgo => hopens fun e he => ?_) fun _ => ?_
    · rw [allocated_entry hne] at he
      exact hgo.1 p e he
    rw [Prog.wp_bind_ok (nodeIsDirectory_run hlive), allocated_isDirectory h hne,
      allocated_component hne]
    split
    · rename_i hd
      have hcreated : Created cfg w path etype _ _ := .created hr hparent hp hd
      unfold World.createStatus World.created World.newNote at hcreated
      have hadd := fun ic => onStore_run
        (w := (w.allocated path).wrote cfg (w.newEntry path).filenameVdir ic)
        (addChild_run hlive (live_of_entry hnew))
      -- Below a parent without component the status of the write is dropped.
      cases hpic : w.component cfg p with
      | none =>
        rw [hpic] at hcreated
        simp only
        rw [Prog.wp_bind_ok (writeIcalFile_run hnew _),
          Prog.wp_bind_ok (Prog.pure_run (0 : Int) _), Prog.wp_bind_ok (hadd _)]
        exact hcreated
      | some pic =>
        rw [hpic] at hcreated
        simp only
        rw [Prog.wp_bind_ok (writeParentChildComponents_run hnew pic _),
          Prog.wp_bind_ok (hadd _)]
        exact hcreated
    · rename_i hd
      exact .notDirectory hr hparent hp (by simpa using hd)

/-- The common body of `fuse_create` and `fuse_mkdir`. -/
theorem wp_createNew {E : Crash → Prop} (h : w.store.Inv) (hfresh : w.FreshUuid cfg)
    {path : CStr} (hE : ¬ w.Proceeds cfg path → ∀ c : Crash, c.Visible → E c)
    (etype : EntryType) :
    Prog.wp (createNew cfg path etype) (Created cfg w path etype) E w := by
  unfold createNew
  split
  · rename_i hh
    exact .rejected (.inl hh) (by decide)
  · rename_i hh
    refine wp_getNodeByPath h (fun hlen => hE (fun hgo => hlen hgo.2) _ (.inr (.inr rfl))) ?_
    cases hl : w.store.lookup path with
    | some n => exact .rejected (.inr (.inl (by rw [hl]; rfl))) (by decide)
    | none =>
      simp only
      unfold createEntryFromFuse
      split
      · rename_i hs
        exact .rejected (.inr (.inr (by simpa using hs))) (by decide)
      · rename_i hs
        have hr : ¬ w.Rejects path := by
          rintro (hx | hx | hx)
          · exact hh hx
          · rw [hl] at hx; exact nomatch hx
          · exact hs (by rw [hx]; rfl)
        -- An absolute path has a parent path.
        have hmem : slash ∈ path := by
          rw [Bool.not_eq_true, Bool.not_eq_false', startsWithStr, List.isPrefixOf_iff_prefix] at hs
          exact hs.subset List.mem_cons_self
        obtain ⟨parentPath, hparent⟩ := getParentPath_isSome_of_mem hmem
        simp only
        rw [Prog.wp_bind_ok (Prog.get_run w), Prog.wp_bind_ok getIcalNow_run,
          Prog.wp_bind_ok (onStore_run (createFuseNode_run _))]
        exact wp_insertFuseNodeToPath h hfresh hE etype hr hparent

/-! ## Editing the file of a note -/

/-- The edit that setting an attribute asks for. -/
def setxattrEdit (cfg : Config Text) (attrib : CStr) (value : List UInt8) (s : Nat) :
    Option (Icalcomponent → Icalcomponent) :=
  if 256 ≤ attrib.length ∨ 64 * 1024 ≤ (cString value).length then none
  else if attrib = bytes "user.uid" ∨ attrib = bytes "user.sibling" then none
  else if attrib = bytes "user.dtstart" then
    if cString value = [] then some (·.removeFirst (·.kind = .dtstart))
    else (cfg.ical.timeFromString (cString value)).map fun time => (·.setDtstart time)
  else if attrib = bytes "user.categories" then some (withCategories value s)
  else if attrib = bytes "user.class" then
    if parseIcalClass (cString value) = .none then none
    else some (·.modifyInner
      (Icalcomponent.setExistingProperty .classification (parseIcalClass (cString value)).text))
  else if attrib = bytes "user.status" then
    if parseIcalStatus (cString value) = .none then none
    else some (·.setStatus (parseIcalStatus (cString value)).text)
  else if startsWithStr attrib (bytes "user.") then
    some (icalcomponentSetCustomXValue · (attrib.drop 5) (cString value))
  else none

/-- The edit that removing an attribute asks for. -/
def removexattrEdit (attrib : CStr) : Option (Icalcomponent → Icalcomponent) :=
  if attrib = bytes "user.categories" then some (withCategories [] 0)
  else if attrib = bytes "user.class" then
    some (·.modifyInner (·.removeFirst (·.kind = .classification)))
  else if attrib = bytes "user.status" then none
  else if attrib = bytes "user.dtstart" then some (·.removeFirst (·.kind = .dtstart))
  else if startsWithStr attrib (bytes "user.") then
    some (icalcomponentRemoveCustomProp · (attrib.drop 5))
  else none

/-- The attributes whose setters leave a node without component alone. -/
def lenientXattrs : List CStr :=
  [bytes "user.categories", bytes "user.class", bytes "user.status"]

/-- The edit of an attribute, made in the file of the node. -/
def editXattr (cfg : Config Text) (n : NodeId) (attrib : CStr)
    (f : Icalcomponent → Icalcomponent) : FsM Text Int :=
  if lenientXattrs.contains attrib then editNode cfg n f
  else if attrib = bytes "user.dtstart" then editNodeUnchecked cfg n f
  else editNodeAsserted cfg n f

/-- The status of `fuse_setxattr` when it refuses attribute or value. -/
def setxattrRefusal (attrib : CStr) : Int :=
  if attrib = bytes "user.uid" ∨ attrib = bytes "user.sibling" then -EPERM else -EINVAL

/-- The status of `fuse_removexattr` when it refuses the attribute. -/
def removexattrRefusal (attrib : CStr) : Int :=
  if attrib = bytes "user.status" then -EPERM else -EINVAL

theorem refusal_neg (attrib : CStr) : setxattrRefusal attrib < 0 ∧ removexattrRefusal attrib < 0 := by
  unfold setxattrRefusal removexattrRefusal
  constructor <;> split <;> decide

/-- Both calls look up the node and make the edit of the attribute, if there is one. -/
def editXattrAt (cfg : Config Text) (path attrib : CStr)
    (edit : Option (Icalcomponent → Icalcomponent)) (refusal : Int) : FsM Text Int := do
  match ← onStore (getNodeByPath path) with
  | none => pure (-ENONET)
  | some n =>
    match edit with
    | none => pure refusal
    | some f => editXattr cfg n attrib f

theorem fuseSetxattr_tooLong {attrib : CStr} {value : List UInt8}
    (hlen : 256 ≤ attrib.length ∨ 64 * 1024 ≤ (cString value).length) (path : CStr)
    (s flags : Nat) : fuseSetxattr cfg path attrib value s flags = pure (-EMSGSIZE) := by
  unfold fuseSetxattr
  by_cases hattrib : 256 ≤ attrib.length
  · rw [if_pos hattrib]
  · rw [if_neg hattrib, if_pos (hlen.resolve_left hattrib)]

theorem fuseSetxattr_eq {attrib : CStr} {value : List UInt8}
    (hlen : ¬ (256 ≤ attrib.length ∨ 64 * 1024 ≤ (cString value).length)) (path : CStr)
    (s flags : Nat) :
    fuseSetxattr cfg path attrib value s flags =
      editXattrAt cfg path attrib (setxattrEdit cfg attrib value s) (setxattrRefusal attrib) := by
  obtain ⟨hattrib, hvalue⟩ := not_or.1 hlen
  unfold fuseSetxattr editXattrAt
  rw [if_neg hattrib, if_neg hvalue]
  refine congrArg (onStore (getNodeByPath path) >>= ·) (funext fun found => ?_)
  cases found with
  | none => rfl
  | some n =>
    -- Branch by branch, the edit is cut down along with the program.
    unfold setxattrEdit setxattrRefusal editXattr
    rw [if_neg hlen]
    simp only
    split
    · rename_i huid
      rw [if_pos (.inl huid), if_pos (.inl huid)]
    rename_i huid
    split
    · rename_i hsibling
      rw [if_pos (.inr hsibling), if_pos (.inr hsibling)]
    rename_i hsibling
    rw [if_neg (not_or.2 ⟨huid, hsibling⟩), if_neg (not_or.2 ⟨huid, hsibling⟩)]
    split
    · rename_i hdtstart
      have hstrict : ¬ lenientXattrs.contains attrib = true := by
        rw [hdtstart]
        decide
      split
      · rfl
      · unfold setDtstart
        cases cfg.ical.timeFromString (cString value) with
        | none => rfl
        | some time => rfl
    rename_i hdtstart
    split
    · rename_i hcategories
      have hlenient : lenientXattrs.contains attrib = true := by
        rw [hcategories]
        decide
      exact (if_pos hlenient).symm
    rename_i hcategories
    split
    · rename_i hclass
      have hlenient : lenientXattrs.contains attrib = true := by
        rw [hclass]
        decide
      split <;> rfl
    rename_i hclass
    split
    · rename_i hstatus
      have hlenient : lenientXattrs.contains attrib = true := by
        rw [hstatus]
        decide
      split <;> rfl
    rename_i hstatus
    have hstrict : ¬ lenientXattrs.contains attrib = true := by
      simp only [lenientXattrs, List.contains_iff_mem, List.mem_cons, List.not_mem_nil, or_false]
      exact not_or.2 ⟨hcategories, not_or.2 ⟨hclass, hstatus⟩⟩
    split <;> rfl

theorem fuseRemovexattr_eq (path attrib : CStr) :
    fuseRemovexattr cfg path attrib =
      editXattrAt cfg path attrib (removexattrEdit attrib) (removexattrRefusal attrib) := by
  unfold fuseRemovexattr editXattrAt
  refine congrArg (onStore (getNodeByPath path) >>= ·) (funext fun found => ?_)
  cases found with
  | none => rfl
  | some n =>
    unfold removexattrEdit removexattrRefusal editXattr
    simp only
    split
    · rename_i hcategories
      have hlenient : lenientXattrs.contains attrib = true := by
        rw [hcategories]
        decide
      exact (if_pos hlenient).symm
    rename_i hcategories
    split
    · rename_i hclass
      have hlenient : lenientXattrs.contains attrib = true := by
        rw [hclass]
        decide
      exact (if_pos hlenient).symm
    rename_i hclass
    split
    · rfl
    rename_i hstatus
    have hstrict : ¬ lenientXattrs.contains attrib = true := by
      simp only [lenientXattrs, List.contains_iff_mem, List.mem_cons, List.not_mem_nil, or_false]
      exact not_or.2 ⟨hcategories, not_or.2 ⟨hclass, hstatus⟩⟩
    split
    · rfl
    split <;> rfl

/-- The node whose file a call edits, and the edit. -/
def World.edit (cfg : Config Text) (w : World Text) :
    Op → Option (NodeId × (Icalcomponent → Icalcomponent))
  | .write path buf size offset =>
    if pathIsHidden path then none
    else (w.store.lookup path).map (·, (icalcomponentInsertDescription · buf size offset))
  | .setxattr path attrib value s _ =>
    (w.store.lookup path).bind fun n => (setxattrEdit cfg attrib value s).map (n, ·)
  | .removexattr path attrib =>
    (w.store.lookup path).bind fun n => (removexattrEdit attrib).map (n, ·)
  | _ => none

/-- The attribute is set in the file of the node that the path leads to. -/
theorem edit_setxattr {path attrib : CStr} {value : List UInt8} {s flags : Nat} {n n' : NodeId}
    {f : Icalcomponent → Icalcomponent} (hl : w.store.lookup path = some n)
    (hf : w.edit cfg (.setxattr path attrib value s flags) = some (n', f)) :
    n' = n ∧ setxattrEdit cfg attrib value s = some f := by
  simp only [World.edit, hl, Option.bind_some] at hf
  obtain ⟨g, hg, heq⟩ := Option.map_eq_some_iff.1 hf
  cases heq
  exact ⟨rfl, hg⟩

/-- The attribute is removed in the file of the node that the path leads to. -/
theorem edit_removexattr {path attrib : CStr} {n n' : NodeId}
    {f : Icalcomponent → Icalcomponent} (hl : w.store.lookup path = some n)
    (hf : w.edit cfg (.removexattr path attrib) = some (n', f)) :
    n' = n ∧ removexattrEdit attrib = some f := by
  simp only [World.edit, hl, Option.bind_some] at hf
  obtain ⟨g, hg, heq⟩ := Option.map_eq_some_iff.1 hf
  cases heq
  exact ⟨rfl, hg⟩

/-- The status of an edit that has been written. `fuse_write` returns the number
    of bytes, whatever the outcome. -/
def Op.editStatus (outcome : WriteOutcome Text) : Op → Int
  | .write _ _ size _ => intOfSize size
  | _ => outcome.status

/-- The attribute that a call sets or removes. -/
def Op.attrib : Op → Option CStr
  | .setxattr _ attrib _ _ _ => some attrib
  | .removexattr _ attrib => some attrib
  | _ => none

/-- What editing the file of a note can come to. -/
inductive Edited (cfg : Config Text) (w : World Text) (o : Op) : Int → World Text → Prop
  | rejected {status : Int} (h : w.edit cfg o = none) (hs : status < 0) : Edited cfg w o status w
  | noComponent {n : NodeId} {f : Icalcomponent → Icalcomponent} (h : w.edit cfg o = some (n, f))
      (hc : w.component cfg n = none) {attrib : CStr} (ha : o.attrib = some attrib)
      (hlenient : attrib ∈ lenientXattrs) : Edited cfg w o 0 w
  | written {n : NodeId} {f : Icalcomponent → Icalcomponent} {e : AgendaEntry} {c : Icalcomponent}
      (h : w.edit cfg o = some (n, f)) (he : w.store.entry n = some e)
      (hc : w.component cfg n = some c) :
      Edited cfg w o (o.editStatus w.outcome) (w.wrote cfg e.filenameVdir (f c))
  | notOpened {n : NodeId} {f : Icalcomponent → Icalcomponent} {e : AgendaEntry}
      (h : w.edit cfg o = some (n, f)) (he : w.store.entry n = some e)
      (hc : w.component cfg n = none) (ha : o.attrib = some (bytes "user.dtstart"))
      (ho : w.outcome = .openFailed) : Edited cfg w o (- EIO) w.writeTick

/-- Reading, editing and writing a note, whatever is done when it has no component. -/
theorem wp_edit {o : Op} {n : NodeId} {f : Icalcomponent → Icalcomponent} (hn : w.store.Live n)
    (h : w.edit cfg o = some (n, f)) (hstatus : o.editStatus w.outcome = w.outcome.status)
    {m : FsM Text Int}
    (hm : w.component cfg n = none → Prog.wp m (Edited cfg w o) Crash.Visible w) :
    Prog.wp (getIcalcomponentFromNode cfg n >>= fun component => match component with
      | none => m
      | some component => do
        let (res, _) ← writeIcalFile cfg n (f component)
        pure (intOfSize res)) (Edited cfg w o) Crash.Visible w := by
  refine wp_getIcalcomponentFromNode hn (fun _ _ hc => hc) fun _ => ?_
  cases hc : w.component cfg n with
  | none => exact hm hc
  | some c =>
    obtain ⟨e, he⟩ := exists_entry_of_component hc
    simp only
    rw [Prog.wp_bind_ok (writeIcalFile_run he _), (intOfSize_sizeOfInt_status w.outcome).2,
      ← hstatus]
    exact .written h he hc

/-- A note without component is not written. -/
theorem wp_writeNull {o : Op} {n : NodeId} {f : Icalcomponent → Icalcomponent}
    (hn : w.store.Live n) (h : w.edit cfg o = some (n, f)) (hc : w.component cfg n = none)
    (ha : o.attrib = some (bytes "user.dtstart")) :
    Prog.wp (writeNullIcalFile cfg n >>= fun res => pure (intOfSize res)) (Edited cfg w o)
      Crash.Visible w := by
  cases he : w.store.entry n with
  | none =>
    rw [Prog.wp_bind_error (writeNullIcalFile_root hn he)]
    exact .inr (.inl rfl)
  | some e =>
    have hrun : writeNullIcalFile cfg n w = _ := writeNullIcalFile_run he
    cases ho : w.outcome with
    | openFailed =>
      have hstatus : intOfSize (sizeOfInt (- EIO)) = - EIO :=
        (intOfSize_sizeOfInt_status (.openFailed : WriteOutcome Text)).2
      rw [ho] at hrun
      rw [Prog.wp_bind_ok hrun, hstatus]
      exact .notOpened h he hc ha ho
    | writeFailed left =>
      rw [ho] at hrun
      rw [Prog.wp_bind_error hrun]
      exact .inr (.inl rfl)
    | written =>
      rw [ho] at hrun
      rw [Prog.wp_bind_error hrun]
      exact .inr (.inl rfl)

theorem wp_fuseWrite (h : w.store.Inv) (path : CStr) (buf : List UInt8) (size offset : Nat) :
    Prog.wp (fuseWrite cfg path buf size offset) (Edited cfg w (.write path buf size offset))
      Crash.Visible w := by
  unfold fuseWrite
  split
  · rename_i hh
    exact .rejected (if_pos hh) (by decide)
  · rename_i hh
    refine wp_getNodeByPath h (fun _ => .inr (.inr rfl)) ?_
    cases hl : w.store.lookup path with
    | none =>
      refine .rejected ?_ (by decide)
      rw [World.edit, if_neg hh, hl]
      rfl
    | some n =>
      simp only
      refine wp_getIcalcomponentFromNode (h.live_of_lookup hl) (fun _ _ hc => hc) fun _ => ?_
      cases hc : w.component cfg n with
      | none => exact .inl rfl
      | some c =>
        obtain ⟨e, he⟩ := exists_entry_of_component hc
        simp only
        -- The result is a `size_t`, so the test `>= 0` always succeeds.
        rw [Prog.wp_bind_ok (writeIcalFile_run he _), if_pos (Nat.zero_le _)]
        refine .written (f := (icalcomponentInsertDescription · buf size offset)) ?_ he hc
        rw [World.edit, if_neg hh, hl]
        rfl

/-- Editing an attribute of the node at a path. -/
theorem wp_editXattrAt (h : w.store.Inv) {o : Op} {path attrib : CStr}
    {edit : Option (Icalcomponent → Icalcomponent)} {refusal : Int} (hrefusal : refusal < 0)
    (hedit : w.edit cfg o = (w.store.lookup path).bind fun n => edit.map (n, ·))
    (hattrib : o.attrib = some attrib) (hstatus : o.editStatus w.outcome = w.outcome.status) :
    Prog.wp (editXattrAt cfg path attrib edit refusal) (Edited cfg w o) Crash.Visible w := by
  unfold editXattrAt
  refine wp_getNodeByPath h (fun _ => .inr (.inr rfl)) ?_
  cases hl : w.store.lookup path with
  | none => exact .rejected (by rw [hedit, hl]; rfl) (by decide)
  | some n =>
    cases edit with
    | none => exact .rejected (by rw [hedit, hl]; rfl) hrefusal
    | some f =>
      have hf : w.edit cfg o = some (n, f) := by
        rw [hedit, hl]
        rfl
      have hn := h.live_of_lookup hl
      simp only
      unfold editXattr
      split
      · rename_i hlenient
        exact wp_edit hn hf hstatus fun hc =>
          .noComponent hf hc hattrib (List.contains_iff_mem.1 hlenient)
      · split
        · rename_i hdtstart
          rw [hdtstart] at hattrib
          exact wp_edit hn hf hstatus fun hc => wp_writeNull hn hf hc hattrib
        · exact wp_edit hn hf hstatus fun _ => .inl rfl

theorem wp_fuseSetxattr (h : w.store.Inv) (path attrib : CStr) (value : List UInt8)
    (s flags : Nat) :
    Prog.wp (fuseSetxattr cfg path attrib value s flags)
      (Edited cfg w (.setxattr path attrib value s flags)) Crash.Visible w := by
  by_cases hlen : 256 ≤ attrib.length ∨ 64 * 1024 ≤ (cString value).length
  · have hedit : setxattrEdit cfg attrib value s = none := if_pos hlen
    rw [fuseSetxattr_tooLong hlen]
    refine .rejected ?_ (by decide)
    rw [World.edit, hedit]
    cases w.store.lookup path <;> rfl
  · rw [fuseSetxattr_eq hlen]
    exact wp_editXattrAt h (refusal_neg attrib).1 rfl rfl rfl

theorem wp_fuseRemovexattr (h : w.store.Inv) (path attrib : CStr) :
    Prog.wp (fuseRemovexattr cfg path attrib) (Edited cfg w (.removexattr path attrib))
      Crash.Visible w := by
  rw [fuseRemovexattr_eq]
  exact wp_editXattrAt h (refusal_neg attrib).2 rfl rfl rfl

/-! ## Removing -/

/-- The state after a failed attempt to remove a file. -/
def World.removeTick (w : World Text) : World Text :=
  { w with env := { w.env with removes := w.env.removes.tail } }

/-- Whether removing a file of VDIR succeeds. -/
def World.removeSucceeds (cfg : Config Text) (w : World Text) (filenameVdir : CStr) : Bool :=
  w.env.removes.head?.getD true && (w.files (appendPath cfg.vdir filenameVdir)).isSome

/-- The state after a file of VDIR has been removed. -/
def World.fileRemoved (cfg : Config Text) (w : World Text) (filenameVdir : CStr) :
    World Text where
  store := w.store
  files f := if f = appendPath cfg.vdir filenameVdir then none else w.files f
  env := w.removeTick.env

/-- The state after a note has been removed with its file. -/
def World.removed (cfg : Config Text) (w : World Text) (n : NodeId) (filenameVdir : CStr) :
    World Text :=
  { w.fileRemoved cfg filenameVdir with store := w.store.delete n filenameVdir }

/-- What removing an entry can come to. -/
inductive Removed (cfg : Config Text) (w : World Text) (path : CStr) : Int → World Text → Prop
  | rejected {status : Int} (hs : status < 0) : Removed cfg w path status w
  | failed : Removed cfg w path (- EIO) w.removeTick
  | removed {n : NodeId} {e : AgendaEntry} (hn : w.store.lookup path = some n)
      (he : w.store.entry n = some e) (hc : w.store.links.children n = []) :
      Removed cfg w path 0 (w.removed cfg n e.filenameVdir)

theorem removeFile_run (filenameVdir : CStr) :
    removeFile (appendPath cfg.vdir filenameVdir) w =
      if w.removeSucceeds cfg filenameVdir then .ok (0, w.fileRemoved cfg filenameVdir)
      else .ok (-1, w.removeTick) := by
  unfold removeFile World.removeSucceeds
  rw [Prog.bind_run_ok (Prog.get_run w), Prog.bind_run_ok (Prog.modify_run _ w)]
  split <;> rfl

/-- `delete_vdir_entry` on a node without children. -/
theorem deleteVdirEntry_run (h : w.store.Inv) {n : NodeId} {e : AgendaEntry}
    (he : w.store.entry n = some e) (hc : w.store.links.children n = []) :
    deleteVdirEntry cfg n w =
      if w.removeSucceeds cfg e.filenameVdir then .ok (0, w.removed cfg n e.filenameVdir)
      else .ok (- EIO, w.removeTick) := by
  have hremove : removeFile (appendPath cfg.vdir e.filenameVdir) w = _ :=
    removeFile_run e.filenameVdir
  unfold deleteVdirEntry
  rw [Prog.bind_run_ok (onStore_run (getVdirFilepath_run he cfg.vdir))]
  change (removeFile _ >>= _) w = _
  split
  · rename_i hs
    rw [if_pos hs] at hremove
    rw [Prog.bind_run_ok hremove]
    change (onStore (deleteFuseNode n) >>= _) (w.fileRemoved cfg e.filenameVdir) = _
    rw [Prog.bind_run_ok (onStore_run (w := w.fileRemoved cfg e.filenameVdir)
      (deleteFuseNode_run h he hc))]
    rfl
  · rename_i hs
    rw [if_neg hs] at hremove
    rw [Prog.bind_run_ok hremove]
    rfl

/-- `delete_vdir_entry` on the root stops. -/
theorem deleteVdirEntry_root {n : NodeId} (hn : w.store.Live n) (he : w.store.entry n = none) :
    deleteVdirEntry cfg n w = .error .nullDereference := by
  unfold deleteVdirEntry
  rw [Prog.bind_run, onStore_error (getVdirFilepath_root hn he cfg.vdir)]

theorem wp_deleteVdirEntry (h : w.store.Inv) {path : CStr} {n : NodeId}
    (hl : w.store.lookup path = some n) (hc : w.store.links.children n = []) :
    Prog.wp (deleteVdirEntry cfg n) (Removed cfg w path) Crash.Visible w := by
  cases he : w.store.entry n with
  | none =>
    unfold Prog.wp
    rw [deleteVdirEntry_root (h.live_of_lookup hl) he]
    exact .inr (.inl rfl)
  | some e =>
    unfold Prog.wp
    rw [deleteVdirEntry_run h he hc]
    split <;> rename_i hs <;> split at hs <;> cases hs
    · exact .removed hl he hc
    · exact .failed

theorem children_of_not_directory {n : NodeId} (h : w.isDirectory cfg n = false) :
    w.store.links.children n = [] := by
  unfold World.isDirectory at h
  simp only [Bool.or_eq_false_iff, decide_eq_false_iff_not, not_not] at h
  exact h.1.2

theorem wp_fuseUnlink (h : w.store.Inv) (file : CStr) :
    Prog.wp (fuseUnlink cfg file) (Removed cfg w file) Crash.Visible w := by
  unfold fuseUnlink
  refine wp_getNodeByPath h (fun _ => .inr (.inr rfl)) ?_
  cases hl : w.store.lookup file with
  | none => exact .rejected (by decide)
  | some n =>
    have hn := h.live_of_lookup hl
    refine wp_getIcalcomponentFromNode hn (fun _ _ hc => hc) fun _ => ?_
    rw [Prog.wp_bind_ok (nodeIsDirectory_run hn)]
    split
    · exact .rejected (by decide)
    · rename_i hd
      exact wp_deleteVdirEntry h hl (children_of_not_directory (by simpa using hd))

theorem wp_fuseRmdir (h : w.store.Inv) (filepath : CStr) :
    Prog.wp (fuseRmdir cfg filepath) (Removed cfg w filepath) Crash.Visible w := by
  unfold fuseRmdir
  refine wp_getNodeByPath h (fun _ => .inr (.inr rfl)) ?_
  cases hl : w.store.lookup filepath with
  | none => exact .rejected (by decide)
  | some n =>
    have hn := h.live_of_lookup hl
    refine wp_getIcalcomponentFromNode hn (fun _ _ hc => hc) fun _ => ?_
    rw [Prog.wp_bind_ok (nodeIsDirectory_run hn)]
    split
    · rw [Prog.wp_bind_ok (onStore_run (nodeHasChildren_run hn))]
      split
      · exact .rejected (by decide)
      · rename_i hc
        exact wp_deleteVdirEntry h hl (by simpa using hc)
    · exact .rejected (by decide)

end Agendafs
