import Agendafs.Spec.CreatedNotes
import Agendafs.Spec.ListedXattrs

/-!
# Attributes of a created note

A note that has been created is found under its path, and its file holds a calendar of
one journal. Setting and removing attributes keeps this, as long as no write is cut
short: what such a write leaves is not noticed by the call, and need not parse.

## Key results

- `lookup_created`: a new note is found under its path
- `listed_iff_readable`: after any sequence of edits, what is listed is what is read
-/

namespace Agendafs

open Icalcomponent Store

variable {Text : Type} {cfg : Config Text} {w w₁ w' : World Text} {path attrib : CStr}
  {etype : EntryType} {p n : NodeId} {k : CStr}

/-! ## A new note -/

/-- A note that has been created is found under its path. -/
theorem lookup_created (h : w.store.Inv) (hp : w.createParent cfg path = some p) :
    (w.created cfg path etype p).store.lookup path = some w.store.nextId := by
  unfold World.createParent at hp
  split at hp
  · cases hp
  rename_i hr
  obtain ⟨hfound, _⟩ := Option.filter_eq_some_iff.1 hp
  obtain ⟨parent, hparent, hdir⟩ := Option.bind_eq_some_iff.1 hfound
  have hfree : w.store.lookup path = none :=
    Option.not_isSome_iff_eq_none.1 fun hsome => hr (.inr (.inl hsome))
  have hsplit := splitPath_eq_parent hparent
  -- A path without a last name is that of its parent.
  have hname : getFilename path ≠ [] := by
    intro hnil
    rw [hnil, if_pos rfl, List.append_nil] at hsplit
    rw [Store.lookup, hsplit] at hfree
    rw [Store.lookup] at hdir
    cases hfree.symm.trans hdir
  rw [if_neg hname] at hsplit
  have hnew : (w.store.create (w.newEntry path)).Live w.store.nextId :=
    (create_live ..).2 (.inl rfl)
  have hlive : (w.store.create (w.newEntry path)).Live p :=
    (create_live ..).2 (.inr (h.live_of_lookup hdir))
  have hself : (w.store.create (w.newEntry path)).name w.store.nextId = getFilename path := by
    rw [name, create_entry, if_pos rfl]
    rfl
  have hothers : ∀ q, ∀ d ∈ w.store.links.children q,
      (w.store.create (w.newEntry path)).name d = w.store.name d := fun q d hd => by
    have hne : d ≠ w.store.nextId := fun heq => h.not_live_nextId (heq ▸ h.live_child hd)
    rw [name, name, create_entry, if_neg hne]
  have hlinks : (w.created cfg path etype p).store.links =
      w.store.links.attach p w.store.nextId := by
    have hattach := links_attach hlive hnew
    rw [h.links_create] at hattach
    exact hattach
  have hnames : (w.created cfg path etype p).store.name =
      (w.store.create (w.newEntry path)).name := attach_name _ _ _
  unfold Store.lookup at hdir hfree ⊢
  rw [hsplit, ← hself] at hfree ⊢
  rw [hlinks, hnames]
  exact Links.resolve_attach_self hothers hdir hfree

theorem wrote_written_file (hL : cfg.ical.Faithful) (ho : w.outcome = .written) (k : CStr)
    (ic : Icalcomponent) :
    (w.wrote cfg k ic).fileComponent cfg k = some (stamp w.now ic).withoutEmpty := by
  have hholds : (w.wrote cfg k ic).Holds cfg k (stamp w.now ic) := holds_wrote k ic ho
  obtain ⟨f, hf, hcontent⟩ := hholds
  unfold World.fileComponent
  rw [hf, Option.bind_some, hcontent]
  exact hL.newFromString_asIcalString _

/-- A new note has a UID and no other attributes than the built-in ones. -/
theorem attributed_newNote (huuid : w.env.uuid.length = 36) (path : CStr) (etype : EntryType)
    (p : NodeId) : Attributed (w.newNote cfg path etype p) := by
  rw [newNote_eq, newComponent_eq]
  have hrelated : KeepsAttributes (related (w.component cfg p)) := fun κ q hq hκ =>
    keeps_related _ fun uid => hq.eq_false fun heq : PropertyKind.relatedTo = κ => by
      rw [← heq] at hκ
      exact absurd hκ (by decide)
  refine Attributed.of_keeps ?_ hrelated
  -- A UID is the UUID of 36 characters and a suffix.
  have hid : w.newId ≠ [] ∧ w.newId.length < 64 * 1024 := by
    unfold World.newId createNewUniqueIcsUid
    rw [List.length_append, huuid]
    refine ⟨fun hnil => ?_, by decide⟩
    exact absurd (List.append_eq_nil_iff.1 hnil).2 (by decide)
  cases etype with
  | file => exact attributed_of_uid rfl rfl rfl hid.1 hid.2 rfl rfl
  | directory => exact attributed_of_uid rfl rfl rfl hid.1 hid.2 rfl rfl

/-- The path leads to a note with attributes. -/
structure World.AttributedAt (cfg : Config Text) (w : World Text) (path : CStr) (n : NodeId)
    (k : CStr) : Prop extends w.OpensAt cfg path n k where
  note : ∃ c, w.fileComponent cfg k = some c ∧ Attributed c

/-- A path with too many segments is not created. -/
theorem segments_of_created (h : w.store.Inv) {r : Int × World Text}
    (hvisible : pathIsHidden path = false) (hrun : createNew cfg path etype w = .ok r) :
    (splitPath path).length ≤ 255 := by
  by_contra hlen
  have hnode := getNodeByPath_tooDeep h hlen
  unfold createNew at hrun
  rw [hvisible, if_neg Bool.false_ne_true, Prog.bind_run_error hnode] at hrun
  cases hrun

/-- A creation leaves a note with attributes. -/
theorem attributedAt_created (hL : cfg.ical.Faithful) (h : w.store.Inv)
    (hfresh : w.FreshUuid cfg) (huuid : w.env.uuid.length = 36)
    (hcreate : createNew cfg path etype w = .ok (0, w₁)) (hwritten : w.outcome = .written) :
    ∃ n k, w₁.AttributedAt cfg path n k := by
  have hc : Created cfg w path etype 0 w₁ :=
    (wp_createNew (E := fun _ => True) h hfresh (fun _ _ _ => trivial) etype).ok hcreate
  rcases hc.cases with ⟨p, hp, _, rfl⟩ | ⟨_, hs, _⟩
  · have hvisible : pathIsHidden path = false := by
      unfold World.createParent at hp
      split at hp
      · cases hp
      · rename_i hr
        exact eq_false_of_ne_true fun hh => hr (.inl hh)
    have hentry : (w.created cfg path etype p).store.entry w.store.nextId =
        some (w.newEntry path) := by
      refine (attach_entry ..).trans ((create_entry ..).trans (if_pos rfl))
    refine ⟨w.store.nextId, (w.newEntry path).filenameVdir,
      ⟨segments_of_created h hvisible hcreate, lookup_created h hp, ?_, ?_⟩, _,
      wrote_written_file (w := w.allocated path) hL hwritten _ _,
      (attributed_newNote huuid path etype p).rewritten _⟩
    · rw [hentry]
      rfl
    -- The file is new, so it can be read.
    · have hfiles : (w.created cfg path etype p).files =
          writtenFiles w.files (appendPath cfg.vdir (w.newEntry path).filenameVdir)
            (cfg.ical.asIcalString (w.createdNote cfg path etype p)) := by
        change ((w.allocated path).wrote cfg _ _).files = _
        unfold World.wrote
        rw [show (w.allocated path).outcome = .written from hwritten]
        rfl
      refine ⟨_, by rw [hfiles, writtenFiles, if_pos rfl], ?_⟩
      have hnone : w.files (appendPath cfg.vdir (w.newEntry path).filenameVdir) = none :=
        hfresh.no_file
      rw [hnone]
      rfl
  · exact absurd hs (Int.lt_irrefl 0)

/-! ## Runs of edits -/

/-- Attributes of the note at a path are set and removed, each time in a state that
    satisfies `G`, while the clock and the disk change. The name of an attribute is a C string. -/
inductive XattrEdits (cfg : Config Text) (path : CStr) (G : World Text → Prop) (w : World Text) :
    World Text → Prop
  | refl : XattrEdits cfg path G w w
  | environment {v : World Text} (h : XattrEdits cfg path G w v) (env : Environment Text) :
      XattrEdits cfg path G w { v with env := env }
  | set {v v' : World Text} {attrib : CStr} {value : List UInt8} {s flags : Nat} {status : Int}
      (h : XattrEdits cfg path G w v) (hG : G v) (hattrib : (0 : UInt8) ∉ attrib)
      (hrun : fuseSetxattr cfg path attrib value s flags v = .ok (status, v')) :
      XattrEdits cfg path G w v'
  | remove {v v' : World Text} {attrib : CStr} {status : Int} (h : XattrEdits cfg path G w v)
      (hG : G v) (hrun : fuseRemovexattr cfg path attrib v = .ok (status, v')) :
      XattrEdits cfg path G w v'

/-- A file that is opened is written to its end. -/
def WriteOutcome.isWhole : WriteOutcome Text → Bool
  | .writeFailed _ => false
  | _ => true

/-- The next write is not cut short. -/
def World.WritesWhole (w : World Text) : Prop := w.outcome.isWhole = true

/-- An edit of the note that keeps it a note with attributes. -/
theorem World.AttributedAt.edited (hL : cfg.ical.Faithful) (hn : w.AttributedAt cfg path n k)
    {o : Op} {status : Int} (hwhole : w.WritesWhole)
    (hedit : ∀ n' f, w.edit cfg o = some (n', f) →
      n' = n ∧ ∀ c, Attributed c → Attributed (f c))
    (hedited : Edited cfg w o status w') : w'.AttributedAt cfg path n k := by
  cases hedited with
  | rejected => exact hn
  | noComponent => exact hn
  | notOpened => exact ⟨⟨hn.segments, hn.found, hn.file, hn.readable⟩, hn.note⟩
  | @written _ f e c hf he hc =>
    obtain ⟨rfl, hkeeps⟩ := hedit _ _ hf
    obtain ⟨e', he', hk⟩ := hn.entry
    cases he'.symm.trans he
    rw [hn.component] at hc
    obtain ⟨c', hc', hnote⟩ := hn.note
    cases hc'.symm.trans hc
    refine ⟨hk ▸ hn.toOpensAt.wrote (f c), ?_⟩
    rw [hk]
    cases ho : w.outcome with
    | written => exact ⟨_, wrote_written_file hL ho k (f c), (hkeeps c hnote).rewritten _⟩
    -- The file stays as it was.
    | openFailed => exact ⟨c, (fileComponent_openFailed ho k (f c)).trans hc, hnote⟩
    -- This is the case that `WritesWhole` leaves out.
    | writeFailed left =>
      unfold World.WritesWhole at hwhole
      rw [ho] at hwhole
      cases hwhole

/-- Every edit of attributes leaves a note with attributes. -/
theorem attributedAt_of_edits (hL : cfg.ical.Faithful) (h : w.store.Inv)
    (hn : w.AttributedAt cfg path n k) (hedits : XattrEdits cfg path World.WritesWhole w w') :
    w'.store.Inv ∧ w'.AttributedAt cfg path n k := by
  -- Induction on the run; the store stays the same, and the note stays one with attributes.
  induction hedits with
  | refl => exact ⟨h, hn⟩
  | environment _ env ih =>
    obtain ⟨hinv, hv⟩ := ih
    exact ⟨hinv, ⟨⟨hv.segments, hv.found, hv.file, hv.readable⟩, hv.note⟩⟩
  | @set v v' attrib value s flags status _ hwhole hattrib hrun ih =>
    obtain ⟨hinv, hv⟩ := ih
    have hedited := (wp_fuseSetxattr hinv path attrib value s flags).ok hrun
    refine ⟨Edited.store hedited ▸ hinv, hv.edited hL hwhole (fun n' f hf => ?_) hedited⟩
    obtain ⟨hnode, hset⟩ := edit_setxattr hv.found hf
    exact ⟨hnode, fun c hc => attributed_setxattrEdit hc hattrib hset⟩
  | @remove v v' attrib status _ hwhole hrun ih =>
    obtain ⟨hinv, hv⟩ := ih
    have hedited := (wp_fuseRemovexattr hinv path attrib).ok hrun
    refine ⟨Edited.store hedited ▸ hinv, hv.edited hL hwhole (fun n' f hf => ?_) hedited⟩
    obtain ⟨hnode, hremove⟩ := edit_removexattr hv.found hf
    exact ⟨hnode, fun c hc => attributed_removexattrEdit hc hremove⟩

/-! ## What the calls tell of the note -/

/-- The names that are listed in a buffer of the right size are those that are read, each once. -/
def ListedAsRead (cfg : Config Text) (w : World Text) (path : CStr) : Prop :=
  ∃ names : List CStr, names.Nodup ∧ (∀ a ∈ names, (0 : UInt8) ∉ a) ∧
    (∀ list behind, ∃ r,
      fuseListxattr cfg path list (nameList names).length behind w = .ok (r, w) ∧
        r.copied = (nameList names).length ∧
        r.list.take (nameList names).length = nameList names) ∧
    ∀ a buf s, ∃ r, fuseGetxattr cfg path a buf s w = .ok (r, w) ∧ (r.1 ≠ -ENODATA ↔ a ∈ names)

theorem listedAsRead (hL : cfg.ical.Faithful) (h : w.store.Inv)
    (hn : w.AttributedAt cfg path n k) : ListedAsRead cfg w path := by
  obtain ⟨c, hc, hnote⟩ := hn.note
  have hcomponent : w.component cfg n = some c := hn.component.trans hc
  refine ⟨listedXattrs cfg c, hnote.nodup_listedXattrs, fun a ha => hnote.string_of_listed ha,
    fun list behind => ?_, fun a buf s => ?_⟩
  · have hrun := fuseListxattr_run h hn.readsAt hcomponent list
      (nameList (listedXattrs cfg c)).length behind
    rw [listCopied_self] at hrun
    refine ⟨_, hrun, rfl, ?_⟩
    dsimp only
    unfold memcpy
    rw [List.take_left, List.take_left]
  · rw [fuseGetxattr_run h hn.readsAt, hcomponent, hnote.mem_listedXattrs_iff a]
    unfold getxattrResult
    rw [Option.bind_some]
    cases hvalue : xattrOf cfg c a with
    | none =>
      -- The UID is always there, so the assertion does not fail.
      have huid : a ≠ bytes "user.uid" := by
        rintro rfl
        have hlisted : (xattrOf cfg c (bytes "user.uid")).isSome :=
          (hnote.mem_listedXattrs_iff _).1 (mem_listedXattrs.2 (.inr (.inr (.inl rfl))))
        rw [hvalue] at hlisted
        cases hlisted
      simp only [if_neg huid]
      exact ⟨_, rfl, by simp⟩
    | some value =>
      refine ⟨_, rfl, iff_of_true ?_ rfl⟩
      have hlength := intOfSize_eq_iff.2 (hnote.length_xattrOf hL hvalue)
      rw [handValue_fst, hlength]
      -- A length is never negative.
      have hnodata : (-ENODATA : Int) < 0 := by decide
      omega

/-- After a note has been created and any attributes of it have been set and removed, the names
    that are listed are those that are read, each once, if no write was cut short. -/
theorem listed_iff_readable (hL : cfg.ical.Faithful) (h : Reachable cfg w)
    (hv : (etype.op path).Valid cfg w) (huuid : w.env.uuid.length = 36)
    (hcreate : exec cfg (etype.op path) w = .ok (0, w₁)) (hwritten : w.outcome = .written)
    (hedits : XattrEdits cfg path World.WritesWhole w₁ w') : ListedAsRead cfg w' path := by
  have hinv := h.sound.toInv
  have hfresh : w.FreshUuid cfg := by cases etype <;> exact hv
  have hcreate' : createNew cfg path etype w = .ok (0, w₁) := by cases etype <;> exact hcreate
  have hsound : w₁.store.Inv := by
    have hc : Created cfg w path etype 0 w₁ := by
      cases etype <;> exact exec_effect h.sound hv hcreate
    exact (hc.sound h.sound hfresh).toInv
  obtain ⟨n, k, hn⟩ := attributedAt_created hL hinv hfresh huuid hcreate' hwritten
  obtain ⟨hinv', hn'⟩ := attributedAt_of_edits hL hsound hn hedits
  exact listedAsRead hL hinv' hn'

/-! ## A write that is cut short -/

/-- A libical that returns what it was given but for the empty texts. Its files may be broken. -/
def boxedIcal : Libical (Option Icalcomponent) where
  asIcalString c := some c.withoutEmpty
  newFromString t := t
  valueAsString v := v
  timeFromString v := if v = [] then none else some (v.take 20)

theorem boxedIcal_faithful : boxedIcal.Faithful where
  newFromString_asIcalString _ := rfl
  length_valueAsString v := by
    change v.length ≤ _
    omega
  length_timeFromString {v time} h := by
    simp only [boxedIcal] at h
    split at h
    · cases h
    · cases h
      exact List.length_take_le ..

def boxedConfig : Config (Option Icalcomponent) where
  ical := boxedIcal
  vdir := bytes "/vdir"
  fileExtension := bytes "txt"

/-- The program before its load of an empty directory. -/
def boxedStart : World (Option Icalcomponent) where
  store := { heap := fun _ => none, nextId := 0, fuseRoot := 0, entriesVdir := Hashmap.new }
  files := fun _ => none
  env := {}

/-- The mount of an empty directory, where the second of the coming writes ends as given. -/
def boxedMount (second : WriteOutcome (Option Icalcomponent)) : World (Option Icalcomponent) :=
  let w := (loadRootNodeTree boxedConfig (some [])).final boxedStart
  { store := w.store
    files := w.files
    env := { uuid := bytes "6f1c2a9e-0d4b-4c57-9a38-5b7e2d10c4f3", writes := [.written, second] } }

theorem reachable_boxedMount (second : WriteOutcome (Option Icalcomponent)) :
    Reachable boxedConfig (boxedMount second) := by
  obtain ⟨_, hrun, _⟩ := Prog.run_of_check (m := loadRootNodeTree boxedConfig (some []))
    (s := boxedStart) (f := fun _ _ => true) (by decide +kernel)
  have hlisting : ValidListing ((some ([] : List Dirent)).getD []) :=
    ⟨List.nodup_nil, fun d hd => absurd hd List.not_mem_nil⟩
  exact .external _ _ (.load (fun _ => rfl) hlisting trivial hrun)

/-- The state after a note has been created there. -/
def boxedNote (second : WriteOutcome (Option Icalcomponent)) : World (Option Icalcomponent) :=
  (exec boxedConfig (.create (bytes "/Note.txt"))).final (boxedMount second)

/-- The state after an attribute of the note has been set. -/
def boxedEdited (second : WriteOutcome (Option Icalcomponent)) : World (Option Icalcomponent) :=
  (fuseSetxattr boxedConfig (bytes "/Note.txt") (bytes "user.color") (bytes "red" ++ [0]) 3 0).final
    (boxedNote second)

section Boxed

variable {second : WriteOutcome (Option Icalcomponent)}

theorem boxedNote_run (h : (exec boxedConfig (.create (bytes "/Note.txt"))).check
      (boxedMount second) (fun status _ => decide (status = 0)) = true) :
    exec boxedConfig (EntryType.file.op (bytes "/Note.txt")) (boxedMount second) =
      .ok (0, boxedNote second) := by
  obtain ⟨status, hrun, hstatus⟩ := Prog.run_of_check h
  rw [of_decide_eq_true hstatus] at hrun
  exact hrun

theorem boxedEdited_edits {G : World (Option Icalcomponent) → Prop} (hG : G (boxedNote second))
    (h : (fuseSetxattr boxedConfig (bytes "/Note.txt") (bytes "user.color") (bytes "red" ++ [0]) 3
      0).check (boxedNote second) (fun _ _ => true) = true) :
    XattrEdits boxedConfig (bytes "/Note.txt") G (boxedNote second) (boxedEdited second) := by
  obtain ⟨status, hrun, _⟩ := Prog.run_of_check h
  exact .set .refl hG (by decide) hrun

end Boxed

/-- Both writes succeed. -/
theorem listed_iff_readable_boxed :
    ListedAsRead boxedConfig (boxedEdited .written) (bytes "/Note.txt") :=
  have valid : (EntryType.file.op (bytes "/Note.txt")).Valid boxedConfig (boxedMount .written) :=
    ⟨by decide, by decide +kernel, by decide +kernel⟩
  have whole : (boxedNote .written).WritesWhole := by
    unfold World.WritesWhole
    decide +kernel
  listed_iff_readable boxedIcal_faithful (reachable_boxedMount .written) valid
    (by decide +kernel) (boxedNote_run (by decide +kernel)) rfl
    (boxedEdited_edits whole (by decide +kernel))

/-- After a write that was cut short the note has no UID to be read. -/
theorem not_all_listed_as_read :
    ¬ ∀ (w w₁ w' : World (Option Icalcomponent)) (path : CStr) (etype : EntryType),
      Reachable boxedConfig w → (etype.op path).Valid boxedConfig w → w.env.uuid.length = 36 →
      exec boxedConfig (etype.op path) w = .ok (0, w₁) → w.outcome = .written →
      XattrEdits boxedConfig path (fun _ => True) w₁ w' → ListedAsRead boxedConfig w' path := by
  intro hall
  obtain ⟨names, _, _, _, hreads⟩ := hall (boxedMount (.writeFailed none))
    (boxedNote (.writeFailed none)) (boxedEdited (.writeFailed none)) (bytes "/Note.txt") .file
    (reachable_boxedMount _) ⟨by decide, by decide +kernel, by decide +kernel⟩
    (by decide +kernel) (boxedNote_run (by decide +kernel)) rfl
    (boxedEdited_edits trivial (by decide +kernel))
  obtain ⟨r, hr, _⟩ := hreads (bytes "user.uid") [] 0
  have hcheck : (fuseGetxattr boxedConfig (bytes "/Note.txt") (bytes "user.uid") [] 0
      (boxedEdited (.writeFailed none))).toOption.isNone = true := by decide +kernel
  rw [hr] at hcheck
  cases hcheck

end Agendafs
