import Agendafs.Spec.ListedXattrs
import Agendafs.Spec.ReadsAndWrites

/-!
# What an edit of a note cannot touch

`fuse_write`, `fuse_setxattr` and `fuse_removexattr` edit one property of the
note: the description, one of four properties that have an attribute of their
own, or an X property whose name is the key of the attribute behind the custom
prefix. No name with that prefix is one the program keeps for itself, so title,
UID, place in the tree and kind of the note stay what they were.

## Key results

- `keeps_noteEdit`: what no edit changes
- `edits_keep_identity`
-/

namespace Agendafs

open Icalcomponent Store

variable {Text : Type} {cfg : Config Text} {w w' : World Text} {c c' : Icalcomponent} {o : Op}
  {f : Icalcomponent → Icalcomponent} {q : Icalproperty → Bool} {κ : PropertyKind}

/-! ## The edit of a call -/

/-- The edit that a call makes in the note it is about. -/
def Op.noteEdit (cfg : Config Text) : Op → Option (Icalcomponent → Icalcomponent)
  | .write _ buf size offset => some (icalcomponentInsertDescription · buf size offset)
  | .setxattr _ attrib value s _ => setxattrEdit cfg attrib value s
  | .removexattr _ attrib => removexattrEdit attrib
  | _ => none

/-- The attributes that are kept in a property of their own kind. -/
def ownKindXattrs : List CStr :=
  [bytes "user.dtstart", bytes "user.categories", bytes "user.class", bytes "user.status"]

/-- The custom key that a call sets or removes. -/
def Op.writtenKey : Op → Option CStr
  | .setxattr _ attrib _ _ _ | .removexattr _ attrib =>
    if ownKindXattrs.contains attrib then none else some (attrib.drop 5)
  | _ => none

/-- The kinds of the properties that have an attribute of their own. -/
def xattrKinds : List PropertyKind := [.dtstart, .categories, .classification, .status]

/-- The kinds of the properties that have a call or an attribute of their own. -/
def editedKinds : List PropertyKind :=
  [.description, .dtstart, .categories, .classification, .status]

theorem noteEdit_of_edit {n : NodeId} (h : w.edit cfg o = some (n, f)) :
    o.noteEdit cfg = some f := by
  cases o with
  | write path buf size offset =>
    simp only [World.edit] at h
    split at h
    · cases h
    · obtain ⟨m, _, hm⟩ := Option.map_eq_some_iff.1 h
      cases hm
      rfl
  | setxattr path attrib value s flags =>
    obtain ⟨m, _, hm⟩ := Option.bind_eq_some_iff.1 h
    obtain ⟨g, hg, hpair⟩ := Option.map_eq_some_iff.1 hm
    cases hpair
    exact hg
  | removexattr path attrib =>
    obtain ⟨m, _, hm⟩ := Option.bind_eq_some_iff.1 h
    obtain ⟨g, hg, hpair⟩ := Option.map_eq_some_iff.1 hm
    cases hpair
    exact hg
  | _ => cases h

/-! ## What no edit changes -/

/-- Setting an attribute keeps the properties of other kinds, and the X properties of other
    names. -/
theorem keeps_setxattrEdit {attrib : CStr} {value : List UInt8} {s : Nat}
    (hf : setxattrEdit cfg attrib value s = some f) (hq : OnlyKind κ q) (hκ : κ ∉ xattrKinds)
    (hx : attrib ∉ ownKindXattrs → ∀ p, isXProp (customKey attrib) p = true → q p = false) :
    Keeps q f := by
  have hkind : ∀ κ' ∈ xattrKinds, ∀ p : Icalproperty, p.kind = κ' → q p = false :=
    fun κ' hmem p hp => hq.eq_false fun h => hκ (by rw [← h, hp]; exact hmem)
  unfold setxattrEdit at hf
  split at hf
  · cases hf
  split at hf
  · cases hf
  split at hf
  · split at hf
    · cases hf
      exact Keeps.removeFirst fun p hp => hkind .dtstart (by decide) p (by simpa using hp)
    · obtain ⟨time, _, rfl⟩ := Option.map_eq_some_iff.1 hf
      exact (Keeps.setFirstProperty (hkind .dtstart (by decide))).modifyInner
  rename_i hdtstart
  split at hf
  · cases hf
    exact keeps_withCategories hq (fun h => hκ (by rw [h]; decide)) value s
  rename_i hcategories
  split at hf
  · split at hf
    · cases hf
    · cases hf
      exact (Keeps.setExistingProperty (hkind .classification (by decide))).modifyInner
  rename_i hclass
  split at hf
  · split at hf
    · cases hf
    · cases hf
      exact (Keeps.setFirstProperty (hkind .status (by decide))).modifyInner
  rename_i hstatus
  split at hf
  · cases hf
    -- No attribute with a kind of its own is left.
    have hcustom : attrib ∉ ownKindXattrs := by
      simp [ownKindXattrs, hdtstart, hcategories, hclass, hstatus]
    exact keeps_setUniqueXValue (hx hcustom) _
  · cases hf

/-- Removing an attribute does so as well. -/
theorem keeps_removexattrEdit {attrib : CStr} (hf : removexattrEdit attrib = some f)
    (hq : OnlyKind κ q) (hκ : κ ∉ xattrKinds)
    (hx : attrib ∉ ownKindXattrs → ∀ p, isXProp (customKey attrib) p = true → q p = false) :
    Keeps q f := by
  have hkind : ∀ κ' ∈ xattrKinds, ∀ p : Icalproperty, p.kind = κ' → q p = false :=
    fun κ' hmem p hp => hq.eq_false fun h => hκ (by rw [← h, hp]; exact hmem)
  unfold removexattrEdit at hf
  split at hf
  · cases hf
    exact keeps_withCategories hq (fun h => hκ (by rw [h]; decide)) [] 0
  rename_i hcategories
  split at hf
  · cases hf
    exact (Keeps.removeFirst fun p hp =>
      hkind .classification (by decide) p (by simpa using hp)).modifyInner
  rename_i hclass
  split at hf
  · cases hf
  rename_i hstatus
  split at hf
  · cases hf
    exact Keeps.removeFirst fun p hp => hkind .dtstart (by decide) p (by simpa using hp)
  rename_i hdtstart
  split at hf
  · cases hf
    have hcustom : attrib ∉ ownKindXattrs := by
      simp [ownKindXattrs, hdtstart, hcategories, hclass, hstatus]
    exact (Keeps.removeFirst (hx hcustom)).modifyInnermost
  · cases hf

/-- What no edit of a note changes: properties of kinds without a call of their own, and X
    properties of any name but that of the key that is written. -/
theorem keeps_noteEdit (hf : o.noteEdit cfg = some f) (hq : OnlyKind κ q) (hκ : κ ∉ editedKinds)
    (hx : ∀ key, o.writtenKey = some key →
      ∀ p, isXProp (customPropertyPrefix ++ key) p = true → q p = false) : Keeps q f := by
  have hxattr : κ ∉ xattrKinds := fun h => hκ (List.mem_cons_of_mem _ h)
  cases o with
  | write path buf size offset =>
    cases hf
    exact keeps_insertDescription (fun p hp => hq.eq_false fun h => hκ (by rw [← h, hp]; decide))
      buf size offset
  | setxattr path attrib value s flags =>
    exact keeps_setxattrEdit hf hq hxattr fun hcustom => hx _ (if_neg (by simpa using hcustom))
  | removexattr path attrib =>
    exact keeps_removexattrEdit hf hq hxattr fun hcustom => hx _ (if_neg (by simpa using hcustom))
  | _ => cases hf

/-- The X properties of a name that no call writes. -/
theorem keeps_xProp (hf : o.noteEdit cfg = some f) {key : CStr}
    (hkey : ∀ written, o.writtenKey = some written → key ≠ customPropertyPrefix ++ written) :
    Keeps (isXProp key) f :=
  keeps_noteEdit hf (onlyKind_isXProp key) (by decide) fun written hwritten p hp => by
    unfold isXProp at hp ⊢
    have hname := (of_decide_eq_true hp).2
    exact decide_eq_false fun h => hkey written hwritten (h.2.symm.trans hname)

/-- A name the program keeps for itself does not begin like a custom one. -/
theorem reserved_ne_custom {key : CStr} (h : startsWithStr key customPropertyPrefix = false)
    (written : CStr) : key ≠ customPropertyPrefix ++ written := by
  rintro rfl
  rw [startsWithStr_iff.2 ⟨written, rfl⟩] at h
  cases h

/-! ## The identity of a note -/

/-- What makes a note the same note in the same place. -/
structure SameIdentity (cfg : Config Text) (c c' : Icalcomponent) : Prop where
  uid : c'.getUid = c.getUid
  summary : c'.getSummary = c.getSummary
  /-- The RELATED-TO properties of every subcomponent the program looks at, and of `c` itself. -/
  relations : ∀ P, c'.view P (·.kind = .relatedTo) = c.view P (·.kind = .relatedTo)
  ownRelations : c'.properties.filter (·.kind = .relatedTo) =
    c.properties.filter (·.kind = .relatedTo)
  directoryFlag : icalcomponentGetUniqXValue cfg.ical c' isDirectoryProperty =
    icalcomponentGetUniqXValue cfg.ical c isDirectoryProperty
  extension : icalcomponentGetUniqXValue cfg.ical c' fileExtensionProperty =
    icalcomponentGetUniqXValue cfg.ical c fileExtensionProperty
  parent : getParentUid cfg.ical c' = getParentUid cfg.ical c
  directory : isDirectoryComponent cfg.ical c' = isDirectoryComponent cfg.ical c
  entry : ∀ vdirFilepath, agendaEntryOf cfg vdirFilepath c' = agendaEntryOf cfg vdirFilepath c

theorem SameIdentity.refl (cfg : Config Text) (c : Icalcomponent) : SameIdentity cfg c c :=
  ⟨rfl, rfl, fun _ => rfl, rfl, rfl, rfl, rfl, rfl, fun _ => rfl⟩

theorem SameIdentity.trans {a b d : Icalcomponent} (h : SameIdentity cfg a b)
    (h' : SameIdentity cfg b d) : SameIdentity cfg a d where
  uid := h'.uid.trans h.uid
  summary := h'.summary.trans h.summary
  relations P := (h'.relations P).trans (h.relations P)
  ownRelations := h'.ownRelations.trans h.ownRelations
  directoryFlag := h'.directoryFlag.trans h.directoryFlag
  extension := h'.extension.trans h.extension
  parent := h'.parent.trans h.parent
  directory := h'.directory.trans h.directory
  entry path := (h'.entry path).trans (h.entry path)

/-- An edit that keeps relations, title, UID and the two reserved X properties keeps the note. -/
theorem sameIdentity_of_keeps (hkind : ∀ κ, κ = .uid ∨ κ = .summary → Keeps (·.kind = κ) f)
    (hrelation : ∀ q, OnlyKind .relatedTo q → Keeps q f)
    (hx : ∀ key, startsWithStr key customPropertyPrefix = false → Keeps (isXProp key) f)
    (c : Icalcomponent) : SameIdentity cfg c (f c) := by
  have hvalue : ∀ key, startsWithStr key customPropertyPrefix = false →
      icalcomponentGetUniqXValue cfg.ical (f c) key = icalcomponentGetUniqXValue cfg.ical c key :=
    fun key hkey => by
      rw [icalcomponentGetUniqXValue_eq, icalcomponentGetUniqXValue_eq, (hx key hkey).view]
  have hdirectory : isDirectoryComponent cfg.ical (f c) = isDirectoryComponent cfg.ical c := by
    rw [isDirectoryComponent_eq, isDirectoryComponent_eq, hvalue _ (by decide),
      (hrelation _ (onlyKind_hasReltype _)).view]
  have hsummary : (f c).getSummary = c.getSummary := (hkind .summary (.inr rfl)).getText c
  refine ⟨(hkind .uid (.inl rfl)).getText c, hsummary,
    fun P => (hrelation _ (onlyKind_kind _)).view P c,
    (hrelation _ (onlyKind_kind _)).own c, hvalue _ (by decide), hvalue _ (by decide), ?_,
    hdirectory, fun path => ?_⟩
  · rw [getParentUid_eq, getParentUid_eq, (hrelation _ (onlyKind_hasReltype _)).view]
  · -- The name is made of the title, the kind and the extension.
    have hnote : IsNote (f c) ↔ IsNote c := by
      unfold IsNote
      rw [(hkind .uid (.inl rfl)).kinds c]
    have hshown : shownFilename cfg (f c) = shownFilename cfg c := by
      unfold shownFilename icalcomponentGetFileExtension
      rw [hdirectory, hvalue _ (by decide)]
    rw [agendaEntryOf_eq, agendaEntryOf_eq, hsummary, hshown]
    exact if_congr hnote rfl rfl

theorem sameIdentity_noteEdit (hf : o.noteEdit cfg = some f) (c : Icalcomponent) :
    SameIdentity cfg c (f c) := by
  have hnotX : ∀ {κ q}, OnlyKind κ q → κ ≠ .x → ∀ key p,
      isXProp (customPropertyPrefix ++ key) p = true → q p = false := fun hq hκ key p hp =>
    hq.eq_false fun h => hκ (h.symm.trans (onlyKind_isXProp _ p hp))
  refine sameIdentity_of_keeps (fun κ hκ => ?_) (fun q hq => ?_) (fun key hkey => ?_) c
  · rcases hκ with rfl | rfl
    · exact keeps_noteEdit hf (onlyKind_kind _) (by decide) fun key _ =>
        hnotX (onlyKind_kind _) (by decide) key
    · exact keeps_noteEdit hf (onlyKind_kind _) (by decide) fun key _ =>
        hnotX (onlyKind_kind _) (by decide) key
  · exact keeps_noteEdit hf hq (by decide) fun key _ => hnotX hq (by decide) key
  · exact keeps_xProp hf fun written _ => reserved_ne_custom hkey written

/-- The stamp of `write_ical_file` keeps the note as well. -/
theorem sameIdentity_stamp (now : CStr) (c : Icalcomponent) : SameIdentity cfg c (stamp now c) := by
  refine sameIdentity_of_keeps (fun κ hκ => ?_) (fun q hq => ?_) (fun key _ => ?_) c
  · rcases hκ with rfl | rfl
    · exact keeps_stamp (onlyKind_kind _) (by decide) now
    · exact keeps_stamp (onlyKind_kind _) (by decide) now
  · exact keeps_stamp hq (by decide) now
  · exact keeps_stamp (onlyKind_isXProp key) (by decide) now

/-! ## Sequences of calls -/

/-- The component of a note through a sequence of calls: each call that edits the note hands its
    edit of the component to `write_ical_file`, which stamps it. -/
inductive NoteCalls (cfg : Config Text) (c : Icalcomponent) : List Op → Icalcomponent → Prop
  | nil : NoteCalls cfg c [] c
  | call {os : List Op} {c' : Icalcomponent} {o : Op} {f : Icalcomponent → Icalcomponent}
      (h : NoteCalls cfg c os c') (hf : o.noteEdit cfg = some f) (now : CStr) :
      NoteCalls cfg c (os ++ [o]) (stamp now (f c'))
  | refused {os : List Op} {c' : Icalcomponent} {o : Op} (h : NoteCalls cfg c os c')
      (hf : o.noteEdit cfg = none) : NoteCalls cfg c (os ++ [o]) c'

theorem NoteCalls.sameIdentity {os : List Op} (h : NoteCalls cfg c os c') :
    SameIdentity cfg c c' := by
  induction h with
  | nil => exact .refl cfg c
  | call _ hf now ih =>
    exact (ih.trans (sameIdentity_noteEdit hf _)).trans (sameIdentity_stamp now _)
  | refused _ _ ih => exact ih

/-- Edits with other keys keep the value of a custom key. -/
theorem customValue_noteEdit (hf : o.noteEdit cfg = some f) {key : CStr}
    (hkey : o.writtenKey ≠ some key) (c : Icalcomponent) :
    icalcomponentGetCustomXValue cfg.ical (f c) key =
      icalcomponentGetCustomXValue cfg.ical c key := by
  have hkeeps : Keeps (isXProp (customPropertyPrefix ++ key)) f :=
    keeps_xProp hf fun written hwritten heq =>
      hkey (by rw [hwritten, List.append_cancel_left heq])
  unfold icalcomponentGetCustomXValue
  rw [icalcomponentGetUniqXValue_eq, icalcomponentGetUniqXValue_eq, hkeeps.view]

theorem customValue_stamp (now : CStr) (c : Icalcomponent) (key : CStr) :
    icalcomponentGetCustomXValue cfg.ical (stamp now c) key =
      icalcomponentGetCustomXValue cfg.ical c key := by
  unfold icalcomponentGetCustomXValue
  rw [icalcomponentGetUniqXValue_eq, icalcomponentGetUniqXValue_eq,
    (keeps_stamp (onlyKind_isXProp _) (by decide) now).view]

theorem NoteCalls.customValue {os : List Op} (h : NoteCalls cfg c os c') {key : CStr}
    (hkey : ∀ o ∈ os, o.writtenKey ≠ some key) :
    icalcomponentGetCustomXValue cfg.ical c' key = icalcomponentGetCustomXValue cfg.ical c key := by
  induction h with
  | nil => rfl
  | call _ hf now ih =>
    rw [customValue_stamp, customValue_noteEdit hf (hkey _ (by simp)),
      ih fun o ho => hkey o (by simp [ho])]
  | refused _ _ ih => exact ih fun o ho => hkey o (by simp [ho])

/-! ## The calls -/

/-- The calls that edit the content or the attributes of one note. -/
def Op.EditsNote : Op → Prop
  | .write .. | .setxattr .. | .removexattr .. => True
  | _ => False

theorem edited_of_exec (h : w.store.Inv) (ho : o.EditsNote) {status : Int}
    (hrun : exec cfg o w = .ok (status, w')) : Edited cfg w o status w' := by
  cases o with
  | write path buf size offset => exact (wp_fuseWrite h path buf size offset).ok hrun
  | setxattr path attrib value s flags =>
    exact (wp_fuseSetxattr h path attrib value s flags).ok hrun
  | removexattr path attrib => exact (wp_fuseRemovexattr h path attrib).ok hrun
  | _ => exact ho.elim

/-- A call hands the edit of the component it has read to `write_ical_file`, or leaves everything
    as it is, also when it has tried to write a note without component to a file that cannot be
    opened. Through any sequence of such calls what is handed over is the same note in the same
    place, and has the value of each custom key that none of the calls writes. -/
theorem edits_keep_identity :
    (∀ (w w' : World Text) (o : Op) (status : Int), Reachable cfg w → o.EditsNote →
      exec cfg o w = .ok (status, w') →
        w' = w ∨ (w.outcome = .openFailed ∧ w' = w.writeTick) ∨
          ∃ n e c f, w.edit cfg o = some (n, f) ∧ o.noteEdit cfg = some f ∧
            w.store.entry n = some e ∧ w.component cfg n = some c ∧
              w' = w.wrote cfg e.filenameVdir (f c)) ∧
    ∀ (c c' : Icalcomponent) (os : List Op) (o : Op) (f : Icalcomponent → Icalcomponent),
      NoteCalls cfg c os c' → o.noteEdit cfg = some f →
        SameIdentity cfg c (f c') ∧ ∀ key, (∀ o' ∈ os ++ [o], o'.writtenKey ≠ some key) →
          icalcomponentGetCustomXValue cfg.ical (f c') key =
            icalcomponentGetCustomXValue cfg.ical c key := by
  constructor
  · intro w w' o status h ho hrun
    cases edited_of_exec h.sound.toInv ho hrun with
    | rejected => exact .inl rfl
    | noComponent => exact .inl rfl
    | notOpened _ _ _ _ ho => exact .inr (.inl ⟨ho, rfl⟩)
    | written hedit he hc =>
      exact .inr (.inr ⟨_, _, _, _, hedit, noteEdit_of_edit hedit, he, hc, rfl⟩)
  · intro c c' os o f h hf
    refine ⟨h.sameIdentity.trans (sameIdentity_noteEdit hf c'), fun key hkey => ?_⟩
    rw [customValue_noteEdit hf (hkey o (by simp)),
      h.customValue fun o' ho' => hkey o' (by simp [ho'])]

/-- A key that is set, and then a class. -/
theorem edits_keep_identity_sampleNote :
    let c := sampleNote (bytes "n") (bytes "Note") [sampleParent (bytes "d")]
    let colored := stamp [] (icalcomponentSetCustomXValue c (bytes "color") (bytes "red"))
    let f := modifyInner (setExistingProperty .classification (bytes "PUBLIC"))
    SameIdentity sampleConfig c (f colored) ∧
      icalcomponentGetCustomXValue structuralIcal (f colored) (bytes "size") =
        icalcomponentGetCustomXValue structuralIcal c (bytes "size") := by
  intro c colored f
  have hcolor : (Op.setxattr [] (bytes "user.color") (bytes "red") 3 0).noteEdit sampleConfig =
      some (icalcomponentSetCustomXValue · (bytes "color") (bytes "red")) := rfl
  have hclass : (Op.setxattr [] (bytes "user.class") (bytes "public") 6 0).noteEdit sampleConfig =
      some f := rfl
  have hkept := (@edits_keep_identity _ sampleConfig).2 c colored _ _ f
    (.call .nil hcolor []) hclass
  exact ⟨hkept.1, hkept.2 (bytes "size") (by decide)⟩

end Agendafs
