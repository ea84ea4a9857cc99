import Agendafs.Spec.MovesCorrect
import Agendafs.Spec.NamesCorrect

/-!
# Whether a new name is persisted

A rename stores the new name in two edits. SUMMARY becomes the name without its
extension, or the whole name of a directory; the extension replaces the first
one that is stored, and only if the new name has one. So a name without an
extension is read with the old extension or the default, and a second stored
extension comes before the new one.

## Key results

- `getSummary_stored`, `storedExtension_stored`: what a rename stores
- `name_persisted_iff`: when the stored file is read under the new name
-/

namespace Agendafs

open Icalcomponent

variable {Text : Type} {cfg : Config Text} {w w' v : World Text} {c : Icalcomponent}

/-! ## SUMMARY and extension after a rename -/

/-- The SUMMARY of a note under a new name. -/
def newSummary (cfg : Config Text) (ics : Icalcomponent) (name : CStr) : CStr :=
  if isDirectoryComponent cfg.ical ics then name else withoutFileExtension name

theorem updatedSummary_eq (name : CStr) (ics : Icalcomponent) :
    updatedSummary cfg name ics = ics.setSummary (newSummary cfg ics name) := by
  unfold updatedSummary newSummary
  split <;> rfl

theorem getInner_isSome (h : IsNote c) : c.getInner.isSome = true := by
  obtain ⟨journal, hjournal, _⟩ := isNote_iff.1 h
  unfold getInner
  split
  · rw [hjournal]
    rfl
  · rfl

theorem keeps_extendedNote {q : Icalproperty → Bool} {κ : PropertyKind} (h : OnlyKind κ q)
    (hκ : κ ≠ .lastModified ∧ κ ≠ .description)
    (hext : ∀ p, isXProp fileExtensionProperty p = true → q p = false) (name : CStr) :
    Keeps q (v.extendedNote name) := by
  unfold World.extendedNote
  split
  · exact .id
  · exact (keeps_stamp h hκ v.now).comp (keeps_setFileExtension hext _)

theorem onlyKind_ne_xProp {q : Icalproperty → Bool} {κ : PropertyKind} (h : OnlyKind κ q)
    (hκ : κ ≠ .x) (key : CStr) (p : Icalproperty) (hp : isXProp key p = true) : q p = false :=
  h.eq_false (by rw [onlyKind_isXProp key p hp]; exact hκ.symm)

theorem getSummary_renamedNote (h : IsNote c) (n : NodeId) (k name : CStr) :
    (v.renamedNote cfg n k name c).getSummary = some (newSummary cfg c name) := by
  have honly := onlyKind_kind .summary
  unfold World.renamedNote World.titledNote getSummary
  rw [(keeps_extendedNote honly (by decide) (onlyKind_ne_xProp honly (by decide) _) name).getText,
    (keeps_stamp honly (by decide) _).getText, updatedSummary_eq, setSummary,
    getText_setText (getInner_isSome h)]

/-- The extensions that are stored. -/
def extensions (c : Icalcomponent) : Option (List Icalproperty) :=
  c.view anyKind (isXProp fileExtensionProperty)

theorem storedExtension_eq (c : Icalcomponent) :
    storedExtension cfg c =
      ((extensions c).bind (·.head?)).map (cfg.ical.valueAsString ·.value) :=
  icalcomponentGetUniqXValue_eq ..

/-- The first stored extension is taken out, and the new one put behind the others. -/
theorem extensions_setFileExtension (hc : c.kinds ≠ []) {ext : CStr} (hext : ext ≠ []) :
    extensions (icalcomponentSetFileExtension c ext) =
      (extensions c).map (·.tail ++ [⟨.x, fileExtensionProperty, none, ext⟩]) := by
  unfold icalcomponentSetFileExtension extensions
  rw [if_neg hext]
  exact view_setUniqueXValue hc fileExtensionProperty ext

/-- The extensions under a new name. -/
theorem extensions_renamedNote (hc : c.kinds ≠ []) (n : NodeId) (k name : CStr)
    (hname : ∀ ext, getFileExtension name = some ext → ext ≠ []) :
    extensions (v.renamedNote cfg n k name c) =
      match getFileExtension name with
      | none => extensions c
      | some ext => (extensions c).map (·.tail ++ [⟨.x, fileExtensionProperty, none, ext⟩]) := by
  have honly := onlyKind_isXProp fileExtensionProperty
  have htitled : Keeps (isXProp fileExtensionProperty) (v.titledNote cfg name) :=
    (keeps_stamp honly (by decide) v.now).comp (keeps_updatedSummary honly (by decide) name)
  unfold World.renamedNote World.extendedNote
  cases hext : getFileExtension name with
  | none => exact htitled.view _ c
  | some ext =>
    simp only
    have hstamp : ∀ ics, extensions (stamp _ ics) = extensions ics :=
      (keeps_stamp honly (by decide) (v.titled cfg n k name c).now).view _
    rw [hstamp, extensions_setFileExtension (by rw [htitled.kinds]; exact hc) (hname ext hext)]
    exact congrArg _ (htitled.view _ c)

/-! ## What a rename leaves in the file -/

section Stored

variable {q : Icalproperty → Bool} {κ : PropertyKind} {m : Move} {name : CStr}

/-- The edits of a rename behind those of the name. -/
theorem keeps_settled (h : OnlyKind κ q) (hκ : κ ≠ .lastModified ∧ κ ≠ .description)
    (hun : ∀ uid p, q p = true → isParentRelation uid p = false)
    (hrel : ∀ uid, q (parentRelation uid) = false) (now : CStr)
    (source target : Option Icalcomponent) :
    Keeps q fun c => if target.isSome then stamp now (related target (unrelated source c)) else c :=
  .ite (((keeps_stamp h hκ now).comp (keeps_related _ hrel)).comp (keeps_unrelated _ hun)) .id

theorem onlyKind_ne_relation (h : OnlyKind κ q) (hκ : κ ≠ .relatedTo) :
    (∀ uid p, q p = true → isParentRelation uid p = false) ∧
      ∀ uid, q (parentRelation uid) = false :=
  ⟨fun uid p hp => (onlyKind_isParentRelation uid).eq_false (by rw [h p hp]; exact hκ),
    fun _ => h.eq_false hκ.symm⟩

/-- The name that is stored is not touched any more. -/
theorem keeps_name (h : OnlyKind κ q) (hκ : κ = .summary ∨ κ = .x) (now : CStr)
    (source target : Option Icalcomponent) :
    Keeps q fun c => if target.isSome then stamp now (related target (unrelated source c)) else c := by
  have hne : κ ≠ .lastModified ∧ κ ≠ .description ∧ κ ≠ .relatedTo := by
    rcases hκ with rfl | rfl <;> decide
  obtain ⟨hun, hrel⟩ := onlyKind_ne_relation h hne.2.2
  exact keeps_settled h ⟨hne.1, hne.2.1⟩ hun hrel now source target

/-- A view that a rename does not touch. -/
theorem view_stored (h : OnlyKind κ q)
    (hκ : κ ≠ .lastModified ∧ κ ≠ .description ∧ κ ≠ .summary)
    (hext : ∀ p, isXProp fileExtensionProperty p = true → q p = false)
    (hun : ∀ uid p, q p = true → isParentRelation uid p = false)
    (hrel : ∀ uid, q (parentRelation uid) = false) (P : ComponentKind → Bool) :
    (m.stored cfg v name).view P q = m.note.view P q :=
  ((keeps_settled h ⟨hκ.1, hκ.2.1⟩ hun hrel _ _ _).view P _).trans
    ((keeps_renamedNote h hκ hext _ _ _).view P _)

theorem isNote_stored : IsNote (m.stored cfg v name).reread ↔ IsNote m.note := by
  have hkinds : (m.stored cfg v name).kinds = m.note.kinds :=
    ((keeps_settled (q := fun _ => false) (κ := .uid) nofun ⟨nofun, nofun⟩ (fun _ _ => nofun)
      (fun _ => rfl) _ _ _).kinds _).trans
    ((keeps_renamedNote (q := fun _ => false) (κ := .uid) nofun ⟨nofun, nofun, nofun⟩
      (fun _ _ => rfl) _ _ _).kinds _)
  unfold IsNote
  rw [reread_kinds, hkinds]

theorem not_isParentRelation_of_child {uid : CStr} {p : Icalproperty}
    (h : hasReltype (bytes "CHILD") p = true) : isParentRelation uid p = false := by
  rw [isParentRelation_eq]
  cases hp : hasReltype (bytes "PARENT") p with
  | false => rfl
  | true =>
    exfalso
    simp only [hasReltype, Bool.and_eq_true, Option.any_eq_true, strcaseEq,
      decide_eq_true_eq] at h hp
    -- One RELTYPE would have to read as both.
    obtain ⟨_, r, hr, hchild⟩ := h
    obtain ⟨_, r', hr', hparent⟩ := hp
    cases hr.symm.trans hr'
    exact absurd (hchild.symm.trans hparent) (by decide)

/-- A rename does not make a directory of a note, nor a note of a directory. -/
theorem isDirectory_stored (hm : m.note.parsed = true) :
    isDirectoryComponent cfg.ical (m.stored cfg v name).reread =
      isDirectoryComponent cfg.ical m.note := by
  have hchild := onlyKind_hasReltype (bytes "CHILD")
  have hflag := onlyKind_isXProp isDirectoryProperty
  have hkeys : ∀ p, isXProp fileExtensionProperty p = true →
      isXProp isDirectoryProperty p = false := by
    intro p hp
    simp only [isXProp, decide_eq_true_eq, decide_eq_false_iff_not, not_and] at hp ⊢
    rw [hp.2]
    exact fun _ => by decide
  rw [isDirectoryComponent_eq, isDirectoryComponent_eq, icalcomponentGetUniqXValue_eq,
    icalcomponentGetUniqXValue_eq, view_reread (hchild.ne_categories (by decide)),
    view_reread (hflag.ne_categories (by decide)),
    view_stored hchild (by decide) (onlyKind_ne_xProp hchild (by decide) _)
      (fun _ _ => not_isParentRelation_of_child) (fun _ => rfl),
    view_stored hflag (by decide) hkeys (onlyKind_ne_relation hflag (by decide)).1
      (onlyKind_ne_relation hflag (by decide)).2,
    view_filter_of_parsed hm, view_filter_of_parsed hm]

theorem getSummary_stored (h : IsNote m.note) (hne : newSummary cfg m.note name ≠ []) :
    (m.stored cfg v name).reread.getSummary = some (newSummary cfg m.note name) := by
  refine getText_reread (by decide) hne ?_
  have hsettled := (keeps_name (onlyKind_kind .summary) (.inl rfl)
    (v.renamed cfg m.node m.filenameVdir name m.note).now (v.component cfg m.source)
    (v.component cfg m.target)).getText (v.renamedNote cfg m.node m.filenameVdir name m.note)
  exact hsettled.trans (getSummary_renamedNote h m.node m.filenameVdir name)

/-- The extension that is read under the new name. -/
theorem storedExtension_stored (hm : m.note.parsed = true) (h : IsNote m.note)
    (hname : ∀ ext, getFileExtension name = some ext → ext ≠ []) :
    storedExtension cfg (m.stored cfg v name).reread =
      match getFileExtension name with
      | none => storedExtension cfg m.note
      | some ext => some (cfg.ical.valueAsString
        (((((extensions m.note).getD []).tail.head?).map (·.value)).getD ext)) := by
  have honly := onlyKind_isXProp fileExtensionProperty
  have hkinds := kinds_ne_nil_of_isNote h
  -- A note has a component, so it has a list of extensions, though maybe an empty one.
  obtain ⟨ps, hps⟩ : ∃ ps, extensions m.note = some ps := exists_view_of_isNote h _
  have hnonempty : ∀ p ∈ ps, p.value ≠ [] := value_ne_nil_of_parsed hm hps
  have hsettled := (keeps_name honly (.inr rfl)
    (v.renamed cfg m.node m.filenameVdir name m.note).now (v.component cfg m.source)
    (v.component cfg m.target)).view anyKind
      (v.renamedNote cfg m.node m.filenameVdir name m.note)
  have hstored : extensions (m.stored cfg v name) =
      extensions (v.renamedNote cfg m.node m.filenameVdir name m.note) := hsettled
  rw [storedExtension_eq, extensions, view_reread (honly.ne_categories (by decide)), ← extensions,
    hstored, extensions_renamedNote hkinds _ _ _ hname]
  cases hext : getFileExtension name with
  | none =>
    rw [storedExtension_eq]
    unfold extensions
    rw [view_filter_of_parsed hm]
  | some ext =>
    -- The first extension property is replaced by a new one behind the others.
    have htail : ∀ p ∈ ps.tail, decide (p.value ≠ []) = true := fun p hp =>
      decide_eq_true (hnonempty p (List.mem_of_mem_tail hp))
    rw [hps]
    simp only [Option.map_some, Option.bind_some, Option.getD_some, List.filter_append,
      List.filter_eq_self.2 htail]
    cases ps.tail with
    | nil => simp [hname ext hext]
    | cons p ps => rfl

/-- The condition for a new name to be persisted. A note that is not a directory has
    no extension that a name without one would get, and no second one that would
    hide the new one. -/
def Move.NamePersists (cfg : Config Text) (m : Move) (name : CStr) : Prop :=
  IsNote m.note ∧ (isDirectoryComponent cfg.ical m.note = true ∨
    match getFileExtension name with
    | none => (icalcomponentGetFileExtension cfg.ical m.note).getD cfg.fileExtension = []
    | some ext => cfg.ical.valueAsString
      (((((extensions m.note).getD []).tail.head?).map (·.value)).getD ext) = ext)

theorem join_eq_self {summary ext : CStr} : join summary ext = summary ↔ ext = [] := by
  unfold join
  by_cases h : ext = []
  · simp [h]
  · simp [h]

/-- The file is read under the new name, if that begins and ends with something else
    than a dot, exactly under this condition. -/
theorem entry_stored (hm : m.note.parsed = true) (hnil : name ≠ []) (hslash : slash ∉ name)
    (hfirst : name.head? ≠ some dot) (hlast : name.getLast? ≠ some dot) (vdirPath : CStr) :
    agendaEntryOf cfg vdirPath (m.stored cfg v name).reread =
        some ⟨name, getFilename vdirPath⟩ ↔ m.NamePersists cfg name := by
  unfold Move.NamePersists
  rw [agendaEntryOf_eq]
  by_cases hnote : IsNote m.note
  · rw [if_pos (isNote_stored.2 hnote), and_iff_right hnote]
    have hsummary : newSummary cfg m.note name ≠ [] → (m.stored cfg v name).reread.getSummary =
        some (newSummary cfg m.note name) := getSummary_stored hnote
    unfold newSummary at hsummary
    cases hdir : isDirectoryComponent cfg.ical m.note with
    -- A directory is shown under its summary, which is the whole name.
    | true =>
      rw [hdir, if_pos rfl] at hsummary
      rw [hsummary hnil, Option.map_some, shownFilename_eq, isDirectory_stored hm, hdir, if_pos rfl]
      exact iff_of_true rfl (.inl rfl)
    | false =>
      rw [hdir, if_neg (by decide)] at hsummary
      rw [or_iff_right (by decide)]
      have hshown : ∀ summary, shownFilename cfg (m.stored cfg v name).reread summary = _ :=
        fun summary => shownFilename_eq summary
      simp only [isDirectory_stored hm, hdir, Bool.false_eq_true, if_false] at hshown
      rcases name_cases name with hdot | ⟨base, ext, rfl, hdot⟩
      · -- Without a dot the summary is the whole name, and the old extension is kept.
        obtain ⟨hext, hbase⟩ := extension_of_not_mem hdot
        have hstored : storedExtension cfg (m.stored cfg v name).reread = _ :=
          storedExtension_stored hm hnote fun ext h => nomatch hext.symm.trans h
        rw [hext] at hstored ⊢
        rw [hbase] at hsummary
        rw [hsummary hnil, Option.map_some, hshown, hstored, icalcomponentGetFileExtension_eq]
        simp only [Option.some.injEq, AgendaEntry.mk.injEq, and_true]
        exact join_eq_self
      · -- The new extension takes the place of the old one.
        obtain ⟨hext, hbase⟩ := extension_of_append base hdot
          fun hm => hslash (List.mem_append_right _ (List.mem_cons_of_mem _ hm))
        have hbasenil : base ≠ [] := by
          rintro rfl
          exact hfirst rfl
        have hextnil : ext ≠ [] := by
          rintro rfl
          exact hlast (List.getLast?_append_of_ne_nil _ (List.cons_ne_nil _ _))
        have hstored : storedExtension cfg (m.stored cfg v (base ++ dot :: ext)).reread = _ :=
          storedExtension_stored hm hnote fun ext' h => by
            cases hext.symm.trans h
            exact hextnil
        rw [hext] at hstored ⊢
        rw [hbase] at hsummary
        rw [hsummary hbasenil, Option.map_some, hshown, hstored]
        simp only [Option.some.injEq, AgendaEntry.mk.injEq, and_true, Option.map_some,
          Option.getD_some]
        rw [join_eq_iff hdot, and_iff_right hextnil]
  · rw [if_neg (fun h => hnote (isNote_stored.1 h))]
    exact iff_of_false nofun fun h => hnote h.1

end Stored

/-- A rename to a name that begins and ends with something else than a dot is persisted
    exactly when `Move.NamePersists`, given that its writes succeed. -/
theorem name_persisted_iff (hL : cfg.ical.Lawful) (h : Reachable cfg w) {old new : CStr}
    {flags : Nat} (hv : (Op.rename old new flags).Valid cfg w)
    (hfirst : (getFilename new).head? ≠ some dot) (hlast : (getFilename new).getLast? ≠ some dot)
    (hrun : exec cfg (.rename old new flags) w = .ok (0, w'))
    (hwritten : ∀ x ∈ w.madeWrites w', x = .written) :
    ∃ m, w.move cfg old new = some m ∧
      (w'.loadable cfg m.filenameVdir = some ⟨getFilename new, m.filenameVdir⟩ ↔
        m.NamePersists cfg (getFilename new)) := by
  obtain ⟨v, m, hm, rfl⟩ := renames_of_run h hv hrun
  obtain ⟨hmove, _⟩ := move_of_renames (Run.sound h) hv hm
  refine ⟨m, hmove, ?_⟩
  obtain ⟨e, he, hk⟩ := (move_eq_some.1 hmove).2.2.1
  have hflat : slash ∉ m.filenameVdir := hk ▸ (Run.sound h).flat _ _ he
  have hstored : agendaEntryOf cfg (appendPath cfg.vdir m.filenameVdir)
      (m.stored cfg v (getFilename new)).reread = some ⟨getFilename new, _⟩ ↔ _ :=
    entry_stored (parsed_note hL hm) hv.2.2 (slash_not_mem_getFilename new) hfirst hlast _
  rw [getFilename_appendPath _ hflat] at hstored
  unfold World.loadable
  rw [fileComponent_after hL hm hwritten, Option.bind_some]
  exact hstored

/-! ## A name without extension -/

/-- The mount of a note without a stored extension. -/
def plainNote : World Icalcomponent :=
  sampleMount [(bytes "a.ics", sampleNote (bytes "a") (bytes "Note") [])] {}

/-- Taking the extension off. -/
def dropExtension : Op := .rename (bytes "/Note.txt") (bytes "/Plain") 0

theorem reachable_plainNote : Reachable sampleConfig plainNote :=
  run_sampleMount _ (by decide) (by decide) trivial (by decide +kernel)

theorem valid_dropExtension : dropExtension.Valid sampleConfig plainNote :=
  ⟨by decide +kernel, by decide, by decide⟩

theorem dropExtension_run : exec sampleConfig dropExtension plainNote =
    .ok (0, (exec sampleConfig dropExtension).final plainNote) :=
  exec_sample (by decide +kernel)

theorem dropExtension_written : ∀ x ∈ plainNote.madeWrites
    ((exec sampleConfig dropExtension).final plainNote), x = .written :=
  fun _ hx => absurd (List.mem_of_mem_take hx) List.not_mem_nil

theorem name_persisted_iff_dropExtension :
    ∃ m, plainNote.move sampleConfig (bytes "/Note.txt") (bytes "/Plain") = some m ∧
      (((exec sampleConfig dropExtension).final plainNote).loadable sampleConfig m.filenameVdir =
          some ⟨bytes "Plain", m.filenameVdir⟩ ↔ m.NamePersists sampleConfig (bytes "Plain")) :=
  name_persisted_iff structuralIcal_lawful reachable_plainNote valid_dropExtension (by decide)
    (by decide) dropExtension_run dropExtension_written

/-- So a new name need not be persisted: this one gets the default extension. -/
theorem not_all_names_persisted :
    ¬ ∀ (w w' : World Icalcomponent) (old new : CStr) (flags : Nat) (m : Move),
      Reachable sampleConfig w → (Op.rename old new flags).Valid sampleConfig w →
      (getFilename new).head? ≠ some dot → (getFilename new).getLast? ≠ some dot →
      exec sampleConfig (.rename old new flags) w = .ok (0, w') →
      (∀ x ∈ w.madeWrites w', x = .written) → w.move sampleConfig old new = some m →
        w'.loadable sampleConfig m.filenameVdir = some ⟨getFilename new, m.filenameVdir⟩ := by
  intro hall
  have hany : (plainNote.move sampleConfig (bytes "/Note.txt") (bytes "/Plain")).any
      (fun m => (((exec sampleConfig dropExtension).final plainNote).loadable sampleConfig
        m.filenameVdir).map (·.filename) ≠ some (bytes "Plain")) = true := by decide +kernel
  obtain ⟨m, hm, hcheck⟩ := (Option.any_eq_true ..).1 hany
  have hentry := hall _ _ _ _ _ m reachable_plainNote valid_dropExtension (by decide) (by decide)
    dropExtension_run dropExtension_written hm
  exact of_decide_eq_true hcheck (congrArg (Option.map (·.filename)) hentry)

end Agendafs
