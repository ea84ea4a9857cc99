import Agendafs.Spec.EditsCorrect
import Agendafs.Spec.PathCorrect

/-!
# The name a note is shown under

A note is shown under its SUMMARY, if it is a directory, and otherwise under its
SUMMARY and extension, where a stored `.` stands for no extension and a note
without a stored extension has the one the program was started with. What
matters for this are the kinds of the components and three views.

## Key results

- `agendaEntryOf_eq`: the entry of a component
- `join_eq_iff`: when SUMMARY and extension give the name they were made from
-/

namespace Agendafs

open Icalcomponent

variable {Text : Type} {cfg : Config Text} {c : Icalcomponent}

/-! ## Name and extension -/

/-- A summary with an extension behind it, unless that is empty. -/
def join (summary extension : CStr) : CStr :=
  if extension = [] then summary else summary ++ dot :: extension

/-- The extension that a stored text stands for. -/
def unsentinel (stored : CStr) : CStr := if stored = bytes "." then [] else stored

theorem join_unsentinel_self {summary stored : CStr} :
    join summary (unsentinel stored) = summary ↔ stored = [] ∨ stored = bytes "." := by
  unfold join unsentinel
  by_cases hdot : stored = bytes "."
  · simp [hdot]
  · by_cases hnil : stored = []
    · simp [hnil]
    · simp [hdot, hnil]

/-- Summary and extension give back the name they were cut from, if the extension is not
    empty and is read as it was stored. -/
theorem join_eq_iff {base ext stored : CStr} (hdot : dot ∉ ext) :
    join base (unsentinel stored) = base ++ dot :: ext ↔ ext ≠ [] ∧ stored = ext := by
  unfold join unsentinel
  by_cases hs : stored = bytes "."
  · have hne : stored ≠ ext := by
      rintro rfl
      rw [hs] at hdot
      exact hdot List.mem_cons_self
    rw [if_pos hs, if_pos rfl]
    simp [hne]
  · by_cases hnil : stored = []
    · simp [hnil, eq_comm]
    · simp only [if_neg hs, if_neg hnil, List.append_cancel_left_eq, List.cons.injEq, true_and]
      exact ⟨fun h => ⟨h ▸ hnil, h⟩, And.right⟩

/-! ## The entry of a component -/

theorem reread_kinds (c : Icalcomponent) : c.reread.kinds = c.kinds := by
  unfold kinds
  rw [reread_components, List.map_map]
  exact congrArg (List.map · _) (funext reread_kind)

/-- The first subcomponent that stands for something is a journal entry. -/
def IsNote (c : Icalcomponent) : Prop := c.kinds.find? ComponentKind.isReal = some .vjournal

instance (c : Icalcomponent) : Decidable (IsNote c) := inferInstanceAs (Decidable (_ = _))

theorem isNote_iff {c : Icalcomponent} :
    IsNote c ↔ ∃ journal, c.getFirstRealComponent = some journal ∧ journal.kind = .vjournal := by
  unfold IsNote kinds getFirstRealComponent
  rw [List.find?_map, Option.map_eq_some_iff]
  rfl

/-- A note has a subcomponent, and so properties that are found there. -/
theorem kinds_ne_nil_of_isNote (h : IsNote c) : c.kinds ≠ [] := by
  intro hnil
  unfold IsNote at h
  rw [hnil] at h
  exact nomatch h

theorem exists_view_of_isNote (h : IsNote c) (q : Icalproperty → Bool) :
    ∃ ps, c.view anyKind q = some ps := by
  rw [view_any]
  cases hc : c.getFirstAnyComponent with
  | none =>
    refine absurd ?_ (kinds_ne_nil_of_isNote h)
    rw [kinds, List.head?_eq_none_iff.1 hc]
    rfl
  | some a => exact ⟨_, rfl⟩

theorem agendaEntryOf_eq (path : CStr) (c : Icalcomponent) :
    agendaEntryOf cfg path c =
      if IsNote c then c.getSummary.map fun summary =>
        ⟨shownFilename cfg c summary, getFilename path⟩
      else none := by
  unfold agendaEntryOf
  -- The three tests of the source, of which the first two are `IsNote`.
  split
  · rename_i hnone
    refine (if_neg fun h => ?_).symm
    obtain ⟨journal, hjournal, _⟩ := isNote_iff.1 h
    exact nomatch hnone.symm.trans hjournal
  · rename_i journal hjournal
    split
    · rename_i hkind
      refine (if_neg fun h => ?_).symm
      obtain ⟨journal', hjournal', hkind'⟩ := isNote_iff.1 h
      cases hjournal.symm.trans hjournal'
      exact hkind hkind'
    · rename_i hkind
      rw [if_pos (isNote_iff.2 ⟨journal, hjournal, not_not.1 hkind⟩)]
      cases c.getSummary <;> rfl

/-- The stored extension of a component, as it is printed. -/
def storedExtension (cfg : Config Text) (c : Icalcomponent) : Option CStr :=
  icalcomponentGetUniqXValue cfg.ical c fileExtensionProperty

theorem icalcomponentGetFileExtension_eq (c : Icalcomponent) :
    icalcomponentGetFileExtension cfg.ical c = (storedExtension cfg c).map unsentinel := by
  unfold icalcomponentGetFileExtension storedExtension unsentinel
  cases icalcomponentGetUniqXValue cfg.ical c fileExtensionProperty with
  | none => rfl
  | some ext => exact (apply_ite some ..).symm

theorem shownFilename_eq (summary : CStr) :
    shownFilename cfg c summary =
      if isDirectoryComponent cfg.ical c then summary
      else join summary (((storedExtension cfg c).map unsentinel).getD cfg.fileExtension) := by
  unfold shownFilename join
  rw [icalcomponentGetFileExtension_eq]

/-- Writing and reading back does not change the name a component is shown under. -/
theorem shownFilename_restamped (hc : c.parsed = true) (now summary : CStr) :
    shownFilename cfg (stamp now c).reread summary = shownFilename cfg c summary := by
  have hdirectory : isDirectoryComponent cfg.ical (stamp now c).reread =
      isDirectoryComponent cfg.ical c := by
    rw [isDirectoryComponent_eq, isDirectoryComponent_eq, icalcomponentGetUniqXValue_eq,
      icalcomponentGetUniqXValue_eq, view_restamped (onlyKind_hasReltype _) (by decide) hc,
      view_restamped (onlyKind_isXProp _) (by decide) hc]
  have hextension : storedExtension cfg (stamp now c).reread = storedExtension cfg c := by
    unfold storedExtension
    rw [icalcomponentGetUniqXValue_eq, icalcomponentGetUniqXValue_eq,
      view_restamped (onlyKind_isXProp _) (by decide) hc]
  rw [shownFilename_eq, shownFilename_eq, hdirectory, hextension]

end Agendafs
