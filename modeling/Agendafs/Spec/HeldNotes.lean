import Agendafs.Spec.EditsCorrect
import Agendafs.Spec.EventCorrect
import Agendafs.Spec.NamesCorrect

/-!
# Notes that can be read

A file of VDIR that opens, parses and holds a journal entry with a summary stays
one when parents are marked as directories, and handling it does what the source
says: the note is placed below its parent, whose file is marked.

## Key results

- `updateOrCreateFuseEntryFromVdir_run`: what handling one readable note does
- `World.HoldsNote.marked`: a mark leaves a note a note
-/

namespace Agendafs

open Icalcomponent Store

variable {Text : Type} {cfg : Config Text} {w : World Text}

/-! ## One readable note -/

/-- Handling a note that can be read, below a parent that can take it, places it there. -/
theorem updateOrCreateFuseEntryFromVdir_run (h : w.store.Inv) {k : CStr} {e : AgendaEntry}
    {p : NodeId} (hflat : slash ∉ k) (hr : w.Readable cfg k) (he : w.loadable cfg k = some e)
    (hp : w.HandlesBelow cfg k e p) :
    updateOrCreateFuseEntryFromVdir cfg (appendPath cfg.vdir k) w = .ok (0, w.updated cfg e p) := by
  have hname := getFilename_appendPath cfg.vdir hflat
  have hgo : w.Handles cfg (getFilename (appendPath cfg.vdir k)) := by
    rw [hname]
    refine ⟨fun _ => hr, fun e' he' => ⟨p, ?_⟩⟩
    cases he.symm.trans he'
    exact hp
  obtain ⟨status, w', hrun, hw'⟩ := (wp_updateOrCreateFuseEntryFromVdir (E := fun _ => False) h
    fun hstop => absurd hgo hstop).returns
  rw [hname, he] at hw'
  obtain ⟨_, q, hq, rfl, rfl⟩ := hw'
  cases hp.target.symm.trans hq.target
  exact hrun

/-! ## Marking a parent -/

/-- The file can be read as a journal entry with a summary. -/
structure World.HoldsNote (cfg : Config Text) (w : World Text) (filenameVdir : CStr) : Prop where
  readable : w.Readable cfg filenameVdir
  note : ∃ c, w.fileComponent cfg filenameVdir = some c ∧ IsNote c ∧ c.getSummary.isSome = true

theorem World.HoldsNote.loadable {k : CStr} (h : w.HoldsNote cfg k) :
    ∃ e, w.loadable cfg k = some e := by
  obtain ⟨c, hc, hnote, hsummary⟩ := h.note
  obtain ⟨summary, hsummary⟩ := Option.isSome_iff_exists.1 hsummary
  unfold World.loadable
  rw [hc, Option.bind_some, agendaEntryOf_eq, if_pos hnote, hsummary]
  exact ⟨_, rfl⟩

/-- What can be loaded is a journal entry with a summary. -/
theorem exists_note_of_loadable {k : CStr} {e : AgendaEntry} (he : w.loadable cfg k = some e) :
    ∃ c summary, w.fileComponent cfg k = some c ∧ IsNote c ∧ c.getSummary = some summary := by
  obtain ⟨c, hc, hentry⟩ := Option.bind_eq_some_iff.1 he
  rw [agendaEntryOf_eq] at hentry
  split at hentry
  · rename_i hnote
    obtain ⟨summary, hsummary, _⟩ := Option.map_eq_some_iff.1 hentry
    exact ⟨c, summary, hc, hnote, hsummary⟩
  · exact nomatch hentry

theorem holdsNote_iff {k : CStr} :
    w.HoldsNote cfg k ↔ w.Readable cfg k ∧ (w.loadable cfg k).isSome = true := by
  constructor
  · intro h
    obtain ⟨e, he⟩ := h.loadable
    exact ⟨h.readable, by rw [he]; rfl⟩
  · rintro ⟨hr, hsome⟩
    obtain ⟨e, he⟩ := Option.isSome_iff_exists.1 hsome
    obtain ⟨c, summary, hc, hnote, hsummary⟩ := exists_note_of_loadable he
    exact ⟨hr, c, hc, hnote, by rw [hsummary]; rfl⟩

/-- The file of every note in the tree can be opened and parses. -/
def World.Parses (cfg : Config Text) (w : World Text) : Prop :=
  ∀ n e, w.store.entry n = some e →
    w.Readable cfg e.filenameVdir ∧ (w.fileComponent cfg e.filenameVdir).isSome = true

/-- Writing a file does not make one unreadable. -/
theorem readable_wrote {k k' : CStr} (h : w.Readable cfg k) (ic : Icalcomponent) :
    (w.wrote cfg k' ic).Readable cfg k := by
  obtain ⟨f, hf, hr⟩ := h
  have written : ∀ content, ∃ f', writtenFiles w.files (appendPath cfg.vdir k') content
      (appendPath cfg.vdir k) = some f' ∧ f'.readable = true := by
    intro content
    unfold writtenFiles
    split
    · rename_i hk
      refine ⟨_, rfl, ?_⟩
      rw [← hk, hf, Option.all_some, hr]
    · exact ⟨f, hf, hr⟩
  -- An existing file keeps its permissions, whatever is written.
  unfold World.wrote World.Readable
  cases w.outcome with
  | openFailed => exact ⟨f, hf, hr⟩
  | writeFailed left => exact written left
  | written => exact written _

/-- A mark changes neither what is a note nor its summary. -/
theorem isNote_marked {c : Icalcomponent} (now : CStr) :
    IsNote (markedComponent now c) ↔ IsNote c := by
  have hkeeps : Keeps (fun _ => false) (stamp now ∘ icalcomponentMarkAsDirectory) :=
    (keeps_stamp (q := fun _ => false) (κ := .uid) nofun (by decide) now).comp
      (keeps_markAsDirectory fun _ _ => rfl)
  have hkinds : (stamp now (icalcomponentMarkAsDirectory c)).kinds = c.kinds := hkeeps.kinds c
  unfold IsNote markedComponent
  rw [reread_kinds, hkinds]

theorem getSummary_marked {c : Icalcomponent} (hc : c.parsed = true) (now : CStr) :
    (markedComponent now c).getSummary = c.getSummary := by
  have honly := onlyKind_kind .summary
  have hkeeps : Keeps (·.kind = .summary) (stamp now ∘ icalcomponentMarkAsDirectory) :=
    (keeps_stamp honly (by decide) now).comp (keeps_markAsDirectory fun p hp =>
      honly.eq_false (by rw [onlyKind_isXProp _ p hp]; decide))
  exact hkeeps.getText_reread (by decide) hc

/-- So a file holds a note after a mark if it did before. -/
theorem isSome_loadable_marked (hL : cfg.ical.Lawful) (ho : w.outcome = .written) (p : NodeId)
    (k : CStr) : ((w.marked cfg p).loadable cfg k).isSome = (w.loadable cfg k).isSome := by
  unfold World.loadable
  rw [fileComponent_marked hL ho]
  split
  · cases hc : w.fileComponent cfg k with
    | none => rfl
    | some c =>
      have hparsed := parsed_of_fileComponent hL hc
      simp only [Option.map_some, Option.bind_some, agendaEntryOf_eq, isNote_marked,
        getSummary_marked hparsed]
      split
      · rw [Option.isSome_map, Option.isSome_map]
      · rfl
  · rfl

/-- What a file stands for depends on its content only. -/
theorem loadable_of_files {w' : World Text} {k : CStr}
    (h : w'.files (appendPath cfg.vdir k) = w.files (appendPath cfg.vdir k)) :
    w'.loadable cfg k = w.loadable cfg k ∧ w'.parentUid cfg k = w.parentUid cfg k := by
  unfold World.loadable World.parentUid World.fileComponent
  rw [h]
  exact ⟨rfl, rfl⟩

/-- A mark of the parent's file would succeed and leave the name it is shown under. -/
def World.MarkKeepsName (cfg : Config Text) (w : World Text) (p : NodeId) : Prop :=
  ∀ k, w.markedFile cfg p = some k → w.outcome = .written ∧
    ∀ c summary, w.fileComponent cfg k = some c → c.getSummary = some summary →
      shownFilename cfg (icalcomponentMarkAsDirectory c) summary = shownFilename cfg c summary

/-- Such a mark changes nothing of what the files stand for. -/
theorem World.MarkKeepsName.marked (hL : cfg.ical.Lawful) {p : NodeId} (h : w.MarkKeepsName cfg p)
    (k : CStr) : (w.marked cfg p).loadable cfg k = w.loadable cfg k ∧
      (w.marked cfg p).parentUid cfg k = w.parentUid cfg k := by
  by_cases hm : w.markedFile cfg p = some k
  · obtain ⟨_, c, _, _, hc, _⟩ := marked_of_markedFile hm
    obtain ⟨ho, hname⟩ := h k hm
    have hparsed := parsed_of_fileComponent hL hc
    unfold World.loadable World.parentUid
    rw [fileComponent_marked hL ho, if_pos hm, hc, Option.map_some, Option.bind_some,
      Option.bind_some, Option.bind_some, Option.bind_some, getParentUid_marked hparsed,
      agendaEntryOf_eq, agendaEntryOf_eq, getSummary_marked hparsed]
    simp only [isNote_marked]
    refine ⟨?_, trivial⟩
    cases hs : c.getSummary with
    | none => rfl
    | some summary =>
      rw [Option.map_some, Option.map_some, markedComponent,
        shownFilename_restamped (parsed_markAsDirectory hparsed), hname c summary hc hs]
  · exact loadable_of_files (files_marked_of_ne hm)

theorem readable_marked {k : CStr} (h : w.Readable cfg k) (p : NodeId) :
    (w.marked cfg p).Readable cfg k := by
  unfold World.marked
  split
  · split
    · exact h
    · exact readable_wrote h _
  · exact h

theorem World.HoldsNote.marked (hL : cfg.ical.Lawful) {k : CStr} (h : w.HoldsNote cfg k)
    (ho : w.outcome = .written) (p : NodeId) : (w.marked cfg p).HoldsNote cfg k := by
  rw [holdsNote_iff] at h ⊢
  exact ⟨readable_marked h.1 p, (isSome_loadable_marked hL ho p k).trans h.2⟩

end Agendafs
