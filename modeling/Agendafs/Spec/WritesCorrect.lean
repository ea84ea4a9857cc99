import Agendafs.Spec.EditsCorrect

/-!
# The writes of a call

Each write takes its outcome from the environment, so the writes a call made are
the outcomes that are gone afterwards. When they all succeeded, the file of the
note holds the component of the last of them.

## Key results

- `created_writes`, `moved_writes`: how many writes a creation and a rename make
- `created_content`, `moved_content`: what they leave in the file
-/

namespace Agendafs

open Icalcomponent

variable {Text : Type} {cfg : Config Text} {w w' : World Text}

/-! ## Outcomes -/

/-- The outcomes of the writes made between two states. -/
def World.madeWrites (w w' : World Text) : List (WriteOutcome Text) :=
  w.env.writes.take (w.env.writes.length - w'.env.writes.length)

/-- The next `n` writes succeed. -/
def World.AllWritten (w : World Text) (n : Nat) : Prop := ∀ o ∈ w.env.writes.take n, o = .written

theorem madeWrites_eq {n : Nat} (h : w'.env.writes = w.env.writes.drop n) :
    w.madeWrites w' = w.env.writes.take n := by
  unfold World.madeWrites
  rw [h, List.length_drop]
  -- Writes beyond the end of the list succeed and take nothing from it.
  rcases Nat.le_total n w.env.writes.length with hle | hle
  · rw [Nat.sub_sub_self hle]
  · rw [List.take_of_length_le hle, List.take_of_length_le (by omega)]

/-- The next write succeeds, and those behind it. -/
theorem allWritten_succ (cfg : Config Text) {n : Nat} (k : CStr) (ic : Icalcomponent) :
    w.AllWritten (n + 1) ↔ w.outcome = .written ∧ (w.wrote cfg k ic).AllWritten n := by
  unfold World.AllWritten World.outcome World.wrote
  simp only
  cases w.env.writes with
  | nil => simp
  | cons o os => simp

theorem World.AllWritten.congr {n : Nat} (h : w'.env.writes = w.env.writes) :
    w'.AllWritten n ↔ w.AllWritten n := by
  unfold World.AllWritten
  rw [h]

/-- A write that is going to fail midway takes the first outcome. -/
theorem mem_of_outcome {left : Text} (h : w.outcome = .writeFailed left) :
    .writeFailed left ∈ w.env.writes.take 1 := by
  unfold World.outcome at h
  cases hw : w.env.writes with
  | nil => rw [hw] at h; exact nomatch h
  | cons o os =>
    rw [hw] at h
    exact h ▸ List.mem_cons_self

theorem wrote_writes (k : CStr) (ic : Icalcomponent) :
    (w.wrote cfg k ic).env.writes = w.env.writes.tail := rfl

/-! ## Contents -/

/-- The file holds the text of the component. -/
def World.Holds (cfg : Config Text) (w : World Text) (filenameVdir : CStr) (ic : Icalcomponent) :
    Prop :=
  ∃ f, w.files (appendPath cfg.vdir filenameVdir) = some f ∧ f.content = cfg.ical.asIcalString ic

theorem holds_wrote (k : CStr) (ic : Icalcomponent) (ho : w.outcome = .written) :
    (w.wrote cfg k ic).Holds cfg k (stamp w.now ic) := by
  unfold World.Holds World.wrote
  rw [ho]
  exact ⟨_, if_pos rfl, rfl⟩

theorem World.Holds.congr {k : CStr} {ic : Icalcomponent} (h : w'.files = w.files)
    (hw : w.Holds cfg k ic) : w'.Holds cfg k ic := by
  unfold World.Holds at hw ⊢
  rw [h]
  exact hw

/-- What a file holds is read back. -/
theorem World.Holds.fileComponent (hL : cfg.ical.Lawful) {k : CStr} {ic : Icalcomponent}
    (h : w.Holds cfg k ic) (hic : ic.printable = true) :
    w.fileComponent cfg k = some ic.reread := by
  obtain ⟨f, hf, hcontent⟩ := h
  unfold World.fileComponent
  rw [hf, Option.bind_some, hcontent]
  exact hL.newFromString_asIcalString ic hic

/-! ## Creating -/

section Created

variable {path : CStr} {etype : EntryType} {p : NodeId}

theorem created_writes :
    (w.created cfg path etype p).env.writes = w.env.writes.drop 1 := List.drop_one.symm

theorem created_content (ho : w.outcome = .written) :
    (w.created cfg path etype p).Holds cfg (w.newEntry path).filenameVdir
      (stamp (w.allocated path).now (w.newNote cfg path etype p)) :=
  World.Holds.congr rfl (holds_wrote (w := w.allocated path) _ _ ho)

end Created

/-! ## Renaming -/

/-- The number of writes of a rename. -/
def World.moveWrites (cfg : Config Text) (w : World Text) (name : CStr) (p : NodeId) : Nat :=
  1 + (if (getFileExtension name).isSome then 1 else 0) +
    if (w.component cfg p).isSome then 1 else 0

/-- The component that a rename leaves in the file. -/
def World.storedNote (cfg : Config Text) (w : World Text) (c : NodeId) (filenameVdir name : CStr)
    (ics : Icalcomponent) (p q : NodeId) : Icalcomponent :=
  if (w.component cfg p).isSome then
    stamp (w.renamed cfg c filenameVdir name ics).now (w.movedNote cfg c filenameVdir name ics p q)
  else w.renamedNote cfg c filenameVdir name ics

section Moved

variable {c : NodeId} {k x : CStr} {ics : Icalcomponent} {p q : NodeId}

theorem renamed_writes :
    (w.renamed cfg c k x ics).env.writes =
      w.env.writes.drop (1 + if (getFileExtension x).isSome then 1 else 0) := by
  unfold World.renamed World.extended
  cases getFileExtension x with
  | none => exact List.drop_one.symm
  | some ext =>
    change w.env.writes.tail.tail = _
    rw [← List.drop_one, ← List.drop_one, List.drop_drop]
    rfl

theorem moved_writes :
    (w.moved cfg c k x ics p q).env.writes = w.env.writes.drop (w.moveWrites cfg x p) := by
  unfold World.moved World.moveWrites
  simp only
  split
  · rw [wrote_writes, ← List.drop_one]
    change List.drop 1 (w.renamed cfg c k x ics).env.writes = _
    rw [renamed_writes, List.drop_drop]
  · exact renamed_writes

/-- When they all succeed, the writes of the new name leave the component in the file. -/
theorem renamed_content {n : Nat}
    (h : w.AllWritten (1 + (if (getFileExtension x).isSome then 1 else 0) + n)) :
    (w.renamed cfg c k x ics).Holds cfg k (w.renamedNote cfg c k x ics) ∧
      (w.renamed cfg c k x ics).AllWritten n := by
  have htitled : ∀ m, w.AllWritten (m + 1) →
      (w.titled cfg c k x ics).Holds cfg k (w.titledNote cfg x ics) ∧
        (w.titled cfg c k x ics).AllWritten m := by
    intro m hm
    obtain ⟨ho, hm⟩ := (allWritten_succ cfg k (updatedSummary cfg x ics)).1 hm
    exact ⟨holds_wrote (w := { w with store := w.store.rename c x }) k _ ho, hm⟩
  unfold World.renamed World.renamedNote World.extended World.extendedNote
  -- A name with an extension is written twice, first the summary and then the extension.
  cases hext : getFileExtension x with
  | none =>
    rw [hext, if_neg (by decide), Nat.add_zero, Nat.add_comm] at h
    exact htitled n h
  | some ext =>
    have hn : 1 + (if (getFileExtension x).isSome then 1 else 0) + n = n + 1 + 1 := by
      rw [hext, Option.isSome_some, if_pos rfl]
      omega
    rw [hn] at h
    obtain ⟨_, hn⟩ := htitled (n + 1) h
    obtain ⟨ho, hn⟩ := (allWritten_succ cfg k
      (icalcomponentSetFileExtension (w.titledNote cfg x ics) ext)).1 hn
    exact ⟨holds_wrote k _ ho, hn⟩

/-- When they all succeed, the writes of a rename leave its component in the file. -/
theorem moved_content (h : w.AllWritten (w.moveWrites cfg x p)) :
    (w.moved cfg c k x ics p q).Holds cfg k (w.storedNote cfg c k x ics p q) := by
  unfold World.moveWrites at h
  have hrenamed : (w.renamed cfg c k x ics).Holds cfg k _ ∧ _ := renamed_content h
  obtain ⟨hholds, hlast⟩ := hrenamed
  unfold World.moved World.storedNote
  simp only
  cases hp : w.component cfg p with
  | none =>
    simp only [Option.isSome_none, Bool.false_eq_true, if_false]
    exact hholds.congr rfl
  -- The file is written once more, behind the edit of the relation.
  | some npc =>
    rw [hp] at hlast
    simp only [Option.isSome_some, if_true] at hlast ⊢
    have ho : (w.renamed cfg c k x ics).outcome = .written :=
      ((allWritten_succ cfg (n := 0) k ics).1 hlast).1
    exact holds_wrote (w := { w.renamed cfg c k x ics with
      store := w.store.place (w.newParent cfg p) c x }) k _ ho

/-- What a rename leaves in the file can be printed. -/
theorem printable_storedNote (hics : ics.printable = true) :
    (w.storedNote cfg c k x ics p q).printable = true := by
  have hrenamed : (w.renamedNote cfg c k x ics).printable = true :=
    printable_renamedNote c k x ics hics
  unfold World.storedNote
  split
  · exact printable_stamp _ _ (printable_related _ _ (printable_unrelated _ _ hrenamed))
  · exact hrenamed

end Moved

end Agendafs
