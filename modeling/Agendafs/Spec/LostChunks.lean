import Agendafs.Native.IcalExtra
import Mathlib.Data.List.Infix
import Mathlib.Tactic.Cases

/-!
# Chunks that are lost

A client writes a text in pieces, one behind the other, and some of the writes
are lost because the file cannot be opened. Each write that is made keeps what
the old text has before the offset, so the lost pieces do no harm where they
were there already, and behind a piece that has been written nothing may be lost.

## Key results

- `chunks_land_iff`: which writes have to be made for the whole text to be there
-/

namespace Agendafs

/-- A chunk, and whether the file can be opened to write it. -/
abbrev Attempt := List UInt8 × Bool

/-- The text of a note with these descriptions. -/
def firstText (ds : List CStr) : CStr := ds.head?.getD []

/-- The descriptions after an attempt to write a chunk at an offset: the first one keeps what it
    has before the offset, and an empty one is taken out. -/
def descriptionsAfter (ds : List CStr) (offset : Nat) (a : Attempt) : List CStr :=
  if a.2 then
    let x := cString ((firstText ds).take offset ++ a.1)
    if x = [] then ds.tail else x :: ds.tail
  else ds

/-- The descriptions after all attempts, each behind the one before it. -/
def descriptionsAfterAll : List CStr → Nat → List Attempt → List CStr
  | ds, _, [] => ds
  | ds, offset, a :: as => descriptionsAfterAll (descriptionsAfter ds offset a)
      (offset + a.1.length) as

/-- The whole of the attempts, lost or not. -/
def wholeText (as : List Attempt) : List UInt8 := (as.map (·.1)).flatten

/-- The text begins with the chunks that are lost before the first write, and is just these if
    there is none; behind the first write no byte is lost. -/
def LostAreThere (text : CStr) (before : List UInt8) (as : List Attempt) : Prop :=
  let lost := before ++ wholeText (as.takeWhile (!·.2))
  let more := as.dropWhile (!·.2)
  lost <+: text ∧ (more = [] → text = lost) ∧ ∀ a ∈ more, a.1 ≠ [] → a.2 = true

/-- The attempts leave the whole text behind. Empty chunks at the start take a description
    out, each that is written; then the chunks lost are there in the text that is first. -/
def ChunksLand (ds : List CStr) (as : List Attempt) : Prop :=
  LostAreThere (firstText (ds.drop ((as.takeWhile (·.1 = [])).countP (·.2)))) []
    (as.dropWhile (·.1 = []))

instance (text : CStr) (before : List UInt8) (as : List Attempt) :
    Decidable (LostAreThere text before as) := inferInstanceAs (Decidable (_ ∧ _ ∧ _))

instance (ds : List CStr) (as : List Attempt) : Decidable (ChunksLand ds as) :=
  inferInstanceAs (Decidable (LostAreThere ..))

theorem wholeText_cons (a : Attempt) (as : List Attempt) :
    wholeText (a :: as) = a.1 ++ wholeText as := rfl

/-- Descriptions as libical hands them out: none is empty, and they are strings of C. -/
def AreTexts (ds : List CStr) : Prop := ∀ d ∈ ds, d ≠ [] ∧ (0 : UInt8) ∉ d

section

variable {ds : List CStr} {offset : Nat} {before b : List UInt8} {a : Attempt} {as : List Attempt}

theorem cString_of_not_mem {buf : List UInt8} (h : (0 : UInt8) ∉ buf) : cString buf = buf := by
  induction buf with
  | nil => rfl
  | cons b bs ih =>
    rw [List.mem_cons, not_or] at h
    unfold cString at ih ⊢
    rw [List.takeWhile_cons_of_pos (by simpa using Ne.symm h.1), ih h.2]

theorem AreTexts.tail (h : AreTexts ds) : AreTexts ds.tail := fun d hd =>
  h d (List.mem_of_mem_tail hd)

theorem AreTexts.not_mem (h : AreTexts ds) : (0 : UInt8) ∉ firstText ds := by
  cases ds with
  | nil => exact List.not_mem_nil
  | cons d ds => exact (h d List.mem_cons_self).2

theorem AreTexts.firstText_eq_nil (h : AreTexts ds) : firstText ds = [] ↔ ds = [] := by
  cases ds with
  | nil => exact iff_of_true rfl rfl
  | cons d ds => exact iff_of_false (h d List.mem_cons_self).1 (List.cons_ne_nil d ds)

/-- What a write that is made leaves. -/
theorem descriptionsAfter_written (h : AreTexts ds) (hb : (0 : UInt8) ∉ b) :
    descriptionsAfter ds offset (b, true) =
      if (firstText ds).take offset ++ b = [] then ds.tail
      else ((firstText ds).take offset ++ b) :: ds.tail := by
  have hnot : (0 : UInt8) ∉ (firstText ds).take offset ++ b := by
    rw [List.mem_append, not_or]
    exact ⟨fun hm => h.not_mem (List.mem_of_mem_take hm), hb⟩
  unfold descriptionsAfter
  simp only [if_true, cString_of_not_mem hnot]

theorem AreTexts.after (h : AreTexts ds) (hb : (0 : UInt8) ∉ a.1) :
    AreTexts (descriptionsAfter ds offset a) := by
  obtain ⟨b, opened⟩ := a
  cases opened with
  | false => exact h
  | true =>
    rw [descriptionsAfter_written h hb]
    split
    · exact h.tail
    · rename_i hne
      intro d hd
      rcases List.mem_cons.1 hd with rfl | hd
      · refine ⟨hne, fun hm => ?_⟩
        rcases List.mem_append.1 hm with hm | hm
        · exact h.not_mem (List.mem_of_mem_take hm)
        · exact hb hm
      · exact h.tail d hd

/-- The text after a write that is made behind some bytes. -/
theorem firstText_written (h : AreTexts ds) (hb : (0 : UInt8) ∉ b) (hoffset : 0 < offset) :
    firstText (descriptionsAfter ds offset (b, true)) = (firstText ds).take offset ++ b := by
  rw [descriptionsAfter_written h hb]
  split
  · rename_i hnil
    -- Nothing is kept and nothing written: there was no description.
    have htext := (List.take_eq_nil_iff.1 (List.append_eq_nil_iff.1 hnil).1).resolve_left (by omega)
    rw [hnil, h.firstText_eq_nil.1 htext]
    rfl
  · rfl

/-- Once the text ends at the offset, it has to be right, and no byte may be lost any more. -/
theorem lands_behind_iff (has : ∀ a ∈ as, (0 : UInt8) ∉ a.1) (h : AreTexts ds)
    (hbefore : before ≠ []) (hlength : (firstText ds).length ≤ before.length) :
    firstText (descriptionsAfterAll ds before.length as) = before ++ wholeText as ↔
      firstText ds = before ∧ ∀ a ∈ as, a.1 ≠ [] → a.2 = true := by
  induction as generalizing ds before with
  | nil =>
    rw [wholeText, List.map_nil, List.flatten_nil, List.append_nil]
    exact (and_iff_left fun a ha => absurd ha List.not_mem_nil).symm
  | cons a as ih =>
    obtain ⟨b, opened⟩ := a
    have hb := has _ List.mem_cons_self
    have hbehind : before ++ b ≠ [] := fun hnil => hbefore (List.append_eq_nil_iff.1 hnil).1
    have hpos : 0 < before.length := List.length_pos_of_ne_nil hbefore
    rw [descriptionsAfterAll, wholeText_cons, ← List.append_assoc, ← List.length_append,
      List.forall_mem_cons]
    cases opened with
    | true =>
      have htext := firstText_written h hb hpos
      rw [List.take_of_length_le hlength] at htext
      rw [ih (fun a ha => has a (.tail _ ha)) (h.after hb) hbehind
        (by rw [htext]; simp only [List.length_append]; omega), htext, List.append_cancel_right_eq]
      simp
    | false =>
      change firstText (descriptionsAfterAll ds _ as) = _ ↔ _
      rw [ih (fun a ha => has a (.tail _ ha)) h hbehind
        (by simp only [List.length_append]; omega)]
      by_cases hnil : b = []
      · simp [hnil]
      -- A byte that is lost here is missing, as the text ends before it.
      · have hshort : firstText ds ≠ before ++ b := fun heq => by
          have := List.length_pos_of_ne_nil hnil
          rw [heq, List.length_append] at hlength
          omega
        simp [hnil, hshort]

/-- When all chunks so far have been lost, the first that is written keeps what is there. -/
theorem lands_lost_iff (has : ∀ a ∈ as, (0 : UInt8) ∉ a.1) (h : AreTexts ds)
    (hbefore : before ≠ []) :
    firstText (descriptionsAfterAll ds before.length as) = before ++ wholeText as ↔
      LostAreThere (firstText ds) before as := by
  induction as generalizing before with
  | nil =>
    unfold LostAreThere
    simp only [descriptionsAfterAll, wholeText, List.takeWhile_nil, List.dropWhile_nil,
      List.map_nil, List.flatten_nil, List.append_nil]
    exact ⟨fun heq => ⟨heq ▸ List.prefix_rfl, fun _ => heq, fun a ha => absurd ha List.not_mem_nil⟩,
      fun hthere => hthere.2.1 trivial⟩
  | cons a as ih =>
    obtain ⟨b, opened⟩ := a
    have hb := has _ List.mem_cons_self
    have hrest : ∀ a ∈ as, (0 : UInt8) ∉ a.1 := fun a ha => has a (.tail _ ha)
    have hbehind : before ++ b ≠ [] := fun hnil => hbefore (List.append_eq_nil_iff.1 hnil).1
    rw [descriptionsAfterAll, wholeText_cons, ← List.append_assoc, ← List.length_append]
    cases opened with
    | false =>
      change firstText (descriptionsAfterAll ds _ as) = _ ↔ _
      rw [ih hrest hbehind]
      unfold LostAreThere
      rw [List.takeWhile_cons_of_pos rfl, List.dropWhile_cons_of_pos rfl, wholeText_cons,
        List.append_assoc]
    | true =>
      have htext := firstText_written h hb (List.length_pos_of_ne_nil hbefore)
      have hkept : (firstText ds).take before.length = before ↔ before <+: firstText ds :=
        eq_comm.trans List.prefix_iff_eq_take.symm
      rw [lands_behind_iff hrest (h.after hb) hbehind
        (by rw [htext]; simp only [List.length_append, List.length_take]; omega), htext,
        List.append_cancel_right_eq, hkept]
      unfold LostAreThere
      rw [List.takeWhile_cons_of_neg (by simp), List.dropWhile_cons_of_neg (by simp)]
      simp [wholeText]

/-- When no chunk is lost, each is appended to the ones before it; while nothing has been written,
    each takes the first description out. -/
theorem descriptionsAfterAll_written (ds : List CStr) {chunks : List (List UInt8)}
    (hnul : ∀ b ∈ chunks, (0 : UInt8) ∉ b) (hbefore : (0 : UInt8) ∉ before)
    (h : before ≠ [] → firstText ds = before) :
    let ds' := descriptionsAfterAll ds before.length (chunks.map (·, true))
    (before ++ chunks.flatten ≠ [] → firstText ds' = before ++ chunks.flatten) ∧
      (before ++ chunks.flatten = [] → ds' = ds.drop chunks.length) := by
  induction chunks generalizing ds before with
  | nil =>
    rw [List.flatten_nil, List.append_nil]
    exact ⟨h, fun _ => rfl⟩
  | cons b bs ih =>
    have hnew : (0 : UInt8) ∉ before ++ b := by
      rw [List.mem_append, not_or]
      exact ⟨hbefore, hnul b List.mem_cons_self⟩
    -- The text up to the offset is what has been written so far.
    have hkept : (firstText ds).take before.length = before := by
      by_cases hnil : before = []
      · rw [hnil]
        rfl
      · rw [h hnil, List.take_length]
    have hafter : descriptionsAfter ds before.length (b, true) =
        if before ++ b = [] then ds.tail else (before ++ b) :: ds.tail := by
      unfold descriptionsAfter
      simp only [if_true, hkept, cString_of_not_mem hnew]
    obtain ⟨hsome, hnone⟩ := ih (descriptionsAfter ds before.length (b, true))
      (fun b' hb' => hnul b' (.tail _ hb')) hnew fun hne => by rw [hafter, if_neg hne]; rfl
    rw [List.map_cons, descriptionsAfterAll, List.flatten_cons, ← List.append_assoc,
      ← List.length_append]
    refine ⟨hsome, fun hnil => ?_⟩
    rw [hnone hnil, hafter, if_pos (List.append_eq_nil_iff.1 hnil).1, List.length_cons,
      List.drop_tail]

/-- The whole text is there after the attempts to write it, from the start of the note. -/
theorem chunks_land_iff (has : ∀ a ∈ as, (0 : UInt8) ∉ a.1) (h : AreTexts ds) :
    firstText (descriptionsAfterAll ds 0 as) = wholeText as ↔ ChunksLand ds as := by
  unfold ChunksLand
  induction as generalizing ds with
  | nil =>
    simp [descriptionsAfterAll, LostAreThere, wholeText]
  | cons a as ih =>
    obtain ⟨b, opened⟩ := a
    have hb := has _ List.mem_cons_self
    have hrest : ∀ a ∈ as, (0 : UInt8) ∉ a.1 := fun a ha => has a (.tail _ ha)
    rw [descriptionsAfterAll, wholeText_cons, Nat.zero_add]
    by_cases hnil : b = []
    · subst hnil
      rw [List.takeWhile_cons_of_pos (by simp), List.dropWhile_cons_of_pos (by simp)]
      change firstText (descriptionsAfterAll _ 0 as) = wholeText as ↔ _
      rw [ih hrest (h.after hb)]
      cases opened with
      | false => rfl
      | true =>
        have hafter : descriptionsAfter ds 0 ([], true) = ds.tail := by
          rw [descriptionsAfter_written h hb]
          exact if_pos rfl
        rw [hafter, List.countP_cons_of_pos rfl, ← List.drop_one, List.drop_drop, Nat.add_comm]
    · rw [List.takeWhile_cons_of_neg (by simpa using hnil),
        List.dropWhile_cons_of_neg (by simpa using hnil), List.countP_nil, List.drop_zero]
      cases opened with
      | false =>
        change firstText (descriptionsAfterAll ds _ as) = _ ↔ _
        rw [lands_lost_iff hrest h hnil]
        unfold LostAreThere
        rw [List.takeWhile_cons_of_pos rfl, List.dropWhile_cons_of_pos rfl, wholeText_cons,
          List.nil_append]
      | true =>
        have hafter : firstText (descriptionsAfter ds 0 (b, true)) = b := by
          rw [descriptionsAfter_written h hb, List.take_zero, List.nil_append, if_neg hnil]
          rfl
        rw [lands_behind_iff hrest (h.after hb) hnil (by rw [hafter])]
        unfold LostAreThere
        rw [List.takeWhile_cons_of_neg (by simp), List.dropWhile_cons_of_neg (by simp)]
        simp [hafter, wholeText]

end

end Agendafs
