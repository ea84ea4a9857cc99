import Agendafs.ForStd.Calls
import Agendafs.Spec.NoteEdits

/-!
# The values of `user.status`

`draft` and `final` are the values the manual names. `parse_ical_status` takes
every other text for `final`, so the test for a wrong value in `fuse_setxattr`
never succeeds.

## Key results

- `statusOf_stored`: the status that is read back
- `statusChecked_iff`: when one call does what is documented
- `status_values_iff`
-/

namespace Agendafs

open Icalcomponent Store

variable {Text : Type} {cfg : Config Text} {w w' : World Text} {c : Icalcomponent}
  {path : CStr} {n : NodeId} {k : CStr} {text : CStr} {status : Int}

/-! ## The status of a note -/

/-- The values that are documented. -/
def DocumentedStatus (text : CStr) : Prop := text = bytes "draft" ∨ text = bytes "final"

instance (text : CStr) : Decidable (DocumentedStatus text) := inferInstanceAs (Decidable (_ ∨ _))

/-- The status a text of a STATUS property stands for, as the program prints it. -/
def readStatus (value : CStr) : Option CStr :=
  formatIcalStatus (icalpropertyGetStatus { kind := .status, value := value })

theorem statusOf_eq (c : Icalcomponent) : statusOf c = (c.getText .status).bind readStatus := by
  unfold statusOf getText readStatus
  cases c.getInner.bind (·.getFirstProperty .status) <;> rfl

/-- What is stored for a documented value is read as that value. -/
theorem readStatus_text (h : DocumentedStatus text) :
    readStatus (parseIcalStatus text).text = some text := by
  rcases h with rfl | rfl
  · decide
  · decide

theorem statusText_ne_nil (istatus : IcalStatus) : istatus.text ≠ [] := by
  cases istatus <;> decide

theorem keeps_setStatus (value : CStr) : Keeps (·.kind = .uid) (setStatus value) :=
  (Keeps.setFirstProperty fun p hp => by simp [hp]).modifyInner

theorem printable_setStatus (value : CStr) (hc : c.printable = true) :
    (c.setStatus value).printable = true :=
  (printable_setFirstProperty .status value).modifyInner c hc

/-- After the status has been set and written it is read back. -/
theorem statusOf_stored (hc : c.getInner.isSome = true) (istatus : IcalStatus) (now : CStr) :
    statusOf (stamp now (c.setStatus istatus.text)).reread = readStatus istatus.text := by
  have hset : (c.setStatus istatus.text).getText .status = some istatus.text := getText_setText hc
  have hstamp := (keeps_stamp (onlyKind_kind .status) (by decide) now).getText
    (c.setStatus istatus.text)
  rw [statusOf_eq, getText_reread (by decide) (statusText_ne_nil istatus) (hstamp.trans hset)]
  rfl

/-! ## One call -/

theorem parseIcalStatus_ne_none (input : CStr) : parseIcalStatus input ≠ .none := by
  unfold parseIcalStatus
  split
  · decide
  · split <;> decide

/-- Every value that is not too long is set, the wrong ones as `final`. -/
theorem setxattrEdit_status (cfg : Config Text) (value : List UInt8) (s : Nat) :
    setxattrEdit cfg (bytes "user.status") value s =
      if 64 * 1024 ≤ (cString value).length then none
      else some (·.setStatus (parseIcalStatus (cString value)).text) := by
  have hshort : ¬ 256 ≤ (bytes "user.status").length := by decide
  unfold setxattrEdit
  refine if_congr (or_iff_right hshort) rfl ?_
  rw [if_neg (by decide), if_neg (by decide), if_neg (by decide), if_neg (by decide), if_pos rfl,
    if_neg (parseIcalStatus_ne_none _)]

/-- A call that has been made to set the status, in the words of the manual: it accepts the
    documented values, and what it accepts is what is read from then on. -/
structure StatusChecked (cfg : Config Text) (path : CStr)
    (m : Prog.Made AttrCall Int (World Text)) : Prop where
  accepted : ∀ text, m.call.text = some text → DocumentedStatus text →
    (m.result = 0 ↔ m.before.outcome = .written)
  refused : ∀ text, m.call.text = some text → ¬ DocumentedStatus text →
    m.result = -EINVAL ∧ m.after.files = m.before.files ∧ m.after.store = m.before.store
  reads : ∀ v, m.before.HoldsXattr cfg path (bytes "user.status") v →
    m.after.HoldsXattr cfg path (bytes "user.status") (if m.result = 0 then m.call.text else v)

/-- The value is documented, and the write is not cut short. -/
def StatusTaken (m : Prog.Made AttrCall Int (World Text)) : Prop :=
  (∃ text, m.call.text = some text ∧ DocumentedStatus text) ∧ m.before.WritesWhole

/-- The calls on the status of a note. -/
abbrev statusCall (cfg : Config Text) (path : CStr) (a : AttrCall) : FsM Text Int :=
  exec cfg (a.op path (bytes "user.status"))

variable {value : List UInt8} {s flags : Nat}

theorem documented_short (h : DocumentedStatus text) : ¬ 64 * 1024 ≤ text.length := by
  rcases h with rfl | rfl
  · decide
  · decide

/-- A value that is not too long is written, whatever it is. -/
theorem setStatus_wrote (hn : w.JournalPath cfg path n k c)
    (hshort : ¬ 64 * 1024 ≤ (cString value).length)
    (hrun : statusCall cfg path (.set value s flags) w = .ok (status, w')) :
    status = w.outcome.status ∧
      w' = w.wrote cfg k (c.setStatus (parseIcalStatus (cString value)).text) := by
  refine hn.toNotePath.wrote_of_call hn.parses ?_ hrun
  exact (setxattrEdit_status cfg value s).trans (if_neg hshort)

/-- No value is refused as a wrong one. -/
theorem status_ne_einval (hn : w.JournalPath cfg path n k c)
    (hrun : statusCall cfg path (.set value s flags) w = .ok (status, w')) :
    status ≠ -EINVAL := by
  by_cases hshort : 64 * 1024 ≤ (cString value).length
  · change fuseSetxattr cfg path (bytes "user.status") value s flags w = .ok (status, w') at hrun
    rw [fuseSetxattr_tooLong (.inr hshort)] at hrun
    obtain ⟨rfl, _⟩ := Prod.mk.inj (Except.ok.inj hrun)
    decide
  · obtain ⟨rfl, _⟩ := setStatus_wrote hn hshort hrun
    exact WriteOutcome.status_ne (by decide) (by decide) w.outcome

theorem xattrOf_status (c : Icalcomponent) : xattrOf cfg c (bytes "user.status") = statusOf c := by
  unfold xattrOf
  rw [if_neg (by decide), if_neg (by decide), if_neg (by decide), if_pos rfl]

theorem holdsStatus_iff (hn : w.NotePath cfg path n k) {v : Option CStr}
    (hv : ∀ x, v = some x → x.length < 2 ^ 31) :
    w.HoldsXattr cfg path (bytes "user.status") v ↔ (w.fileComponent cfg k).bind statusOf = v := by
  rw [holdsXattr_iff hn.inv hn.toOpensAt hv (by decide)]
  simp only [xattrOf_status]

/-- A documented value that is written whole is read back. -/
theorem holds_setStatus (hL : cfg.ical.Lawful) (hn : w.JournalPath cfg path n k c)
    (ho : w.outcome = .written) (htext : DocumentedStatus text) :
    (w.wrote cfg k (c.setStatus (parseIcalStatus text).text)).HoldsXattr cfg path
      (bytes "user.status") (some text) := by
  have hprintable := printable_setStatus (parseIcalStatus text).text
    (printable_of_parsed (hn.parsed hL))
  rw [hn.toNotePath.holds_of_wrote hL hprintable (fun x hx => ?_) (by decide), World.stored, ho]
  · simp only [Option.bind_some, xattrOf_status, statusOf_stored hn.journal,
      readStatus_text htext]
  · cases hx
    have := documented_short htext
    omega

/-- A call does what is documented exactly if the value is a documented one and the write is not
    cut short. -/
theorem statusChecked_iff (hL : cfg.ical.Lawful) {m : Prog.Made AttrCall Int (World Text)}
    (hn : m.before.JournalPath cfg path n k c) (hset : m.call ≠ .remove)
    (hrun : statusCall cfg path m.call m.before = .ok (m.result, m.after)) :
    StatusChecked cfg path m ↔ StatusTaken m := by
  obtain ⟨before, call, result, after⟩ := m
  cases call with
  | remove => exact absurd rfl hset
  | set value s flags =>
  simp only at hn hrun
  constructor
  · intro hchecked
    by_cases htext : DocumentedStatus (cString value)
    · refine ⟨⟨_, rfl, htext⟩, ?_⟩
      obtain ⟨hresult, _⟩ := setStatus_wrote hn (documented_short htext) hrun
      have haccepted := hchecked.accepted _ rfl htext
      simp only [hresult] at haccepted
      unfold World.WritesWhole
      cases ho : before.outcome with
      | written => rfl
      | openFailed => rfl
      -- The status of a write that is cut short is 0.
      | writeFailed left =>
        rw [ho] at haccepted
        exact absurd (haccepted.1 rfl) nofun
    · exact absurd (hchecked.refused _ rfl htext).1 (status_ne_einval hn hrun)
  · rintro ⟨⟨text, htext, hdocumented⟩, hwhole⟩
    obtain rfl : cString value = text := Option.some.inj htext
    obtain ⟨rfl, rfl⟩ := setStatus_wrote hn (documented_short hdocumented) hrun
    unfold World.WritesWhole at hwhole
    simp only at hwhole
    refine ⟨fun _ _ _ => ?_, fun text' htext' hnot => ?_, fun v hv => ?_⟩
    · simp only [WriteOutcome.status_eq_zero]
      cases ho : before.outcome with
      | written => exact iff_of_true nofun rfl
      | openFailed => exact iff_of_false (fun h => h rfl) nofun
      | writeFailed left =>
        rw [ho] at hwhole
        cases hwhole
    · obtain rfl : cString value = text' := Option.some.inj htext'
      exact absurd hdocumented hnot
    · simp only
      cases ho : before.outcome with
      | written =>
        have hzero : (.written : WriteOutcome Text).status = 0 := rfl
        rw [if_pos hzero]
        exact holds_setStatus hL hn ho hdocumented
      -- Nothing has been written, so the old status is read.
      | openFailed =>
        have hne : (.openFailed : WriteOutcome Text).status ≠ 0 :=
          fun hzero => WriteOutcome.status_eq_zero.1 hzero rfl
        rw [if_neg hne]
        exact hv.congr hn.toNotePath (hn.toNotePath.after hrun) (fileComponent_openFailed ho k _)
      | writeFailed left =>
        rw [ho] at hwhole
        cases hwhole

/-! ## Runs -/

/-- The value of the last call that has returned 0, or the one before the run. -/
def lastAccepted (initial : Option CStr) (ms : List (Prog.Made AttrCall Int (World Text))) :
    Option CStr := ms.foldl (fun v m => if m.result = 0 then m.call.text else v) initial

/-- A call that is taken leaves the note one. -/
theorem journalPath_of_taken (hL : cfg.ical.Lawful) {m : Prog.Made AttrCall Int (World Text)}
    (hn : m.before.JournalPath cfg path n k c) (htaken : StatusTaken m)
    (hrun : statusCall cfg path m.call m.before = .ok (m.result, m.after)) :
    ∃ c', m.after.JournalPath cfg path n k c' := by
  obtain ⟨before, call, result, after⟩ := m
  obtain ⟨⟨text, htext, hdocumented⟩, hwhole⟩ := htaken
  cases call with
  | remove => cases htext
  | set value s flags =>
    obtain rfl : cString value = text := Option.some.inj htext
    simp only at hn hrun hwhole
    obtain ⟨_, rfl⟩ := setStatus_wrote hn (documented_short hdocumented) hrun
    exact hn.wrote (f := setStatus _) hL (keeps_setStatus _)
      (printable_setStatus _ (printable_of_parsed (hn.parsed hL))) hwhole

/-- In a run of calls that set the status of a note, each call does what is documented and the
    value of the last accepted one is read at the end, exactly if all values are documented and
    no write is cut short. -/
theorem status_values_iff (hL : cfg.ical.Lawful) (h : Reachable cfg w)
    (hn : w.OpensAt cfg path n k) (hc : w.fileComponent cfg k = some c)
    (hnote : c.getInner.isSome = true) {ms : List (Prog.Made AttrCall Int (World Text))}
    (hrun : Prog.Calls (statusCall cfg path) w ms w') (hset : ∀ m ∈ ms, m.call ≠ .remove) :
    ((∀ m ∈ ms, StatusChecked cfg path m) ∧
      ∀ v, w.HoldsXattr cfg path (bytes "user.status") v →
        w'.HoldsXattr cfg path (bytes "user.status") (lastAccepted v ms)) ↔
      ∀ m ∈ ms, StatusTaken m := by
  have hstart : ∃ c, w.JournalPath cfg path n k c := ⟨c, ⟨hn, h.sound.toInv⟩, hc, hnote⟩
  have hiff : (∀ m ∈ ms, StatusChecked cfg path m) ↔ ∀ m ∈ ms, StatusTaken m :=
    hrun.forall_iff (I := fun v => ∃ c, v.JournalPath cfg path n k c) hstart
      (fun m hm hcall ⟨_, hnote⟩ => statusChecked_iff hL hnote (hset m hm) hcall)
      fun _ _ hcall ⟨_, hnote⟩ htaken => journalPath_of_taken hL hnote htaken hcall
  rw [← hiff]
  refine and_iff_left_of_imp fun hchecked v hv => ?_
  exact hrun.foldl_rel (R := fun u v => u.HoldsXattr cfg path (bytes "user.status") v)
    (fun m hm v hv => (hchecked m hm).reads v hv) hv

/-- A call that sets the status of the note `hello`. -/
def setStatusCall (text : CStr) : AttrCall := .set text text.length 0

/-- The state after it. -/
def statusSet (text : CStr) : World Icalcomponent :=
  (statusCall sampleConfig (bytes "/Note.txt") (setStatusCall text)).final (describedMount [])

theorem statusSet_run (text : CStr)
    (h : (statusCall sampleConfig (bytes "/Note.txt") (setStatusCall text)).check
      (describedMount []) (fun s _ => decide (s = 0)) = true) :
    Prog.Calls (statusCall sampleConfig (bytes "/Note.txt")) (describedMount [])
      [⟨describedMount [], setStatusCall text, 0, statusSet text⟩] (statusSet text) :=
  .one (exec_sample h)

theorem status_values_iff_describedNote :
    (statusSet (bytes "draft")).HoldsXattr sampleConfig (bytes "/Note.txt") (bytes "user.status")
      (some (bytes "draft")) := by
  obtain ⟨c, hn, _⟩ := describedMount_noteAt []
  have hrun := statusSet_run (bytes "draft") (by decide +kernel)
  have hnone : (describedMount []).HoldsXattr sampleConfig (bytes "/Note.txt")
      (bytes "user.status") none := by
    refine (holdsStatus_iff ⟨hn.toOpensAt, (reachable_describedMount []).sound.toInv⟩ ?_).2 ?_
    · intro x hx
      cases hx
    · decide +kernel
  refine ((status_values_iff structuralIcal_lawful (reachable_describedMount []) hn.toOpensAt
    hn.parses hn.journal hrun ?_).2 ?_).2 none hnone
  · simp [setStatusCall]
  · intro m hm
    obtain rfl := List.mem_singleton.1 hm
    have hwhole : (describedMount []).outcome.isWhole = true := by decide +kernel
    exact ⟨⟨_, rfl, .inl (by decide)⟩, hwhole⟩

/-- A misspelt status is accepted, and publishes the note. -/
theorem not_all_status_values :
    ¬ ∀ (w w' : World Icalcomponent) (path k : CStr) (n : NodeId) (c : Icalcomponent)
      (ms : List (Prog.Made AttrCall Int (World Icalcomponent))), Reachable sampleConfig w →
      w.NoteAt sampleConfig path n k c → Prog.Calls (statusCall sampleConfig path) w ms w' →
      (∀ m ∈ ms, m.call ≠ .remove) → ∀ m ∈ ms, StatusChecked sampleConfig path m := by
  intro hall
  obtain ⟨c, hn, _⟩ := describedMount_noteAt []
  have hrun := statusSet_run (bytes "darft") (by decide +kernel)
  have hchecked := hall _ _ _ _ _ c _ (reachable_describedMount []) hn hrun
    (by simp [setStatusCall]) _ List.mem_cons_self
  have hrefused := (hchecked.refused (bytes "darft") (by decide) (by decide)).1
  exact absurd hrefused (by decide)

end Agendafs
