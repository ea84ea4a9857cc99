import Agendafs.Native.Watch
import Agendafs.Spec.Runs

/-!
# The watcher handles each event once

inotify puts whole events into the buffer. For each such buffer the loop of the watcher
finds the events at the places where they are, handles them in their order and each of
them once, and uses no byte behind the last one. So the states after it are states of
runs. For any other bytes the loop ends as well.

## Key results

- `handleEvents_run`: one buffer
- `watch_handles_events`: any number of buffers
- `handleEvents_ends`: the loop ends for all bytes
-/

namespace Agendafs

open Layout Prog

variable {Text : Type} {cfg : Config Text} {w w' : World Text}

/-- An event as inotify puts it into the buffer: a name is followed by zero bytes, one at least. -/
structure KernelEvent where
  wd : UInt32
  mask : UInt32
  cookie : UInt32
  name : CStr
  padding : Nat
  noZero : 0 ∉ name
  terminated : name ≠ [] → 0 < padding
  fits : name.length + padding < 2 ^ 32

namespace KernelEvent

/-- `event->len`. -/
def len (e : KernelEvent) : Nat := e.name.length + e.padding

/-- The bytes in front of the name. -/
def header (e : KernelEvent) : List UInt8 :=
  leBytes 4 e.wd.toNat ++ (leBytes 4 e.mask.toNat ++ (leBytes 4 e.cookie.toNat ++ leBytes 4 e.len))

/-- The bytes of the event. -/
def encode (e : KernelEvent) : List UInt8 :=
  e.header ++ (e.name ++ List.replicate e.padding 0)

/-- What the handler gets. -/
def event (e : KernelEvent) : InotifyEvent := ⟨e.mask, e.name⟩

theorem length_encode (e : KernelEvent) : e.encode.length = 16 + e.len := by
  simp only [encode, header, len, List.length_append, length_leBytes, List.length_replicate]

variable {e : KernelEvent} (pre post : List UInt8)

theorem fieldAt_mask : fieldAt (pre ++ (e.encode ++ post)) (pre.length + 4) 4 =
    some e.mask.toNat := by
  have h := fieldAt_append 4 e.mask.toNat e.mask.toNat_lt (pre ++ leBytes 4 e.wd.toNat)
    (leBytes 4 e.cookie.toNat ++ (leBytes 4 e.len ++
      (e.name ++ (List.replicate e.padding 0 ++ post)))) (i := pre.length + 4) (by simp)
  simpa [encode, header] using h

theorem fieldAt_len : fieldAt (pre ++ (e.encode ++ post)) (pre.length + 12) 4 = some e.len := by
  have h := fieldAt_append 4 e.len e.fits
    (pre ++ (leBytes 4 e.wd.toNat ++ (leBytes 4 e.mask.toNat ++ leBytes 4 e.cookie.toNat)))
    (e.name ++ (List.replicate e.padding 0 ++ post)) (i := pre.length + 12) (by simp)
  simpa only [encode, header, List.append_assoc] using h

theorem cstringAt_name (hlen : e.len ≠ 0) :
    cstringAt (pre ++ (e.encode ++ post)) (pre.length + 16) = some e.name := by
  obtain ⟨padding, hpadding⟩ : ∃ n, e.padding = n + 1 := by
    refine Nat.exists_eq_succ_of_ne_zero fun hzero => hlen ?_
    have hname : e.name = [] := Decidable.byContradiction fun hname => by
      have := e.terminated hname
      omega
    rw [len, hname, hzero]
    rfl
  have h := cstringAt_append e.noZero (pre ++ e.header) (List.replicate padding 0 ++ post)
    (i := pre.length + 16) (by simp [header])
  simpa [encode, hpadding, List.replicate_succ] using h

theorem nameAt_run :
    nameAt (pre ++ (e.encode ++ post)) pre.length e.len w = .ok (e.name, w) := by
  unfold nameAt
  by_cases hlen : e.len = 0
  · have hname : e.name = [] := List.eq_nil_of_length_eq_zero (by unfold len at hlen; omega)
    rw [if_pos hlen, hname]
    rfl
  · rw [if_neg hlen, cstringAt_name pre post hlen]
    rfl

theorem eventAt_run :
    eventAt (pre ++ (e.encode ++ post)) pre.length e.len w = .ok (e.event, w) := by
  unfold eventAt
  rw [fieldAt_mask, bind_run_ok (show inBuffer _ w = .ok (e.mask.toNat, w) from rfl),
    bind_run_ok (nameAt_run pre post), UInt32.ofNat_toNat]
  rfl

end KernelEvent

/-! ## The loop -/

/-- The bytes of a buffer with these events. -/
def encodeEvents (events : List KernelEvent) : List UInt8 := events.flatMap KernelEvent.encode

theorem handling_bind {α β : Type} (m : FsM Text α) (f : α → FsM Text β) :
    handling (m >>= f) = handling m >>= fun a => handling (f a) := by
  funext w
  unfold handling
  rw [bind_run, bind_run]
  cases m w <;> rfl

theorem length_le_encodeEvents (events : List KernelEvent) :
    events.length ≤ (encodeEvents events).length := by
  induction events with
  | nil => exact Nat.le_refl 0
  | cons e events ih =>
    rw [encodeEvents, List.flatMap_cons, List.length_append, List.length_cons, e.length_encode]
    unfold encodeEvents at ih
    omega

/-- The events of a buffer are handled in their order. -/
theorem handleEvents_run (events : List KernelEvent) (pre : List UInt8) (rounds : Nat)
    (hrounds : events.length < rounds) :
    handleEvents cfg (pre ++ encodeEvents events) rounds pre.length =
      handling (events.forM fun e => handleVdirEvent cfg e.event) := by
  induction events generalizing pre rounds with
  | nil =>
    obtain ⟨rounds, rfl⟩ := Nat.exists_eq_succ_of_ne_zero (Nat.ne_of_gt hrounds)
    unfold handleEvents
    rw [encodeEvents, List.flatMap_nil, List.append_nil, if_neg (Nat.lt_irrefl _)]
    rfl
  | cons e events ih =>
    obtain ⟨rounds, rfl⟩ := Nat.exists_eq_succ_of_ne_zero (Nat.ne_of_gt (Nat.zero_lt_of_lt hrounds))
    have hbuffer : encodeEvents (e :: events) = e.encode ++ encodeEvents events :=
      List.flatMap_cons
    have hmore : pre.length < (pre ++ (e.encode ++ encodeEvents events)).length := by
      rw [List.length_append, List.length_append, e.length_encode]
      omega
    -- The next event is behind this one.
    have hnext := ih (pre ++ e.encode) rounds (Nat.lt_of_succ_lt_succ hrounds)
    rw [List.append_assoc, List.length_append, e.length_encode] at hnext
    funext w
    rw [hbuffer, handleEvents, if_pos hmore, e.fieldAt_len,
      bind_run_ok (show inBuffer _ w = .ok (e.len, w) from rfl),
      bind_run_ok (e.eventAt_run pre _)]
    dsimp only
    rw [hnext]
    exact congrFun (handling_bind _ _).symm w

theorem ok_of_handling {α : Type} {m : FsM Text α} {r : α × World Text}
    (h : handling m w = .ok r) : m w = .ok r := by
  unfold handling at h
  cases hm : m w with
  | ok r' => rw [hm] at h; exact congrArg _ (Except.ok.inj h)
  | error e => rw [hm] at h; cases h

/-- The events that these reads deliver. -/
def delivered (reads : List (Option (List KernelEvent))) : List KernelEvent :=
  reads.flatMap (·.getD [])

theorem watchVdirChanges_run (reads : List (Option (List KernelEvent))) :
    watchVdirChanges cfg (reads.map (Option.map encodeEvents)) =
      handling ((delivered reads).forM fun e => handleVdirEvent cfg e.event) := by
  induction reads with
  | nil => rfl
  | cons read reads ih =>
    cases read with
    | none => exact ih
    | some events =>
      have hloop : handleEvents cfg (encodeEvents events) ((encodeEvents events).length + 1) 0 = _ :=
        handleEvents_run events [] _ (Nat.lt_succ_of_le (length_le_encodeEvents events))
      change (handleEvents cfg (encodeEvents events) _ 0 >>= fun _ => _) = _
      rw [hloop, ih, ← handling_bind,
        show delivered (some events :: reads) = events ++ delivered reads from List.flatMap_cons,
        List.forM_eq_forM, List.forM_append]

/-- Each event is a step of a run. -/
theorem reachable_of_events (hw : Reachable cfg w) {events : List KernelEvent}
    (hrun : events.forM (fun e => handleVdirEvent cfg e.event) w = .ok ((), w')) :
    Reachable cfg w' := by
  induction events generalizing w with
  | nil =>
    cases hrun
    exact hw
  | cons e events ih =>
    change (handleVdirEvent cfg e.event >>= fun _ => _) w = _ at hrun
    rw [bind_run] at hrun
    split at hrun
    · rename_i w₁ hfirst
      have hcall : exec cfg (.event e.event) w = .ok (0, w₁) := bind_run_ok hfirst
      exact ih (Run.call (o := .event e.event) hw trivial trivial hcall) hrun
    · cases hrun

/-- Whatever events inotify delivers in whatever buffers, the watcher handles each of them once, in
    their order, and leaves a state of a run. -/
theorem watch_handles_events (cfg : Config Text) (reads : List (Option (List KernelEvent))) :
    watchVdirChanges cfg (reads.map (Option.map encodeEvents)) =
        handling ((delivered reads).forM fun e => handleVdirEvent cfg e.event) ∧
      ∀ w w', Reachable cfg w →
        watchVdirChanges cfg (reads.map (Option.map encodeEvents)) w = .ok ((), w') →
        Reachable cfg w' := by
  refine ⟨watchVdirChanges_run reads, fun w w' hw hrun => ?_⟩
  rw [watchVdirChanges_run] at hrun
  exact reachable_of_events hw (ok_of_handling hrun)

/-- The event of a file that has been created, with a name field of 16 bytes. -/
def creationOf (name : CStr) (noZero : 0 ∉ name) (short : name.length < 16) : KernelEvent where
  wd := 1
  mask := IN_CREATE
  cookie := 0
  name := name
  padding := 16 - name.length
  noZero := noZero
  terminated _ := by omega
  fits := by omega

/-- The files of a directory and of a note in it have been created, one after the other. -/
def twoCreations : List KernelEvent :=
  [creationOf (bytes "d.ics") (by decide) (by decide),
    creationOf (bytes "n.ics") (by decide) (by decide)]

/-- One call of `read` gives both events; the note ends up in the directory. -/
theorem watch_handles_events_twoCreations :
    (encodeEvents twoCreations).length = 64 ∧
      ∃ w', watchVdirChanges sampleConfig [none, some (encodeEvents twoCreations)]
          { sampleMount [] {} with files := sampleFiles nestedNote } = .ok ((), w') ∧
        w'.store.links.parent 2 = some 1 ∧ Reachable sampleConfig w' := by
  have hmount : Reachable sampleConfig (sampleMount [] {}) :=
    run_sampleMount {} (by decide) (by decide) trivial (by decide +kernel)
  have hw : Reachable sampleConfig { sampleMount [] {} with files := sampleFiles nestedNote } :=
    .external _ _ hmount
  obtain ⟨hloop, hreachable⟩ := watch_handles_events sampleConfig [none, some twoCreations]
  obtain ⟨⟨⟩, hrun, hparent⟩ := Prog.run_of_check
    (m := twoCreations.forM fun e => handleVdirEvent sampleConfig e.event)
    (s := { sampleMount [] {} with files := sampleFiles nestedNote })
    (f := fun _ w' => decide (w'.store.links.parent 2 = some 1)) (by decide +kernel)
  have hwatch := congrFun hloop { sampleMount [] {} with files := sampleFiles nestedNote }
  rw [show delivered [none, some twoCreations] = twoCreations from rfl, handling, hrun] at hwatch
  exact ⟨by decide, _, hwatch, of_decide_eq_true hparent, hreachable _ _ hw hwatch⟩

/-! ## Other bytes -/

theorem handling_avoids {α : Type} (m : FsM Text α) : Avoids .endless (handling m) := by
  intro w h
  unfold handling at h
  cases hm : m w with
  | ok r => rw [hm] at h; cases h
  | error e => rw [hm] at h; cases h

theorem inBuffer_avoids {α : Type} (a : Option α) :
    Avoids .endless (inBuffer a : WatchM Text α) := by
  cases a with
  | none => exact .throw nofun
  | some a => exact .pure a

theorem eventAt_avoids (buffer : List UInt8) (i len : Nat) :
    Avoids .endless (eventAt buffer i len : WatchM Text InotifyEvent) := by
  refine .bind (inBuffer_avoids _) fun mask => .bind ?_ fun name => .pure _
  unfold nameAt
  split
  · exact .pure _
  · exact inBuffer_avoids _

/-- Each round goes on by the size of an event without name, at least. -/
theorem handleEvents_ends (buffer : List UInt8) {rounds i : Nat} (hpos : 0 < rounds)
    (hrounds : buffer.length < rounds + i) : Avoids .endless (handleEvents cfg buffer rounds i) := by
  induction rounds generalizing i with
  | zero => exact absurd hpos (Nat.lt_irrefl 0)
  | succ rounds ih =>
    unfold handleEvents
    split
    · refine .bind (inBuffer_avoids _) fun len => .bind (eventAt_avoids _ _ _) fun event =>
        .bind (handling_avoids _) fun _ => ih ?_ ?_
      · omega
      · omega
    · exact .pure _

/-- Whatever has been read, the watcher goes on to the next call of `read`, unless it stops. -/
theorem watch_ends (reads : List (Option (List UInt8))) :
    Avoids .endless (watchVdirChanges cfg reads) := by
  induction reads with
  | nil => exact .pure _
  | cons read reads ih =>
    cases read with
    | none => exact ih
    | some buffer =>
      exact .bind (handleEvents_ends buffer (Nat.succ_pos _) (by omega)) fun _ => ih

end Agendafs
