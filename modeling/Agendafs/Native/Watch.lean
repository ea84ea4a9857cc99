import Agendafs.ForStd.Layout
import Agendafs.Native.Main

/-!
# The watcher of main.c

`watch_vdir_changes` reads a buffer of events at a time and handles one event after the
other. Each event is a `struct inotify_event` of 16 bytes, followed by `len` bytes for
the name. What has been read is a list of bytes; reading behind it stops.
-/

namespace Agendafs

open Layout

/-- Why the watcher stops. -/
inductive WatchStop
  /-- Bytes behind those that have been read are used. -/
  | outside
  | endless
  | handler (crash : Crash)

/-- Programs of the watcher. -/
abbrev WatchM (Text : Type) := Prog WatchStop (World Text)

section

variable {Text : Type} (cfg : Config Text)

/-- Call the handler. -/
def handling {α : Type} (m : FsM Text α) : WatchM Text α := fun w => (m w).mapError .handler

/-- A number or a string of the buffer. -/
def inBuffer {α : Type} : Option α → WatchM Text α
  | some a => pure a
  | none => throw .outside

/-- `event->name` of the event at `i`, which is looked at if `len` is not 0. -/
def nameAt (buffer : List UInt8) (i len : Nat) : WatchM Text CStr :=
  if len = 0 then pure [] else inBuffer (cstringAt buffer (i + 16))

/-- What `handle_vdir_event` uses of the event at `i`. -/
def eventAt (buffer : List UInt8) (i len : Nat) : WatchM Text InotifyEvent := do
  let mask ← inBuffer (fieldAt buffer (i + 4) 4)
  let name ← nameAt buffer i len
  pure ⟨UInt32.ofNat mask, name⟩

/-- The inner loop of `watch_vdir_changes`, from `i` on. -/
def handleEvents (buffer : List UInt8) : Nat → Nat → WatchM Text Unit
  | 0, _ => throw .endless
  | rounds + 1, i =>
    if i < buffer.length then do
      let len ← inBuffer (fieldAt buffer (i + 12) 4)
      let event ← eventAt buffer i len
      handling (handleVdirEvent cfg event)
      let eventSize := 16 + len
      handleEvents buffer rounds (i + eventSize)
    else pure ()

/-- `watch_vdir_changes`, by what its calls of `read` give: a buffer, or nothing when there is no
    event. The loop has no end; this is its course up to some call. -/
def watchVdirChanges : List (Option (List UInt8)) → WatchM Text Unit
  | [] => pure ()
  | none :: reads => watchVdirChanges reads
  | some buffer :: reads => do
    -- Each round goes on by 16 bytes at least.
    handleEvents cfg buffer (buffer.length + 1) 0
    watchVdirChanges reads

end

end Agendafs
