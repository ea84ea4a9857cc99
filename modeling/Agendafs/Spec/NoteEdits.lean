import Agendafs.Spec.KeptIdentity
import Agendafs.Spec.XattrRuns

/-!
# Editing the file of one note

For a path that leads to a note whose file opens: a call with an edit replaces
the component in the file by the edited one, stamped and as it is read back,
unless its write fails; a call without an edit changes nothing. Reading an
attribute looks at the component in the file.

## Key results

- `wrote_of_exec`, `same_of_exec`: the effect of a call
- `fileComponent_stored`: the component in the file afterwards
- `holdsXattr_iff`: what `fuse_getxattr` returns
-/

namespace Agendafs

open Icalcomponent Store

variable {Text : Type} {cfg : Config Text} {w w' : World Text} {c : Icalcomponent} {o : Op}
  {path attrib : CStr} {n : NodeId} {k : CStr} {f : Icalcomponent → Icalcomponent} {status : Int}

/-! ## The effect of a call -/

/-- A call with an edit of a note that parses writes the edited component. -/
theorem wrote_of_exec (h : w.store.Inv) (hn : w.OpensAt cfg path n k)
    (hc : w.fileComponent cfg k = some c) (ho : o.EditsNote) (hf : w.edit cfg o = some (n, f))
    (hrun : exec cfg o w = .ok (status, w')) :
    status = o.editStatus w.outcome ∧ w' = w.wrote cfg k (f c) := by
  obtain ⟨e, he, hk⟩ := hn.entry
  cases edited_of_exec h ho hrun with
  | rejected hnone => cases hf.symm.trans hnone
  | noComponent hf' hnone =>
    cases hf.symm.trans hf'
    rw [hn.component, hc] at hnone
    cases hnone
  | notOpened hf' _ hnone =>
    cases hf.symm.trans hf'
    rw [hn.component, hc] at hnone
    cases hnone
  | written hf' he' hc' =>
    cases hf.symm.trans hf'
    cases he.symm.trans he'
    rw [hn.component, hc] at hc'
    cases hc'
    rw [hk]
    exact ⟨rfl, rfl⟩

/-- A call without an edit is refused. -/
theorem same_of_exec (h : w.store.Inv) (ho : o.EditsNote) (hf : w.edit cfg o = none)
    (hrun : exec cfg o w = .ok (status, w')) : status < 0 ∧ w' = w := by
  cases edited_of_exec h ho hrun with
  | rejected _ hs => exact ⟨hs, rfl⟩
  | noComponent hf' => cases hf.symm.trans hf'
  | notOpened hf' => cases hf.symm.trans hf'
  | written hf' => cases hf.symm.trans hf'

/-- A call on a file that does not parse leaves it, if it returns: it sets an attribute whose setter
    looks for the component, or a date, and cannot open the file to write it. -/
theorem unparsed_of_exec (h : w.store.Inv) (hn : w.OpensAt cfg path n k)
    (hc : w.fileComponent cfg k = none) (ho : o.EditsNote) (hf : w.edit cfg o = some (n, f))
    (hattrib : o.attrib = some attrib) (hrun : exec cfg o w = .ok (status, w')) :
    status = 0 ∧ w' = w ∧ attrib ∈ lenientXattrs ∨
      status = - EIO ∧ w' = w.writeTick ∧ attrib = bytes "user.dtstart" ∧
        w.outcome = .openFailed := by
  cases edited_of_exec h ho hrun with
  | rejected hnone => cases hf.symm.trans hnone
  | noComponent _ _ ha hlenient =>
    cases hattrib.symm.trans ha
    exact .inl ⟨rfl, rfl, hlenient⟩
  | notOpened _ _ _ ha hout =>
    cases hattrib.symm.trans ha
    exact .inr ⟨rfl, rfl, rfl, hout⟩
  | written hf' _ hc' =>
    cases hf.symm.trans hf'
    rw [hn.component, hc] at hc'
    cases hc'

/-- A call about the note leaves the tree, and the path leads to the note as before. -/
theorem opensAt_of_exec (h : w.store.Inv) (hn : w.OpensAt cfg path n k) (ho : o.EditsNote)
    (hat : ∀ n' f, w.edit cfg o = some (n', f) → n' = n)
    (hrun : exec cfg o w = .ok (status, w')) :
    w'.store = w.store ∧ w'.OpensAt cfg path n k := by
  obtain ⟨e, he, hk⟩ := hn.entry
  cases edited_of_exec h ho hrun with
  | rejected => exact ⟨rfl, hn⟩
  | noComponent => exact ⟨rfl, hn⟩
  | notOpened => exact ⟨rfl, ⟨hn.segments, hn.found, hn.file, hn.readable⟩⟩
  | written hf he' =>
    obtain rfl := hat _ _ hf
    cases he.symm.trans he'
    rw [hk]
    exact ⟨rfl, hn.wrote _⟩

/-! ## The component in the file -/

/-- The component in a file after `ic` has been written to it, as it is read back. -/
def World.stored (cfg : Config Text) (w : World Text) (filenameVdir : CStr) (ic : Icalcomponent) :
    Option Icalcomponent :=
  match w.outcome with
  | .written => some (stamp w.now ic).reread
  | .openFailed => w.fileComponent cfg filenameVdir
  | .writeFailed left => cfg.ical.newFromString left

theorem fileComponent_stored (hL : cfg.ical.Lawful) (k : CStr) {ic : Icalcomponent}
    (hic : ic.printable = true) :
    (w.wrote cfg k ic).fileComponent cfg k = w.stored cfg k ic := by
  unfold World.stored
  cases ho : w.outcome with
  | written => exact fileComponent_wrote hL hic ho
  | openFailed => exact fileComponent_openFailed ho k ic
  | writeFailed left => exact fileComponent_writeFailed ho k ic

theorem WriteOutcome.status_eq_zero {outcome : WriteOutcome Text} :
    outcome.status = 0 ↔ outcome ≠ .openFailed := by
  cases outcome with
  | written => exact iff_of_true rfl nofun
  | openFailed =>
    refine iff_of_false (fun h => ?_) fun h => h rfl
    change - EIO = (0 : Int) at h
    exact absurd h (by decide)
  | writeFailed left => exact iff_of_true rfl nofun

/-! ## Reading an attribute -/

/-- What `fuse_getxattr` returns: a value in every buffer with room for it, or that there is
    none. -/
def World.HoldsXattr (cfg : Config Text) (w : World Text) (path attrib : CStr) :
    Option CStr → Prop
  | some value => w.ReadsXattr cfg path attrib value
  | none => ∀ buf s, fuseGetxattr cfg path attrib buf s w = .ok ((-ENODATA, buf), w)

theorem holdsXattr_iff (h : w.store.Inv) (hn : w.OpensAt cfg path n k) {v : Option CStr}
    (hlength : ∀ x, v = some x → x.length < 2 ^ 31) (huid : attrib ≠ bytes "user.uid") :
    w.HoldsXattr cfg path attrib v ↔ (w.fileComponent cfg k).bind (xattrOf cfg · attrib) = v := by
  rw [← hn.component]
  cases v with
  | some x => exact readsXattr_iff h hn.readsAt (hlength x rfl)
  | none =>
    have hrun := fuseGetxattr_run h hn.readsAt attrib
    constructor
    · intro hall
      cases hfound : (w.component cfg n).bind (xattrOf cfg · attrib) with
      | none => rfl
      | some x =>
        -- One byte of room is enough to see a value.
        have hwritten := (hrun [] 1).symm.trans (hall [] 1)
        rw [getxattrResult_of_some hfound] at hwritten
        have hbyte : (handValue x [] 1).2 = [] := congrArg (·.1.2) (Except.ok.inj hwritten)
        rw [handValue_snd, if_pos Nat.zero_lt_one, snprintf] at hbyte
        exact nomatch (List.append_eq_nil_iff.1 hbyte).1
    · intro hnone buf s
      rw [hrun]
      unfold getxattrResult
      rw [hnone]
      simp only [if_neg huid]
      rfl

/-! ## Calls on one attribute -/

/-- A call that sets or removes an attribute. -/
inductive AttrCall
  | set (value : List UInt8) (s flags : Nat)
  | remove

/-- The call, on a path and an attribute. -/
def AttrCall.op (path attrib : CStr) : AttrCall → Op
  | .set value s flags => .setxattr path attrib value s flags
  | .remove => .removexattr path attrib

/-- The value that is set, as a C string. -/
def AttrCall.text : AttrCall → Option CStr
  | .set value _ _ => some (cString value)
  | .remove => none

/-- The edit of the call. -/
def AttrCall.edit (cfg : Config Text) (attrib : CStr) :
    AttrCall → Option (Icalcomponent → Icalcomponent)
  | .set value s _ => setxattrEdit cfg attrib value s
  | .remove => removexattrEdit attrib

theorem AttrCall.editsNote (a : AttrCall) : (a.op path attrib).EditsNote := by
  cases a <;> trivial

theorem AttrCall.attrib_op (a : AttrCall) : (a.op path attrib).attrib = some attrib := by
  cases a <;> rfl

theorem AttrCall.edit_op (hn : w.OpensAt cfg path n k) (a : AttrCall) :
    w.edit cfg (a.op path attrib) = (a.edit cfg attrib).map (n, ·) := by
  cases a with
  | set value s flags =>
    simp only [AttrCall.op, World.edit, hn.found]
    rfl
  | remove =>
    simp only [AttrCall.op, World.edit, hn.found]
    rfl

theorem AttrCall.status_op (a : AttrCall) (outcome : WriteOutcome Text) :
    (a.op path attrib).editStatus outcome = outcome.status := by
  cases a <;> rfl

/-- The path leads to the note, in a tree with its invariant. -/
structure World.NotePath (cfg : Config Text) (w : World Text) (path : CStr) (n : NodeId)
    (filenameVdir : CStr) : Prop extends w.OpensAt cfg path n filenameVdir where
  inv : w.store.Inv

variable {a : AttrCall}

theorem World.NotePath.after (hn : w.NotePath cfg path n k)
    (hrun : exec cfg (a.op path attrib) w = .ok (status, w')) : w'.NotePath cfg path n k := by
  have hat : ∀ n' f, w.edit cfg (a.op path attrib) = some (n', f) → n' = n := by
    intro n' f hf
    rw [a.edit_op hn.toOpensAt] at hf
    obtain ⟨_, _, hpair⟩ := Option.map_eq_some_iff.1 hf
    cases hpair
    rfl
  obtain ⟨hstore, hopens⟩ := opensAt_of_exec hn.inv hn.toOpensAt a.editsNote hat hrun
  exact ⟨hopens, by rw [hstore]; exact hn.inv⟩

/-- A call that edits a note which parses. -/
theorem World.NotePath.wrote_of_call (hn : w.NotePath cfg path n k)
    (hc : w.fileComponent cfg k = some c) (hf : a.edit cfg attrib = some f)
    (hrun : exec cfg (a.op path attrib) w = .ok (status, w')) :
    status = w.outcome.status ∧ w' = w.wrote cfg k (f c) := by
  have hedit : w.edit cfg (a.op path attrib) = some (n, f) := by
    rw [a.edit_op hn.toOpensAt, hf]
    rfl
  obtain ⟨hstatus, hwrote⟩ := wrote_of_exec hn.inv hn.toOpensAt hc a.editsNote hedit hrun
  exact ⟨hstatus.trans (a.status_op w.outcome), hwrote⟩

/-- A call with an edit of a note that does not parse, if it returns. -/
theorem World.NotePath.unparsed_of_call (hn : w.NotePath cfg path n k)
    (hc : w.fileComponent cfg k = none) (hf : a.edit cfg attrib = some f)
    (hrun : exec cfg (a.op path attrib) w = .ok (status, w')) :
    status = 0 ∧ w' = w ∧ attrib ∈ lenientXattrs ∨
      status = - EIO ∧ w' = w.writeTick ∧ attrib = bytes "user.dtstart" ∧
        w.outcome = .openFailed := by
  have hedit : w.edit cfg (a.op path attrib) = some (n, f) := by
    rw [a.edit_op hn.toOpensAt, hf]
    rfl
  exact unparsed_of_exec hn.inv hn.toOpensAt hc a.editsNote hedit a.attrib_op hrun

/-- A call without an edit is refused. -/
theorem World.NotePath.same_of_call (hn : w.NotePath cfg path n k)
    (hf : a.edit cfg attrib = none) (hrun : exec cfg (a.op path attrib) w = .ok (status, w')) :
    status < 0 ∧ w' = w := by
  refine same_of_exec hn.inv a.editsNote ?_ hrun
  rw [a.edit_op hn.toOpensAt, hf]
  rfl

/-- What is read of the note after its component has been edited, if the write is whole. -/
theorem World.NotePath.holds_of_wrote (hL : cfg.ical.Lawful) (hn : w.NotePath cfg path n k)
    {ic : Icalcomponent} (hic : ic.printable = true) {v : Option CStr}
    (hlength : ∀ x, v = some x → x.length < 2 ^ 31) (huid : attrib ≠ bytes "user.uid") :
    (w.wrote cfg k ic).HoldsXattr cfg path attrib v ↔
      (w.stored cfg k ic).bind (xattrOf cfg · attrib) = v := by
  have hinv : (w.wrote cfg k ic).store.Inv := hn.inv
  rw [← fileComponent_stored hL k hic]
  exact holdsXattr_iff hinv (hn.toOpensAt.wrote ic) hlength huid

/-- A call with an edit does not return `-EINVAL`. -/
theorem World.NotePath.status_ne_einval (hn : w.NotePath cfg path n k)
    (hf : a.edit cfg attrib = some f) (hrun : exec cfg (a.op path attrib) w = .ok (status, w')) :
    status ≠ -EINVAL := by
  cases hc : w.fileComponent cfg k with
  | none =>
    rcases hn.unparsed_of_call hc hf hrun with ⟨rfl, _⟩ | ⟨rfl, _⟩
    · decide
    · decide
  | some c =>
    rw [(hn.wrote_of_call hc hf hrun).1]
    exact WriteOutcome.status_ne (by decide) (by decide) w.outcome

/-- What is read of an attribute of the note after its component has been edited. -/
def World.readAfter (cfg : Config Text) (w : World Text) (filenameVdir attrib : CStr)
    (f : Icalcomponent → Icalcomponent) : Option CStr :=
  (w.fileComponent cfg filenameVdir).bind fun c =>
    (w.stored cfg filenameVdir (f c)).bind (xattrOf cfg · attrib)

/-- What a call with an edit returns, and what is read after it. -/
theorem World.NotePath.holds_of_call (hL : cfg.ical.Lawful) (hn : w.NotePath cfg path n k)
    (hf : a.edit cfg attrib = some f) (hprintable : Printable f) {v : Option CStr}
    (hlength : ∀ x, v = some x → x.length < 2 ^ 31) (huid : attrib ≠ bytes "user.uid")
    (hrun : exec cfg (a.op path attrib) w = .ok (status, w')) :
    (w'.HoldsXattr cfg path attrib v ↔ w.readAfter cfg k attrib f = v) ∧
      (w.fileComponent cfg k = none → status = 0 ∧ attrib ∈ lenientXattrs ∨
        status = - EIO ∧ attrib = bytes "user.dtstart" ∧ w.outcome = .openFailed) ∧
      ∀ c, w.fileComponent cfg k = some c → status = w.outcome.status := by
  unfold World.readAfter
  cases hc : w.fileComponent cfg k with
  | none =>
    have hn' := hn.after hrun
    have hsame : w'.fileComponent cfg k = none ∧ (status = 0 ∧ attrib ∈ lenientXattrs ∨
        status = - EIO ∧ attrib = bytes "user.dtstart" ∧ w.outcome = .openFailed) := by
      rcases hn.unparsed_of_call hc hf hrun with ⟨hs, rfl, hlenient⟩ | ⟨hs, rfl, hdtstart⟩
      · exact ⟨hc, .inl ⟨hs, hlenient⟩⟩
      · exact ⟨hc, .inr ⟨hs, hdtstart⟩⟩
    refine ⟨?_, fun _ => hsame.2, fun c hc => nomatch hc⟩
    rw [holdsXattr_iff hn'.inv hn'.toOpensAt hlength huid, hsame.1]
    rfl
  | some c =>
    obtain ⟨hstatus, rfl⟩ := hn.wrote_of_call hc hf hrun
    have hprint := hprintable c (printable_of_parsed (parsed_of_fileComponent hL hc))
    exact ⟨hn.holds_of_wrote hL hprint hlength huid, fun h => (nomatch h), fun _ _ => hstatus⟩

/-- States with the same component in the file of the note give the same attributes. -/
theorem World.HoldsXattr.congr (hn : w.NotePath cfg path n k) (hn' : w'.NotePath cfg path n k)
    (hsame : w'.fileComponent cfg k = w.fileComponent cfg k) {v : Option CStr}
    (hv : w.HoldsXattr cfg path attrib v) : w'.HoldsXattr cfg path attrib v := by
  have hcall : ∀ buf s r, fuseGetxattr cfg path attrib buf s w = .ok (r, w) →
      fuseGetxattr cfg path attrib buf s w' = .ok (r, w') := by
    intro buf s r hr
    rw [fuseGetxattr_run hn.inv hn.readsAt, hn.component] at hr
    rw [fuseGetxattr_run hn'.inv hn'.readsAt, hn'.component, hsame]
    cases hresult : getxattrResult cfg (w.fileComponent cfg k) attrib buf s with
    | error crash =>
      rw [hresult] at hr
      cases hr
    | ok r' =>
      rw [hresult] at hr
      have hpair := Except.ok.inj hr
      exact congrArg (fun p : (Int × List UInt8) × World Text => Except.ok (p.1, w')) hpair
  cases v with
  | some x => exact fun buf s hs => hcall buf s _ (hv buf s hs)
  | none => exact fun buf s => hcall buf s _ (hv buf s)

/-- An edit that leaves the UID of a note leaves its journal where it is. -/
theorem isSome_getInner_restamped (hf : Keeps (·.kind = .uid) f) (hc : c.parsed = true)
    (now : CStr) : (stamp now (f c)).reread.getInner.isSome = c.getInner.isSome := by
  rw [← isSome_inner (·.kind = .uid), hf.inner_restamped (by decide) hc now, isSome_inner]

/-- The path leads to a note that parses and has a journal. -/
structure World.JournalPath (cfg : Config Text) (w : World Text) (path : CStr) (n : NodeId)
    (filenameVdir : CStr) (c : Icalcomponent) : Prop extends w.NotePath cfg path n filenameVdir where
  parses : w.fileComponent cfg filenameVdir = some c
  journal : c.getInner.isSome = true

theorem World.JournalPath.parsed (hL : cfg.ical.Lawful) (hn : w.JournalPath cfg path n k c) :
    c.parsed = true := parsed_of_fileComponent hL hn.parses

/-- An edit that leaves the UID keeps the note one, if its write is whole. -/
theorem World.JournalPath.wrote (hL : cfg.ical.Lawful) (hn : w.JournalPath cfg path n k c)
    (hf : Keeps (·.kind = .uid) f) (hprintable : (f c).printable = true)
    (hwhole : w.WritesWhole) :
    ∃ c', (w.wrote cfg k (f c)).JournalPath cfg path n k c' := by
  have hpath : (w.wrote cfg k (f c)).NotePath cfg path n k := ⟨hn.toOpensAt.wrote _, hn.inv⟩
  have hstored := fileComponent_stored hL k hprintable (w := w)
  unfold World.WritesWhole at hwhole
  cases ho : w.outcome with
  | written =>
    refine ⟨_, hpath, hstored.trans (by rw [World.stored, ho]), ?_⟩
    rw [isSome_getInner_restamped hf (hn.parsed hL), hn.journal]
  | openFailed =>
    refine ⟨c, hpath, hstored.trans ?_, hn.journal⟩
    rw [World.stored, ho]
    exact hn.parses
  | writeFailed left =>
    rw [ho] at hwhole
    cases hwhole

end Agendafs
