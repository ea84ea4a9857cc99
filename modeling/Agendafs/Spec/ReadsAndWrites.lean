import Agendafs.Spec.Failures
import Agendafs.Spec.HeldNotes
import Agendafs.Spec.LostChunks
import Agendafs.Spec.Runs

/-!
# Reading what was written

A note's content is the text of its first DESCRIPTION. `fuse_write` puts its
buffer behind what the old text has before the offset and drops the rest, and
the file is parsed again for every call. So writing a note from the start in
pieces gives their concatenation, and writing into its middle loses what comes
after the buffer. A write whose file cannot be opened returns its size all the same.

## Key results

- `descriptions_written`: what is read back of the descriptions after one write
- `readLoop_run`, `writeChunks_run`: reading and writing in pieces
- `write_then_read_iff`, `write_touches_range_iff`: when the content is as it should be
-/

namespace Agendafs

open Icalcomponent Store

variable {Text : Type} {cfg : Config Text} {w w' : World Text} {c : Icalcomponent}

/-! ## The descriptions of a note -/

/-- The texts of the DESCRIPTION properties of a note. -/
def descriptions (c : Icalcomponent) : List CStr :=
  ((c.inner (·.kind = .description)).getD []).map (·.value)

/-- The content of a note: its first description. -/
def noteContent (c : Icalcomponent) : CStr := (descriptions c).head?.getD []

theorem getDescription_eq (c : Icalcomponent) : c.getDescription = (descriptions c).head? := by
  unfold getDescription descriptions
  rw [getText_eq]
  cases c.inner (·.kind = .description) with
  | none => rfl
  | some ps => rw [Option.bind_some, Option.getD_some, List.head?_map]

theorem descriptions_setDescription (h : c.getInner.isSome = true) (x : CStr) :
    descriptions (c.setDescription x) = x :: (descriptions c).tail := by
  obtain ⟨a, ha⟩ := Option.isSome_iff_exists.1 h
  unfold descriptions setDescription
  rw [inner_modifyInner (setFirstProperty_kind .description x), inner_eq, ha, Option.map_some,
    Option.map_some, Option.getD_some, Option.getD_some, values_setFirstProperty]

/-- `write_ical_file` takes the first description out if it is empty. -/
theorem descriptions_stamp (now : CStr) (c : Icalcomponent) :
    descriptions (stamp now c) =
      if (descriptions c).head? = some [] then (descriptions c).tail else descriptions c := by
  have hkeeps : Keeps (·.kind = .description) (setFirstProperty .lastModified now) :=
    .setFirstProperty fun p hp => by rw [hp]; rfl
  have hinner := hkeeps.inner c
  unfold descriptions stamp
  rw [inner_modifyInner (by intro a; split <;> rfl), ← hinner, inner_eq]
  cases (c.setFirstProperty .lastModified now).getInner with
  | none => rfl
  | some a =>
    simp only [Option.map_some, Option.getD_some, List.head?_map, List.head?_filter]
    change ((if (a.properties.find? (·.kind = .description)).any (·.value = []) then _ else a
      : Icalcomponent).properties.filter _).map _ = _
    cases hp : a.properties.find? (·.kind = .description) with
    | none => rfl
    | some p =>
      by_cases hv : p.value = []
      · simp only [Option.any_some, hv, decide_true, if_true, Option.map_some]
        rw [← List.map_tail]
        exact congrArg _ (filter_eraseP a.properties)
      · simp [hv]

theorem descriptions_reread (c : Icalcomponent) :
    descriptions c.reread = (descriptions c).filter (· ≠ []) := by
  unfold descriptions
  rw [inner_reread fun p hp => by rw [of_decide_eq_true hp]; decide]
  cases c.inner (·.kind = .description) with
  | none => rfl
  | some ps => simp only [Option.map_some, Option.getD_some, List.filter_map]; rfl

/-- The parser yields no empty description. -/
theorem ne_nil_of_mem_descriptions (hc : c.parsed = true) : ∀ d ∈ descriptions c, d ≠ [] := by
  intro d hd
  unfold descriptions at hd
  rw [inner_eq] at hd
  obtain ⟨p, hp, rfl⟩ := List.mem_map.1 hd
  cases ha : c.getInner with
  | none => rw [ha] at hp; exact nomatch hp
  | some a =>
    rw [ha, Option.map_some, Option.getD_some] at hp
    exact value_ne_nil_of_mem (parsed_of_getInner hc ha) (List.mem_of_mem_filter hp)

/-- The descriptions that are read back after `x` has been written as the content. -/
theorem descriptions_written (hc : c.parsed = true) (h : c.getInner.isSome = true)
    (now x : CStr) :
    descriptions (stamp now (c.setDescription x)).reread =
      if x = [] then (descriptions c).tail else x :: (descriptions c).tail := by
  have hrest : ∀ d ∈ (descriptions c).tail, d ≠ [] := fun d hd =>
    ne_nil_of_mem_descriptions hc d (List.mem_of_mem_tail hd)
  have hfilter : (descriptions c).tail.filter (· ≠ []) = (descriptions c).tail := by
    rw [List.filter_eq_self]
    simpa using hrest
  rw [descriptions_reread, descriptions_stamp, descriptions_setDescription h]
  by_cases hx : x = []
  · subst hx
    simpa using hfilter
  · simp only [List.head?_cons, Option.some.injEq, hx, if_false]
    rw [List.filter_cons_of_pos (by simpa using hx), hfilter]

/-! ## One call -/

/-- The path leads to a node whose file opens. -/
structure World.OpensAt (cfg : Config Text) (w : World Text) (path : CStr) (n : NodeId)
    (filenameVdir : CStr) : Prop where
  segments : (splitPath path).length ≤ 255
  found : w.store.lookup path = some n
  file : (w.store.entry n).map (·.filenameVdir) = some filenameVdir
  readable : w.Readable cfg filenameVdir

/-- The path leads to a note that can be read and written. -/
structure World.NoteAt (cfg : Config Text) (w : World Text) (path : CStr) (n : NodeId)
    (filenameVdir : CStr) (c : Icalcomponent) : Prop
    extends w.OpensAt cfg path n filenameVdir where
  visible : pathIsHidden path = false
  parses : w.fileComponent cfg filenameVdir = some c
  journal : c.getInner.isSome = true

/-- What `fuse_read` returns of the file of a note. -/
def readResult (component : Option Icalcomponent) (size offset : Nat) : Int × List UInt8 :=
  match component with
  | none => (- EIO, [])
  | some c =>
    if (noteContent c).length ≤ offset then (0, [])
    else
      let bytesToRead := min ((noteContent c).length - offset) size
      (intOfSize bytesToRead, ((noteContent c).drop offset).take bytesToRead)

section

variable {path : CStr} {n : NodeId}

theorem fuseRead_run (h : w.store.Inv) {k : CStr} (hn : w.OpensAt cfg path n k)
    (size offset : Nat) :
    fuseRead cfg path size offset w =
      .ok (readResult (w.fileComponent cfg k) size offset, w) := by
  obtain ⟨e, he, rfl⟩ := Option.map_eq_some_iff.1 hn.file
  have hread := getIcalcomponentFromNode_run he hn.readable
  rw [component_of_entry he] at hread
  unfold fuseRead readResult
  rw [Prog.bind_run_ok (getNodeByPath_found h hn.segments), hn.found]
  simp only
  rw [Prog.bind_run_ok hread]
  cases w.fileComponent cfg e.filenameVdir with
  | none => rfl
  | some c =>
    have hcontent : noteContent c = c.getDescription.getD [] := by
      rw [getDescription_eq]
      rfl
    simp only [hcontent]
    cases hd : c.getDescription with
    | none => rfl
    | some d =>
      simp only [Option.getD_some]
      split <;> rfl

theorem fuseWrite_run (h : w.store.Inv) {k : CStr} (hn : w.NoteAt cfg path n k c)
    (buf : List UInt8) (size offset : Nat) :
    fuseWrite cfg path buf size offset w =
      .ok (intOfSize size, w.wrote cfg k (icalcomponentInsertDescription c buf size offset)) := by
  obtain ⟨e, he, rfl⟩ := Option.map_eq_some_iff.1 hn.file
  have hread := getIcalcomponentFromNode_run he hn.readable
  rw [component_of_entry he, hn.parses] at hread
  unfold fuseWrite
  rw [if_neg (by rw [hn.visible]; decide), Prog.bind_run_ok (getNodeByPath_found h hn.segments),
    hn.found]
  simp only
  rw [Prog.bind_run_ok hread]
  simp only
  -- The result is a `size_t`, so the test `>= 0` always succeeds.
  rw [Prog.bind_run_ok (writeIcalFile_run he _), if_pos (Nat.zero_le _)]
  rfl

end

/-! ## Reading in pieces -/

/-- A client reads on from an offset, in steps of any sizes, until a read returns no bytes: the
    last status and the bytes read. `fuel` bounds the number of reads. -/
def readLoop (cfg : Config Text) (path : CStr) (step : Nat → Nat) :
    Nat → Nat → Nat → FsM Text (Int × List UInt8)
  | 0, _, _ => throw .endless
  | fuel + 1, round, offset => do
    let (status, buf) ← fuseRead cfg path (step round) offset
    if status ≤ 0 then pure (status, [])
    else do
      let (last, rest) ← readLoop cfg path step fuel (round + 1) (offset + status.toNat)
      pure (last, buf ++ rest)

/-- Reading from the start yields these bytes, whatever the steps are. A step asks for a byte
    at least, and what it yields fits an `int`. -/
def World.ReadsBack (cfg : Config Text) (w : World Text) (path : CStr) (text : List UInt8) :
    Prop :=
  ∀ step : Nat → Nat, (∀ i, 0 < step i ∧ min text.length (step i) < 2 ^ 31) →
    ∀ fuel, text.length < fuel → readLoop cfg path step fuel 0 0 w = .ok ((0, text), w)

theorem intOfSize_of_lt {n : Nat} (h : n < 2 ^ 31) : intOfSize n = n := by
  unfold intOfSize
  rw [Int.bmod_def]
  omega

section

variable {path : CStr} {n : NodeId} {k : CStr}

/-- Reading on from an offset yields the rest of the content. -/
theorem readLoop_run (h : w.store.Inv) (hn : w.OpensAt cfg path n k)
    (hc : w.fileComponent cfg k = some c) {step : Nat → Nat}
    (hstep : ∀ i, 0 < step i ∧ min (noteContent c).length (step i) < 2 ^ 31) (fuel : Nat) :
    ∀ round offset, (noteContent c).length - offset < fuel →
      readLoop cfg path step fuel round offset w = .ok ((0, (noteContent c).drop offset), w) := by
  induction fuel with
  | zero => intro _ _ hfuel; exact absurd hfuel (Nat.not_lt_zero _)
  | succ fuel ih =>
    intro round offset hfuel
    obtain ⟨hpos, hint⟩ := hstep round
    have hread := fuseRead_run h hn (step round) offset
    rw [hc] at hread
    unfold readLoop
    rw [Prog.bind_run_ok hread]
    unfold readResult
    by_cases hend : (noteContent c).length ≤ offset
    · simp only [hend, if_true]
      rw [List.drop_eq_nil_of_le hend]
      rfl
    · simp only [hend, if_false]
      -- The read returns some bytes, and the next one goes on behind them.
      have hbytes : intOfSize (min ((noteContent c).length - offset) (step round)) =
          (min ((noteContent c).length - offset) (step round) : Nat) :=
        intOfSize_of_lt (by omega)
      rw [hbytes, if_neg (by omega), Int.toNat_natCast, Prog.bind_run_ok (ih _ _ (by omega)),
        ← List.drop_drop, List.take_append_drop]
      rfl

/-- What a note reads back is its content. -/
theorem readsBack_iff (h : w.store.Inv) (hn : w.OpensAt cfg path n k)
    (hc : w.fileComponent cfg k = some c) {text : List UInt8} :
    w.ReadsBack cfg path text ↔ noteContent c = text := by
  constructor
  · intro hreads
    -- One byte at a time, for as long as either text is.
    have hread := hreads (fun _ => 1) (fun _ => ⟨Nat.one_pos, by omega⟩)
      (text.length + (noteContent c).length + 1) (by omega)
    rw [readLoop_run h hn hc (fun _ => ⟨Nat.one_pos, by omega⟩) _ 0 0 (by omega)] at hread
    simpa using hread
  · rintro rfl step hstep fuel hfuel
    exact readLoop_run h hn hc hstep fuel 0 0 (by omega)

end

/-- A file that does not parse reads back as nothing. -/
theorem not_readsBack (h : w.store.Inv) (hn : w.OpensAt cfg path n k)
    (hc : w.fileComponent cfg k = none) (text : List UInt8) : ¬ w.ReadsBack cfg path text := by
  intro hreads
  have hread := fuseRead_run h hn 1 0
  rw [hc] at hread
  have hloop := hreads (fun _ => 1) (fun _ => ⟨Nat.one_pos, by omega⟩) _ (Nat.lt_succ_self _)
  unfold readLoop at hloop
  rw [Prog.bind_run_ok hread] at hloop
  exact absurd (Prod.mk.inj (Prod.mk.inj (Except.ok.inj hloop)).1).1 (by decide)

/-! ## Writing in pieces -/

/-- The component that `fuse_write` puts into the file, as it is read back. -/
theorem descriptions_insert (hc : c.parsed = true) (h : c.getInner.isSome = true) (now : CStr)
    {buf : List UInt8} {offset : Nat} {x : CStr}
    (hx : cString ((noteContent c).take offset ++ buf) = x) :
    descriptions (stamp now (icalcomponentInsertDescription c buf buf.length offset)).reread =
      if x = [] then (descriptions c).tail else x :: (descriptions c).tail := by
  have hinsert : icalcomponentInsertDescription c buf buf.length offset = c.setDescription x := by
    unfold icalcomponentInsertDescription rstrins
    rw [List.take_length, getDescription_eq]
    exact congrArg c.setDescription hx
  rw [hinsert]
  exact descriptions_written hc h now x

theorem keeps_insertDescription {q : Icalproperty → Bool}
    (hq : ∀ p : Icalproperty, p.kind = .description → q p = false) (buf : List UInt8)
    (size offset : Nat) : Keeps q (icalcomponentInsertDescription · buf size offset) :=
  Keeps.dependent (g := Icalcomponent.setDescription)
    (fun _ => (Keeps.setFirstProperty hq).modifyInner) _

theorem printable_insertDescription (buf : List UInt8) (size offset : Nat) :
    Printable (icalcomponentInsertDescription · buf size offset) :=
  Preserves.dependent (g := Icalcomponent.setDescription)
    (fun x => (printable_setFirstProperty .description x).modifyInner) _

section

variable {path : CStr} {n : NodeId} {k : CStr}

/-- The component that is read back after a write. -/
def writtenBack (now : CStr) (buf : List UInt8) (offset : Nat) (c : Icalcomponent) :
    Icalcomponent := (stamp now (icalcomponentInsertDescription c buf buf.length offset)).reread

/-- After a write that succeeds the note is where it was. -/
theorem World.NoteAt.written (hL : cfg.ical.Lawful) (h : w.NoteAt cfg path n k c)
    (ho : w.outcome = .written) (buf : List UInt8) (offset : Nat) :
    (w.wrote cfg k (icalcomponentInsertDescription c buf buf.length offset)).NoteAt cfg path n k
      (writtenBack w.now buf offset c) where
  visible := h.visible
  segments := h.segments
  found := h.found
  file := h.file
  readable := readable_wrote h.readable _
  parses := fileComponent_wrote hL (printable_insertDescription buf buf.length offset c
    (printable_of_parsed (parsed_of_fileComponent hL h.parses))) ho
  journal := by
    have hstamp : Keeps (fun _ => false) (stamp w.now) :=
      keeps_stamp (κ := .uid) (fun _ hp => absurd hp Bool.false_ne_true) (by decide) w.now
    have hinner := (hstamp.comp (keeps_insertDescription (fun _ _ => rfl) buf buf.length
      offset)).inner c
    unfold writtenBack
    rw [← isSome_inner (fun _ => false), inner_reread fun _ hp => absurd hp Bool.false_ne_true,
      Option.isSome_map]
    exact (congrArg _ hinner).trans ((isSome_inner _ c).trans h.journal)

/-- A client writes chunks one behind the other, from an offset on: the statuses. -/
def writeChunks (cfg : Config Text) (path : CStr) : Nat → List (List UInt8) → FsM Text (List Int)
  | _, [] => pure []
  | offset, b :: bs => do
    let status ← fuseWrite cfg path b b.length offset
    let rest ← writeChunks cfg path (offset + b.length) bs
    pure (status :: rest)

/-- The file can be opened. -/
def WriteOutcome.opens : WriteOutcome Text → Bool
  | .openFailed => false
  | _ => true

/-- The chunks, each with whether its file can be opened. -/
def attempts : List (WriteOutcome Text) → List (List UInt8) → List Attempt
  | _, [] => []
  | os, b :: bs => (b, (os.head?.getD .written).opens) :: attempts os.tail bs

/-- None of the next `n` writes fails midway. -/
def World.NoneCutShort (w : World Text) (n : Nat) : Prop :=
  ∀ left, .writeFailed left ∉ w.env.writes.take n

theorem attempts_written {chunks : List (List UInt8)} :
    ∀ {os : List (WriteOutcome Text)}, (∀ o ∈ os.take chunks.length, o = .written) →
      attempts os chunks = chunks.map (·, true) := by
  induction chunks with
  | nil => exact fun _ => rfl
  | cons b bs ih =>
    intro os h
    rw [attempts, List.map_cons]
    cases os with
    | nil => exact congrArg _ (ih fun o ho => absurd (List.mem_of_mem_take ho) List.not_mem_nil)
    | cons o os =>
      obtain rfl := h o List.mem_cons_self
      exact congrArg _ (ih fun o ho => h o (.tail _ ho))

theorem wholeText_attempts {chunks : List (List UInt8)} :
    ∀ os : List (WriteOutcome Text), wholeText (attempts os chunks) = chunks.flatten := by
  induction chunks with
  | nil => exact fun _ => rfl
  | cons b bs ih =>
    intro os
    rw [attempts, wholeText_cons, ih, List.flatten_cons]

theorem mem_attempts {a : Attempt} {chunks : List (List UInt8)} :
    ∀ {os : List (WriteOutcome Text)}, a ∈ attempts os chunks → a.1 ∈ chunks := by
  induction chunks with
  | nil => exact fun h => absurd h List.not_mem_nil
  | cons b bs ih =>
    intro os h
    rcases List.mem_cons.1 h with rfl | h
    · exact List.mem_cons_self
    · exact .tail _ (ih h)

/-- The note after a write that does not fail midway. -/
theorem World.NoteAt.attempted (hL : cfg.ical.Lawful) (h : w.NoteAt cfg path n k c)
    (hwhole : ∀ left, w.outcome ≠ .writeFailed left) (b : List UInt8) (offset : Nat) :
    ∃ c', (w.wrote cfg k (icalcomponentInsertDescription c b b.length offset)).NoteAt cfg path n k
        c' ∧ descriptions c' = descriptionsAfter (descriptions c) offset (b, w.outcome.opens) := by
  cases ho : w.outcome with
  | written =>
    refine ⟨_, h.written hL ho b offset, ?_⟩
    unfold writtenBack
    exact descriptions_insert (parsed_of_fileComponent hL h.parses) h.journal w.now rfl
  | openFailed =>
    rw [wrote_of_openFailed ho]
    exact ⟨c, { h with }, rfl⟩
  | writeFailed left => exact absurd ho (hwhole left)

/-- The chunks are written one behind the other, as far as their file can be opened. -/
theorem writeChunks_run (hL : cfg.ical.Lawful) {chunks : List (List UInt8)} :
    ∀ {w : World Text} {c : Icalcomponent} (offset : Nat), w.store.Inv →
      w.NoteAt cfg path n k c → w.NoneCutShort chunks.length →
      ∃ w' c', writeChunks cfg path offset chunks w = .ok (chunks.map (intOfSize ·.length), w') ∧
        w'.store.Inv ∧ w'.NoteAt cfg path n k c' ∧
        descriptions c' =
          descriptionsAfterAll (descriptions c) offset (attempts w.env.writes chunks) := by
  induction chunks with
  | nil => exact fun _ h hn _ => ⟨_, _, rfl, h, hn, rfl⟩
  | cons b bs ih =>
    intro w c offset h hn hwhole
    have ho : ∀ left, w.outcome ≠ .writeFailed left := fun left ho => hwhole left
      ((List.take_subset_take_left _ (Nat.le_add_left 1 _)) (mem_of_outcome ho))
    have hrest : w.env.writes.tail.take bs.length ⊆ w.env.writes.take (bs.length + 1) := by
      cases w.env.writes with
      | nil => exact List.take_subset_take_left _ (Nat.le_succ _)
      | cons o os => exact List.subset_cons_self o _
    obtain ⟨c', hn', hafter⟩ := hn.attempted hL ho b offset
    obtain ⟨w', c'', hrun, hinv, hn'', hall⟩ := ih (offset + b.length) (by exact h) hn'
      fun left hmem => hwhole left (hrest hmem)
    refine ⟨w', c'', ?_, hinv, hn'', ?_⟩
    · unfold writeChunks
      rw [Prog.bind_run_ok (fuseWrite_run h hn b b.length offset), Prog.bind_run_ok hrun]
      rfl
    · rw [hall, hafter]
      rfl

/-- The chunks that have been written are read back, unless nothing was written and a further
    description shows up. Chunks that are lost because the file cannot be opened have to be there
    already. -/
theorem write_then_read_iff (hL : cfg.ical.Lawful) (h : Reachable cfg w)
    (hn : w.NoteAt cfg path n k c) {chunks : List (List UInt8)}
    (hnul : ∀ b ∈ chunks, (0 : UInt8) ∉ b)
    (hrun : writeChunks cfg path 0 chunks w = .ok (chunks.map (fun b => (b.length : Int)), w')) :
    (w.AllWritten chunks.length → (w'.ReadsBack cfg path chunks.flatten ↔
      chunks.flatten ≠ [] ∨ (descriptions c).length ≤ chunks.length)) ∧
    (w.NoneCutShort chunks.length → (∀ d ∈ descriptions c, (0 : UInt8) ∉ d) →
      (w'.ReadsBack cfg path chunks.flatten ↔
        ChunksLand (descriptions c) (attempts w.env.writes chunks))) := by
  have hread : w.NoneCutShort chunks.length → (w'.ReadsBack cfg path chunks.flatten ↔
      firstText (descriptionsAfterAll (descriptions c) 0 (attempts w.env.writes chunks)) =
        chunks.flatten) := fun hwhole => by
    obtain ⟨v, c', hrun', hinv, hn', hall⟩ := writeChunks_run hL 0 h.sound.toInv hn hwhole
    rw [hrun] at hrun'
    obtain rfl : w' = v := (Prod.mk.inj (Except.ok.inj hrun')).2
    rw [readsBack_iff hinv hn'.toOpensAt hn'.parses, noteContent, hall]
    rfl
  have hne := ne_nil_of_mem_descriptions (parsed_of_fileComponent hL hn.parses)
  refine ⟨fun hwrites => ?_, fun hwhole htexts => ?_⟩
  · rw [hread fun left hl => WriteOutcome.writeFailed_ne (hwrites _ hl),
      attempts_written hwrites]
    obtain ⟨hsome, hnone⟩ := descriptionsAfterAll_written (descriptions c) hnul
      (List.not_mem_nil (a := (0 : UInt8))) fun hnil => absurd rfl hnil
    rw [List.nil_append, List.length_nil] at hsome hnone
    by_cases hnil : chunks.flatten = []
    · rw [hnone hnil, hnil, ← List.drop_eq_nil_iff]
      cases hd : (descriptions c).drop chunks.length with
      | nil => simp [firstText]
      | cons d ds =>
        have hd' : d ∈ (descriptions c).drop chunks.length := hd ▸ List.mem_cons_self
        simpa [firstText] using hne d (List.mem_of_mem_drop hd')
    · exact iff_of_true (hsome hnil) (.inl hnil)
  · rw [hread hwhole, ← wholeText_attempts w.env.writes]
    exact chunks_land_iff (fun a ha => hnul _ (mem_attempts ha)) fun d hd => ⟨hne d hd, htexts d hd⟩

/-! ## Writing into a note -/

/-- The text with the buffer written over it at an offset. -/
def overwritten (text : CStr) (offset : Nat) (buf : List UInt8) : CStr :=
  text.take offset ++ buf ++ text.drop (offset + buf.length)

theorem overwritten_eq_self {text : CStr} {offset : Nat} {buf : List UInt8} :
    text = overwritten text offset buf ↔ buf <+: text.drop offset := by
  unfold overwritten
  rw [List.append_assoc, ← List.drop_drop, List.prefix_iff_eq_append]
  conv_lhs => lhs; rw [← List.take_append_drop offset text]
  rw [List.append_cancel_left_eq]
  exact eq_comm

/-- What a write leaves of the bytes around it: a write that succeeds has to reach the end. -/
theorem write_touches_range_iff (hL : cfg.ical.Lawful) (h : Reachable cfg w)
    (hn : w.NoteAt cfg path n k c) (htext : (0 : UInt8) ∉ noteContent c) {offset : Nat}
    {buf : List UInt8} (hoffset : offset ≤ (noteContent c).length) (hnul : (0 : UInt8) ∉ buf)
    (hrun : fuseWrite cfg path buf buf.length offset w = .ok ((buf.length : Int), w')) :
    w'.ReadsBack cfg path (overwritten (noteContent c) offset buf) ↔
      match w.outcome with
      | .written =>
        if offset = 0 ∧ buf = [] then (descriptions c).tail.head?.getD [] = noteContent c
        else (noteContent c).length ≤ offset + buf.length
      | .openFailed => buf <+: (noteContent c).drop offset
      | .writeFailed left =>
        (cfg.ical.newFromString left).map noteContent =
          some (overwritten (noteContent c) offset buf) := by
  have hinv := h.sound.toInv
  rw [fuseWrite_run hinv hn] at hrun
  obtain rfl := (Prod.mk.inj (Except.ok.inj hrun)).2
  have hopens : (w.wrote cfg k (icalcomponentInsertDescription c buf buf.length offset)).OpensAt
      cfg path n k := ⟨hn.segments, hn.found, hn.file, readable_wrote hn.readable _⟩
  cases ho : w.outcome with
  | written =>
    have hn' := hn.written hL ho buf offset
    have htake : (0 : UInt8) ∉ (noteContent c).take offset := fun hm =>
      htext (List.mem_of_mem_take hm)
    have hx : cString ((noteContent c).take offset ++ buf) = (noteContent c).take offset ++ buf :=
      cString_of_not_mem (by simp [hnul, htake])
    have hcontent : noteContent (writtenBack w.now buf offset c) =
        if (noteContent c).take offset ++ buf = [] then (descriptions c).tail.head?.getD []
        else (noteContent c).take offset ++ buf := by
      unfold writtenBack
      rw [noteContent, descriptions_insert (parsed_of_fileComponent hL hn.parses) hn.journal w.now hx]
      split <;> rfl
    rw [readsBack_iff (by exact hinv) hopens hn'.parses, hcontent]
    -- The note is empty after the write only if nothing is kept and nothing written.
    have hempty : (noteContent c).take offset ++ buf = [] ↔ offset = 0 ∧ buf = [] := by
      rw [List.append_eq_nil_iff, ← List.length_eq_zero_iff, List.length_take_of_le hoffset]
    simp only [hempty]
    split
    · rename_i hnil
      rw [hnil.1, hnil.2]
      rfl
    · unfold overwritten
      rw [List.self_eq_append_right, List.drop_eq_nil_iff]
  | openFailed =>
    have hc := (fileComponent_openFailed ho k
      (icalcomponentInsertDescription c buf buf.length offset)).trans hn.parses
    rw [readsBack_iff (by exact hinv) hopens hc]
    exact overwritten_eq_self
  | writeFailed left =>
    have hleft : (w.wrote cfg k (icalcomponentInsertDescription c buf buf.length
        offset)).fileComponent cfg k = cfg.ical.newFromString left :=
      fileComponent_writeFailed ho k _
    cases hc : cfg.ical.newFromString left with
    | none =>
      refine iff_of_false (not_readsBack (by exact hinv) hopens (hleft.trans hc) _) ?_
      simp only [hc, Option.map_none, reduceCtorEq, not_false_eq_true]
    | some c' =>
      rw [readsBack_iff (by exact hinv) hopens (hleft.trans hc)]
      simp only [hc, Option.map_some, Option.some.injEq]

end

/-! ## A note with a description -/

/-- A note whose content is `hello`. -/
def describedNote : List (CStr × Icalcomponent) :=
  [(bytes "a.ics", sampleNote (bytes "a") (bytes "Note")
    [{ kind := .description, value := bytes "hello" }])]

/-- The mount of the note, with the outcomes of the writes to come. -/
def describedMount (writes : List (WriteOutcome Icalcomponent)) : World Icalcomponent :=
  sampleMount describedNote { writes := writes }

theorem reachable_describedMount (writes : List (WriteOutcome Icalcomponent)) :
    Reachable sampleConfig (describedMount writes) :=
  run_sampleMount _ (by decide) (by decide) trivial (by decide +kernel)

theorem describedMount_files : ∃ f, (describedMount []).files
    (appendPath sampleConfig.vdir (bytes "a.ics")) = some f ∧ f.readable = true ∧
    ∃ c, structuralIcal.newFromString f.content = some c ∧ c.getInner.isSome = true ∧
      descriptions c = [bytes "hello"] := by
  have hf : ((describedMount []).files (appendPath sampleConfig.vdir (bytes "a.ics"))).any
      (fun f => f.readable && (structuralIcal.newFromString f.content).any fun c =>
        c.getInner.isSome && descriptions c = [bytes "hello"]) = true := by decide +kernel
  obtain ⟨f, hf, hf'⟩ := (Option.any_eq_true _ _).1 hf
  rw [Bool.and_eq_true] at hf'
  obtain ⟨c, hc, hc'⟩ := (Option.any_eq_true _ _).1 hf'.2
  rw [Bool.and_eq_true, decide_eq_true_eq] at hc'
  exact ⟨f, hf, hf'.1, c, hc, hc'⟩

theorem describedMount_noteAt (writes : List (WriteOutcome Icalcomponent)) :
    ∃ c, (describedMount writes).NoteAt sampleConfig (bytes "/Note.txt") 1 (bytes "a.ics") c ∧
      descriptions c = [bytes "hello"] := by
  obtain ⟨f, hf, hr, c, hc, hinner, hcontent⟩ := describedMount_files
  have hf : (describedMount writes).files (appendPath sampleConfig.vdir (bytes "a.ics")) =
    some f := hf
  have hfound : (describedMount []).store.lookup (bytes "/Note.txt") = some 1 := by decide +kernel
  have hfile : ((describedMount []).store.entry 1).map (·.filenameVdir) = some (bytes "a.ics") := by
    decide +kernel
  refine ⟨c, ⟨⟨by decide, hfound, hfile, ⟨f, hf, hr⟩⟩, by decide, ?_, hinner⟩, hcontent⟩
  unfold World.fileComponent
  rw [hf]
  exact hc

/-- The state after the chunks have been written to the note. -/
def afterChunks (writes : List (WriteOutcome Icalcomponent)) (chunks : List (List UInt8)) :
    World Icalcomponent :=
  (writeChunks sampleConfig (bytes "/Note.txt") 0 chunks).final (describedMount writes)

theorem writeChunks_describedMount {writes : List (WriteOutcome Icalcomponent)}
    {chunks : List (List UInt8)} {statuses : List Int}
    (h : (writeChunks sampleConfig (bytes "/Note.txt") 0 chunks).check (describedMount writes)
      (fun s _ => decide (s = statuses)) = true) :
    writeChunks sampleConfig (bytes "/Note.txt") 0 chunks (describedMount writes) =
      .ok (statuses, afterChunks writes chunks) := by
  obtain ⟨s, hrun, hs⟩ := Prog.run_of_check h
  exact of_decide_eq_true hs ▸ hrun

/-- What has been written in two pieces is read in one. -/
example : (fuseRead sampleConfig (bytes "/Note.txt") 10 0).check
    (afterChunks [] [bytes "hello ", bytes "you"])
    (fun r _ => decide (r = (9, bytes "hello you"))) = true := by decide +kernel

/-- All chunks are written; or the first is lost, and it is what the note begins with. -/
theorem write_then_read_describedNote :
    (afterChunks [] [bytes "ab", bytes "c"]).ReadsBack sampleConfig (bytes "/Note.txt")
      (bytes "abc") ∧
    (afterChunks [.openFailed] [bytes "hel", bytes "p"]).ReadsBack sampleConfig (bytes "/Note.txt")
      (bytes "help") := by
  constructor
  · obtain ⟨c, hn, _⟩ := describedMount_noteAt []
    exact ((write_then_read_iff structuralIcal_lawful (reachable_describedMount []) hn (by decide)
      (writeChunks_describedMount (by decide +kernel))).1
      (fun _ h => absurd (List.mem_of_mem_take h) List.not_mem_nil)).2 (.inl (by decide))
  · obtain ⟨c, hn, hds⟩ := describedMount_noteAt [.openFailed]
    refine ((write_then_read_iff structuralIcal_lawful (reachable_describedMount _) hn (by decide)
      (writeChunks_describedMount (by decide +kernel))).2 (fun left h => ?_) ?_).2 ?_
    · rcases List.mem_cons.1 (List.mem_of_mem_take h) with h | h
      · cases h
      · exact absurd h List.not_mem_nil
    · rw [hds]
      decide
    · rw [hds]
      decide

/-- A write whose file cannot be opened returns its size, and nothing of it is read. -/
theorem not_all_writes_read_back :
    ¬ ∀ (w w' : World Icalcomponent) (path : CStr) (n : NodeId) (k : CStr) (c : Icalcomponent)
      (chunks : List (List UInt8)), Reachable sampleConfig w →
      w.NoteAt sampleConfig path n k c → chunks ≠ [] → (∀ b ∈ chunks, (0 : UInt8) ∉ b) →
      writeChunks sampleConfig path 0 chunks w = .ok (chunks.map (fun b => (b.length : Int)), w') →
        w'.ReadsBack sampleConfig path chunks.flatten := by
  intro hall
  obtain ⟨c, hn, _⟩ := describedMount_noteAt [.openFailed]
  have hreads := hall _ _ _ _ _ _ [bytes "x"] (reachable_describedMount _) hn (by decide)
    (by decide) (writeChunks_describedMount (by decide +kernel))
  have hloop := hreads (fun _ => 1) (fun _ => ⟨Nat.one_pos, by omega⟩) 9 (by decide)
  have hread : (readLoop sampleConfig (bytes "/Note.txt") (fun _ => 1) 9 0 0).check
      (afterChunks [.openFailed] [bytes "x"]) (fun r _ => decide (r = (0, bytes "hello"))) = true := by
    decide +kernel
  rw [Prog.check_run hloop] at hread
  exact absurd hread (by decide)

theorem write_touches_range_describedNote :
    ((fuseWrite sampleConfig (bytes "/Note.txt") (bytes " you") 4 5).final
      (describedMount [])).ReadsBack sampleConfig (bytes "/Note.txt") (bytes "hello you") := by
  obtain ⟨c, hn, hds⟩ := describedMount_noteAt []
  have hcontent : noteContent c = bytes "hello" := congrArg (·.head?.getD []) hds
  obtain ⟨s, hrun, hs⟩ := Prog.run_of_check
    (m := fuseWrite sampleConfig (bytes "/Note.txt") (bytes " you") 4 5) (s := describedMount [])
    (f := fun s _ => decide (s = 4)) (by decide +kernel)
  obtain rfl := of_decide_eq_true hs
  have hiff := write_touches_range_iff structuralIcal_lawful (reachable_describedMount []) hn
    (by rw [hcontent]; decide) (by rw [hcontent]; decide) (by decide) hrun
  have ho : (describedMount []).outcome = .written := rfl
  simp only [hcontent, ho] at hiff
  rw [if_neg (by decide)] at hiff
  exact hiff.2 (by decide)

/-- Writing `J` over the first letter of `hello` loses the rest. -/
theorem not_all_writes_touch_their_range :
    ¬ ∀ (w w' : World Icalcomponent) (path : CStr) (n : NodeId) (k : CStr) (c : Icalcomponent)
      (offset : Nat) (buf : List UInt8), Reachable sampleConfig w →
      w.NoteAt sampleConfig path n k c → offset ≤ (noteContent c).length → (0 : UInt8) ∉ buf →
      fuseWrite sampleConfig path buf buf.length offset w = .ok ((buf.length : Int), w') →
        w'.ReadsBack sampleConfig path (overwritten (noteContent c) offset buf) := by
  intro hall
  obtain ⟨c, hn, hds⟩ := describedMount_noteAt []
  have hcontent : noteContent c = bytes "hello" := congrArg (·.head?.getD []) hds
  obtain ⟨s, hrun, hs⟩ := Prog.run_of_check
    (m := fuseWrite sampleConfig (bytes "/Note.txt") (bytes "J") 1 0) (s := describedMount [])
    (f := fun s _ => decide (s = 1)) (by decide +kernel)
  obtain rfl := of_decide_eq_true hs
  have hreads := hall _ _ _ _ _ _ 0 (bytes "J") (reachable_describedMount _) hn (Nat.zero_le _)
    (by decide) hrun
  rw [hcontent] at hreads
  have hloop := hreads (fun _ => 1) (fun _ => ⟨Nat.one_pos, by omega⟩) 9 (by decide)
  have hread : (readLoop sampleConfig (bytes "/Note.txt") (fun _ => 1) 9 0 0).check
      ((fuseWrite sampleConfig (bytes "/Note.txt") (bytes "J") 1 0).final (describedMount []))
      (fun r _ => decide (r = (0, bytes "J"))) = true := by decide +kernel
  rw [Prog.check_run hloop] at hread
  exact absurd hread (by decide)

end Agendafs
