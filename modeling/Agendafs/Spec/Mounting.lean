import Agendafs.ForStd.Sessions
import Agendafs.Spec.FileSystem
import Agendafs.Spec.LoadedNames

/-!
# From the mount on

After the initial load of a VDIR whose notes have UIDs, with writes that succeed,
the file system is mounted. So from then on, for as long as no system call fails,
whatever sequence of calls the kernel makes, they return, and their answers are
those of one tree of files.

## Key results

- `mounted_loaded`: the load
- `served_as_tree`: the calls after it
-/

namespace Agendafs

open Store Prog Icalcomponent

variable {Text : Type} {cfg : Config Text} {w w' u : World Text}

/-! ## The load -/

/-- During the load every note that is taken has a UID, and all writes succeed. -/
structure LoadJournals (cfg : Config Text) (w : World Text) (listing : List Dirent)
    (u : World Text) : Prop where
  journal : ∀ k, w.Accepts cfg listing k → ∃ c, u.fileComponent cfg k = some c ∧ IsJournal c
  writes : ∀ o ∈ u.env.writes, o = .written

/-- Marking a parent keeps its UID. -/
theorem LoadJournals.marked (hL : cfg.ical.Lawful) {listing : List Dirent}
    (h : LoadJournals cfg w listing u) (p : NodeId) :
    LoadJournals cfg w listing (u.marked cfg p) where
  journal k hk := by
    obtain ⟨c, hc, hjournal⟩ := h.journal k hk
    rw [fileComponent_marked hL (outcome_of_writes h.writes) p k, hc]
    split
    · refine ⟨_, rfl, hjournal.restamped (keeps_markAsDirectory fun p hp => ?_)
        (parsed_of_fileComponent hL hc) u.now⟩
      exact (onlyKind_kind .uid).eq_false (by rw [onlyKind_isXProp _ p hp]; decide)
    · exact ⟨c, rfl, hjournal⟩
  writes o ho := h.writes o (marked_env_writes p o ho)

theorem LoadJournals.attached (hL : cfg.ical.Lawful) {listing : List Dirent} {k : CStr}
    (h : LoadJournals cfg w listing u) (ha : Attached cfg u k w') :
    LoadJournals cfg w listing w' := by
  cases ha with
  | orphan => exact h
  | placed => exact ⟨(h.marked hL _).journal, (h.marked hL _).writes⟩

/-- A VDIR that can be loaded: its notes are readable, have UIDs and at most one flag each. -/
structure World.Loads (cfg : Config Text) (w : World Text) (listing : List Dirent) : Prop where
  start : w.AtStart
  valid : ValidListing listing
  readable : ¬ w.Unreadable cfg listing
  written : ∀ o ∈ w.env.writes, o = .written
  once : ∀ k c, w.fileComponent cfg k = some c → OneFlag c
  named : ∀ k c, w.Accepts cfg listing k → w.fileComponent cfg k = some c → c.getUid ≠ none

theorem journals_loaded (hL : cfg.ical.Lawful) {listing : Option (List Dirent)}
    (h : w.Loads cfg (listing.getD [])) (hrun : loadRootNodeTree cfg listing w = .ok ((), u)) :
    LoadJournals cfg w (listing.getD []) u := by
  suffices hwp : wp (loadRootNodeTree cfg listing)
      (fun _ u => LoadJournals cfg w (listing.getD []) u) Crash.Visible w from hwp.ok hrun
  refine wp_mono (wp_loadRootNodeTree h.start h.valid
    (fun _ u => LoadJournals cfg w (listing.getD []) u) ?_ ?_) ?_ fun _ hc => hc
  · intro v hv
    refine ⟨fun k hk => ?_, fun o ho => h.written o (by rwa [hv.env] at ho)⟩
    obtain ⟨_, _, _, _, _, hsome⟩ := id hk
    obtain ⟨c, _, hnote⟩ := exists_isNoteFile hsome
    refine ⟨c, ?_, getInner_isSome hnote.note, h.named k c hk hnote.file⟩
    unfold World.fileComponent
    rw [hv.files]
    exact hnote.file
  · intro v pre k u u' _ _ hu _ ha
    exact hu.attached hL ha
  · rintro _ u ⟨v, keys, _, _, _, hu⟩
    exact hu

/-- The load returns, and leaves a mounted file system. -/
theorem mounted_loaded (hL : cfg.ical.Lawful) {listing : Option (List Dirent)}
    (h : w.Loads cfg (listing.getD [])) :
    ∃ u, loadRootNodeTree cfg listing w = .ok ((), u) ∧ Mounted cfg u := by
  have hload := wp_load_laidOut hL h.start h.valid h.written
  have hreturns : wp (loadRootNodeTree cfg listing) _ (fun _ => False) w :=
    wp_mono hload (fun _ _ hu => hu) fun _ hunreadable => h.readable hunreadable
  obtain ⟨⟨⟩, u, hrun, hloaded⟩ := hreturns.returns
  refine ⟨u, hrun, ?_⟩
  have htree := (wp_load_parents hL h.start h.valid (R := fun _ _ => True)
    fun _ _ => trivial).ok hrun fun _ _ _ => trivial
  have hjournals := journals_loaded hL h hrun
  have hparses := hloaded.laidOut.parses hloaded.inv hloaded.readable hloaded.index
  refine ⟨htree.sound, htree.unique, fun n e he => ⟨(hparses n e he).1, ?_⟩, ?_⟩
  · exact hjournals.journal _ ((hloaded.index _).1 ⟨n, (hloaded.inv.index _ _).2 ⟨e, he, rfl⟩⟩)
  · exact loadRootNodeTree_marks hL h.start h.valid h.once
      (fun _ hleft => nomatch h.written _ hleft) hrun

/-! ## The calls -/

/-- A call, and what the library and system calls return while it runs. -/
structure Request (Text : Type) where
  call : FsCall
  env : Environment Text

/-- The lock that is held over a request. -/
def Request.access (q : Request Text) : Locks.Access := q.call.access

/-- Only what changes something makes system calls whose results matter. -/
def Request.exec (cfg : Config Text) (q : Request Text) : FsM Text Response :=
  if q.access = .exclusive then fun w => q.call.exec cfg (w.withEnv q.env) else q.call.exec cfg

/-- The call is a specified one, no system call of it fails, and a new UUID is one. -/
structure Request.Fair (cfg : Config Text) (w : World Text) (q : Request Text) : Prop where
  permitted : ∀ h : Mounted cfg w, q.call.Permitted h.tree
  succeeds : q.env.Succeeds
  ready : q.call.Ready cfg (w.withEnv q.env)

/-- Only the answer of the system calls is new. -/
theorem Mounted.withEnv (h : Mounted cfg w) (env : Environment Text) :
    Mounted cfg (w.withEnv env) where
  sound := h.sound
  unique := h.unique
  journals n e he := (h.journals n e he).congr rfl
  marks := ⟨h.marks.once, h.marks.marked⟩

/-- A request is answered as its call is specified. -/
def Request.Answered (t : NoteTree) (q : Request Text) (r : Response) (t' : NoteTree) : Prop :=
  q.call.Answered t r t'

theorem Request.answers (hL : cfg.ical.Lawful) (h : Mounted cfg w) {q : Request Text}
    (hq : q.Fair cfg w) :
    ∃ r w', ∃ h' : Mounted cfg w', q.exec cfg w = .ok (r, w') ∧ q.Answered h.tree r h'.tree := by
  unfold Request.exec
  by_cases hexclusive : q.access = .exclusive
  · rw [if_pos hexclusive]
    exact call_answered hL (h.withEnv q.env) q.call (fun _ => hq.succeeds) hq.ready
      (hq.permitted h)
  · rw [if_neg hexclusive]
    refine call_answered hL h q.call (fun hx => absurd hx hexclusive) ?_ (hq.permitted h)
    -- Only calls that change something need a UUID.
    revert hexclusive
    unfold Request.access FsCall.access FsCall.Ready
    cases q.call <;> simp

/-- A request that has returned has been answered as its call is specified. -/
theorem Request.answered_of_run (hL : cfg.ical.Lawful) (h : Mounted cfg w) {q : Request Text}
    (hq : q.Fair cfg w) {r : Response} (hrun : q.exec cfg w = .ok (r, w')) :
    ∃ h' : Mounted cfg w', q.Answered h.tree r h'.tree := by
  obtain ⟨r', u, h', hexec, hanswer⟩ := Request.answers hL h hq
  obtain ⟨rfl, rfl⟩ := Prod.mk.inj (Except.ok.inj (hrun.symm.trans hexec))
  exact ⟨h', hanswer⟩

/-- The calls after the load are a session with one tree of files, and the next one returns. -/
theorem served_as_tree (hL : cfg.ical.Lawful) {listing : Option (List Dirent)}
    (hload : w.Loads cfg (listing.getD [])) :
    ∃ u, loadRootNodeTree cfg listing w = .ok ((), u) ∧ ∃ h : Mounted cfg u,
      ∀ ms u', Calls (Request.exec cfg) u ms u' → (∀ m ∈ ms, m.call.Fair cfg m.before) →
        ∃ h' : Mounted cfg u', Session Request.Answered h.tree (ms.map Made.seen) h'.tree ∧
          ∀ q : Request Text, q.Fair cfg u' → (q.exec cfg).Returns u' := by
  obtain ⟨u, hrun, h⟩ := mounted_loaded hL hload
  refine ⟨u, hrun, h, fun ms u' hcalls hfair => ?_⟩
  have hanswered : ∀ m ∈ ms, m.call.exec cfg m.before = .ok (m.result, m.after) → ∀ t,
      (∃ h : Mounted cfg m.before, h.tree = t) →
        ∃ t', m.call.Answered t m.result t' ∧ ∃ h' : Mounted cfg m.after, h'.tree = t' := by
    rintro m hm hmrun _ ⟨hm', rfl⟩
    obtain ⟨h', hanswer⟩ := Request.answered_of_run hL hm' (hfair m hm) hmrun
    exact ⟨h'.tree, hanswer, h', rfl⟩
  obtain ⟨_, hsession, h', rfl⟩ :=
    hcalls.session (R := fun w t => ∃ h : Mounted cfg w, h.tree = t) hanswered ⟨h, rfl⟩
  refine ⟨h', hsession, fun q hq => ?_⟩
  obtain ⟨r, w', _, hexec, _⟩ := Request.answers hL h' hq
  exact returns_of_ok hexec

/-- Files whose components can all be tested on their list. -/
theorem component_of_check {files : List (CStr × Icalcomponent)} {P : Icalcomponent → Bool}
    (hcheck : ∀ p ∈ files, (structuralIcal.newFromString p.2).all P = true) {k : CStr}
    {c : Icalcomponent} (hc : (sampleStart files).fileComponent sampleConfig k = some c) :
    P c = true := by
  obtain ⟨f, hf, hparse⟩ := Option.bind_eq_some_iff.1 hc
  obtain ⟨p, hp, rfl⟩ := Option.map_eq_some_iff.1 hf
  have hall := hcheck p (List.mem_of_find?_eq_some hp)
  rwa [show structuralIcal.newFromString p.2 = some c from hparse, Option.all_some] at hall

theorem loads_nestedNote :
    (sampleStart nestedNote).Loads sampleConfig ((sampleListing nestedNote).getD []) where
  start _ := rfl
  valid := ⟨by decide, by decide⟩
  readable := by
    rintro ⟨d, _, _, _, hfile, hunreadable⟩
    obtain ⟨f, hf⟩ := Option.ne_none_iff_exists'.1 hfile
    obtain ⟨p, hp, rfl⟩ := Option.map_eq_some_iff.1 hf
    exact hunreadable ⟨_, hf, rfl⟩
  written _ ho := nomatch ho
  once := oneFlag_of_check rfl (by decide +kernel)
  named k c _ hc := by
    have hnamed : c.getUid.isSome = true :=
      component_of_check (P := fun c => c.getUid.isSome) (by decide +kernel) hc
    exact Option.isSome_iff_ne_none.1 hnamed

/-- The request that removes the note. -/
def removeRequest : Request Icalcomponent := ⟨.unlink [bytes "Dir"] (bytes "Note.txt"), {}⟩

theorem fair_removeRequest (u : World Icalcomponent) : removeRequest.Fair sampleConfig u := by
  have hshort : ShortPath [bytes "Dir", bytes "Note.txt"] := by
    refine ⟨?_, by decide⟩
    unfold ProperSegments
    decide
  exact ⟨fun _ => hshort, ⟨fun _ ho => (nomatch ho), fun _ ho => (nomatch ho)⟩, trivial⟩

theorem loadedNote_eq {u : World Icalcomponent} (hrun : loadRootNodeTree sampleConfig
    (sampleListing nestedNote) (sampleStart nestedNote) = .ok ((), u)) : loadedNote = u := by
  unfold loadedNote final
  rw [hrun]

theorem removeRequest_run : ∃ r, removeRequest.exec sampleConfig loadedNote =
    .ok (r, (removeRequest.exec sampleConfig).final loadedNote) := by
  obtain ⟨r, hcall, _⟩ := run_of_check (m := removeRequest.exec sampleConfig) (s := loadedNote)
    (f := fun _ _ => true) (by decide +kernel)
  exact ⟨r, hcall⟩

theorem served_as_tree_nestedNote :
    ∃ h : Mounted sampleConfig loadedNote,
      ∃ h' : Mounted sampleConfig ((removeRequest.exec sampleConfig).final loadedNote),
        ∃ r, Session Request.Answered h.tree [(removeRequest, r)] h'.tree := by
  obtain ⟨u, hrun, h, hsessions⟩ := served_as_tree structuralIcal_lawful loads_nestedNote
  obtain ⟨r, hcall⟩ := removeRequest_run
  rw [loadedNote_eq hrun] at hcall ⊢
  obtain ⟨h', hsession, _⟩ :=
    hsessions _ _ (.one hcall) (List.forall_mem_singleton.2 (fair_removeRequest u))
  exact ⟨h, h', r, hsession⟩

end Agendafs
