import Agendafs.Spec.Mounting
import Agendafs.Spec.Readers
import Agendafs.Spec.Runs

/-!
# Threads

The FUSE threads and the thread that watches VDIR share tree, index and files. Each
call holds the lock `entries_lock` from its first access to them to its last one:
for writing if it may change them, for reading otherwise. A call under the lock is
cut into steps in any way, between which other threads run; calls under the shared
lock may so be interleaved. Still, what happens is a run of whole calls, in the order
in which they give the lock back, so what is known of the states of runs is known
of every state that a call sees, and the clients see one tree of files.

Other programs write the files of VDIR while no call is inside: they do not take the
lock, and nothing is said of their writes during a call.

## Key results

- `interleavings_are_runs`: any calls, from any reachable state
- `served_concurrently`: after the mount, the calls are those of a session
-/

namespace Agendafs

open Store Prog Locks

variable {Text : Type} {cfg : Config Text} {w : World Text}

/-! ## Any call -/

/-- All that a thread can do with tree, index and files. -/
inductive Call (Text : Type)
  | change (o : Op)
  | getattr (path : CStr)
  | readdir (full : List FillerCall → Bool) (path : CStr)
  | openFile (path : CStr)
  | read (path : CStr) (size offset : Nat)
  | listxattr (path : CStr) (list : List UInt8) (size : Nat) (behind : List UInt8)
  | getxattr (path attrib : CStr) (buf : List UInt8) (s : Nat)
  | readlink (path : CStr)
  | utimens (path : CStr)
  /-- Other programs have changed the files. -/
  | external (files : CStr → Option (File Text)) (env : Environment Text)

/-- What a call returns and writes to the memory it is given. -/
inductive Answer
  | status (status : Int)
  | stat (result : Int × Stat)
  | filled (result : Int × List FillerCall)
  | data (result : Int × List UInt8)
  | names (result : ListedXattrs)

/-- Run one call alone. -/
def Call.run (cfg : Config Text) : Call Text → FsM Text Answer
  | .change o => do pure (.status (← Agendafs.exec cfg o))
  | .getattr path => do pure (.stat (← fuseGetattr cfg path))
  | .readdir full path => do pure (.filled (← fuseReaddir cfg full path))
  | .openFile path => do pure (.status (← fuseOpen path))
  | .read path size offset => do pure (.data (← fuseRead cfg path size offset))
  | .listxattr path list size behind => do
    pure (.names (← fuseListxattr cfg path list size behind))
  | .getxattr path attrib buf s => do pure (.data (← fuseGetxattr cfg path attrib buf s))
  | .readlink path => do pure (.status (← fuseReadlink path))
  | .utimens path => do pure (.status (← fuseUtimens path))
  | .external files env => fun w =>
    .ok (.status 0, { store := w.store, files := files, env := env })

/-- An event without the name of a note is let go before the lock is taken. -/
def Op.access : Op → Access
  | .event e => if e.name = [] || !strstr (bytes ".ics") e.name then .none else .exclusive
  | _ => .exclusive

/-- The lock that a call holds. -/
def Call.access : Call Text → Access
  | .change o => o.access
  | .external .. => .exclusive
  | .getattr .. | .readdir .. | .openFile .. | .read .. | .listxattr .. | .getxattr .. => .shared
  | .readlink .. | .utimens .. => .none

/-- What is known of a call when it gets the lock. The old path of a rename that has waited may be
    gone; then siblings have to have different names. -/
def Call.Valid (cfg : Config Text) (w : World Text) : Call Text → Prop
  | .change (.rename old new _) => ¬ splitPath old <+: splitPath new ∧ getFilename new ≠ [] ∧
      (w.store.lookup old = none → w.store.UniqueNames)
  | .change o => o.Valid cfg w
  | _ => True

/-- Nothing is moved from a path that is gone. -/
theorem AgendaRenamed.of_gone {old new : CStr} {status : Int} {w' : World Text}
    (hold : w.store.lookup old = none) (hc : AgendaRenamed cfg w old new status w') :
    w' = w ∧ ∃ parentPath, getParentPath new = some parentPath ∧
      w.store.lookup parentPath = none := by
  cases hc with
  | noParent hparent hp => exact ⟨rfl, _, hparent, hp⟩
  | moved _ _ hfound => cases hold.symm.trans hfound

/-- A rename whose old path is gone changes neither tree nor files, unless it stops. -/
theorem Renamed.unchanged_of_gone {old new : CStr} {status : Int} {w' : World Text}
    (h : w.store.Sound) (hu : w.store.UniqueNames) (hname : getFilename new ≠ [])
    (hold : w.store.lookup old = none) (hc : Renamed cfg w old new status w') :
    w'.store = w.store ∧ w'.files = w.files := by
  cases hc with
  | notEmpty => exact ⟨rfl, rfl⟩
  | removeFailed => exact ⟨rfl, rfl⟩
  | @replaced n e _ _ hn he hchildren _ hc =>
    have hold' : (w.store.delete n e.filenameVdir).lookup old = none := by
      have hnamespace := congrFun (namespace_removed h hu he hchildren hn) (splitPath old)
      refine hnamespace.trans ?_
      by_cases hsame : splitPath old = splitPath new
      · rw [hsame, Function.update_self]
      · rw [Function.update_of_ne hsame]
        exact hold
    -- The directory of the note that is in the way is still there.
    obtain ⟨_, parentPath, hparent, hp⟩ := hc.of_gone hold'
    obtain ⟨_, _, hp', _⟩ := lookup_parent_removed h.toInv (k := e.filenameVdir) hparent hname hn
      hchildren
    cases hp.symm.trans hp'
  | fresh _ hc =>
    obtain ⟨rfl, _⟩ := hc.of_gone hold
    exact ⟨rfl, rfl⟩

theorem access_ne_shared (o : Op) : o.access ≠ .shared := by
  unfold Op.access
  cases o with
  | event e =>
    simp only
    split <;> decide
  | _ => exact nofun

theorem observes_call {a : Call Text} (ha : a.access = .shared) : Observes (a.run cfg) := by
  cases a with
  | change o => exact absurd ha (access_ne_shared o)
  | external => cases ha
  | getattr path => exact .bind (observes_fuseGetattr path) fun _ => .pure _
  | readdir full path => exact .bind (observes_fuseReaddir full path) fun _ => .pure _
  | openFile path => exact .bind (observes_fuseOpen path) fun _ => .pure _
  | read path size offset => exact .bind (observes_fuseRead path size offset) fun _ => .pure _
  | listxattr path list size behind =>
    exact .bind (observes_fuseListxattr path list size behind) fun _ => .pure _
  | getxattr path attrib buf s =>
    exact .bind (observes_fuseGetxattr path attrib buf s) fun _ => .pure _
  | readlink path => cases ha
  | utimens path => cases ha

/-- An event that does not take the lock does nothing. -/
theorem exec_of_access_none {o : Op} (ho : o.access = .none) : exec cfg o = pure 0 := by
  cases o with
  | event e =>
    have hname : (e.name = [] || !strstr (bytes ".ics") e.name) = true := by
      by_contra hname
      rw [Op.access, if_neg hname] at ho
      cases ho
    have hhandle : handleVdirEvent cfg e = pure () := if_pos hname
    rw [exec, hhandle]
    rfl
  | _ => cases ho

/-- Without the lock a call does nothing. -/
theorem call_pure {a : Call Text} (ha : a.access = .none) : ∃ r, a.run cfg = pure r := by
  cases a with
  | change o =>
    refine ⟨.status 0, ?_⟩
    rw [Call.run, exec_of_access_none ha]
    rfl
  | readlink path => exact ⟨.status (-ENOENT), rfl⟩
  | utimens path => exact ⟨.status 0, rfl⟩
  | _ => cases ha

/-- The calls can be cut, the reading ones into single reads. -/
theorem exists_cut (cfg : Config Text) : ∃ cut : Cut (Call.run cfg) Call.access,
    (∀ a, a.access = .shared → (cut.task a).Fine) ∧
      ∀ a, a.access = .exclusive → cut.task a = .whole (a.run cfg) :=
  Cut.exists_fine (Call.run cfg) (fun _ ha => observes_call ha) fun _ ha => call_pure ha

/-- A call leads from one state of a run to the next. -/
theorem reachable_call (h : Reachable cfg w) {a : Call Text} {r : Answer} {w' : World Text}
    (hv : a.access ≠ .none → a.Valid cfg w) (hrun : a.run cfg w = .ok (r, w')) :
    Reachable cfg w' := by
  have hsame (hshared : a.access = .shared) : Reachable cfg w' := by
    obtain rfl : w' = w := (observes_call hshared).reads _ _ _ hrun
    exact h
  cases a with
  | change o =>
    rw [Call.run, bind_run] at hrun
    split at hrun
    · rename_i status u hexec
      obtain ⟨_, rfl⟩ := Prod.mk.inj (Except.ok.inj hrun)
      cases o with
      | rename old new flags =>
        obtain ⟨hbelow, hname, hunique⟩ := hv nofun
        cases hold : w.store.lookup old with
        | some n =>
          have hvalid : (Op.rename old new flags).Valid cfg w :=
            ⟨by rw [hold]; rfl, hbelow, hname⟩
          exact .call h hvalid trivial hexec
        | none =>
          have hrenamed : Renamed cfg w old new status u :=
            (wp_fuseRename h.sound.toInv old new flags).ok hexec
          obtain ⟨hstore, hfiles⟩ :=
            hrenamed.unchanged_of_gone h.sound (hunique hold) hname hold
          have hsame : u = { store := w.store, files := w.files, env := u.env } := by
            rw [← hstore, ← hfiles]
          rw [hsame]
          exact .external w.files u.env h
      | create path => exact .call (o := .create path) h (hv nofun) trivial hexec
      | mkdir path => exact .call (o := .mkdir path) h (hv nofun) trivial hexec
      | _ =>
        refine Run.call h ?_ trivial hexec
        trivial
    · cases hrun
  | external files env =>
    obtain ⟨_, rfl⟩ := Prod.mk.inj (Except.ok.inj hrun)
    exact .external files env h
  | readlink path =>
    obtain ⟨_, rfl⟩ := Prod.mk.inj (Except.ok.inj hrun)
    exact h
  | utimens path =>
    obtain ⟨_, rfl⟩ := Prod.mk.inj (Except.ok.inj hrun)
    exact h
  | _ => exact hsame rfl

section Pools

variable {ι : Type} [DecidableEq ι] {cut : Cut (Call.run cfg) Call.access}
  {P P' : Pool Crash (World Text) Answer (Call Text) ι} {w₀ : World Text}
  {ms : List (Made (Call Text) Answer (World Text))}

/-- What is known of a pool of threads: the calls that have returned are a run of whole calls,
    and it goes through reachable states. -/
structure Interleaved (cut : Cut (Call.run cfg) Call.access) (w₀ : World Text)
    (P : Pool Crash (World Text) Answer (Call Text) ι)
    (ms : List (Made (Call Text) Answer (World Text))) (w : World Text) : Prop where
  serial : Serial cut (Call.Valid cfg) w₀ P ms w
  before : ∀ m ∈ ms, Reachable cfg m.before
  reachable : Reachable cfg w

omit [DecidableEq ι] in
theorem Interleaved.of_serial (hs : Serial cut (Call.Valid cfg) w₀ P ms w)
    (h : Reachable cfg w₀) : Interleaved cut w₀ P ms w := by
  obtain ⟨hbefore, hreach⟩ := hs.calls.invariant h fun m hm hrun hbefore =>
    reachable_call hbefore (hs.guarded m hm) hrun
  exact ⟨hs, hbefore, hreach⟩

/-- Every interleaving of calls is a run of whole calls in the order of their returns, and every
    call sees a reachable state. -/
theorem interleavings_are_runs (cut : Cut (Call.run cfg) Call.access) (h : Reachable cfg w₀)
    (hsteps : Steps cut (Call.Valid cfg) (.start w₀) P) :
    ∃ ms w, Interleaved cut w₀ P ms w ∧ ∀ P', Steps cut (Call.Valid cfg) P P' →
      ∃ ms' w', Interleaved cut w₀ P' (ms ++ ms') w' := by
  obtain ⟨ms, w, hserial⟩ := exists_serial hsteps
  refine ⟨ms, w, .of_serial hserial h, fun P' hsteps' => ?_⟩
  obtain ⟨ms', w', hserial'⟩ := hserial.steps hsteps'
  exact ⟨ms', w', .of_serial hserial' h⟩

/-- The call that makes a directory. -/
def makeDir : Call Icalcomponent := .change (.mkdir (bytes "/Dir"))

/-- Two threads: one is going to make a directory, the other one to read the root. -/
def twoThreads : Pool Crash (World Icalcomponent) Answer (Call Icalcomponent) Bool :=
  ((Pool.start emptyMount).set true (.waiting makeDir)).set false (.waiting (.getattr (bytes "/")))

/-- While one thread waits to read the root, the other one makes a directory. -/
theorem interleavings_are_runs_emptyMount :
    ∃ (cut : Cut (Call.run sampleConfig) Call.access)
      (P : Pool Crash (World Icalcomponent) Answer (Call Icalcomponent) Bool),
      P.returned = [(makeDir, .status 0)] ∧ P.phase false = .waiting (.getattr (bytes "/")) ∧
        ∃ ms w, Interleaved cut emptyMount P ms w := by
  obtain ⟨cut, _, hwhole⟩ := exists_cut sampleConfig
  have hexec : exec sampleConfig (.mkdir (bytes "/Dir")) emptyMount =
      .ok (0, (exec sampleConfig (.mkdir (bytes "/Dir"))).final emptyMount) :=
    exec_sample (by decide +kernel)
  have hrun : makeDir.run sampleConfig emptyMount = _ :=
    bind_run_ok (f := fun status => pure (Answer.status status)) hexec
  have hcalls : Steps cut (Call.Valid sampleConfig) (.start emptyMount) twoThreads :=
    .tail (.tail .refl ⟨true, .invoke rfl⟩) ⟨false, .invoke rfl⟩
  have hlock : Step cut (Call.Valid sampleConfig) true twoThreads
      (twoThreads.set true (.inside makeDir (.whole (makeDir.run sampleConfig)))) := by
    rw [← hwhole _ rfl]
    exact .acquire rfl (by rintro (_ | _) b t hj <;> cases hj) fun _ =>
      valid_emptyMount (bytes "/Dir")
  have hsteps := ((hcalls.tail ⟨true, hlock⟩).tail ⟨true, .act rfl hrun⟩).tail ⟨true, .release rfl⟩
  obtain ⟨ms, w, hw, _⟩ := interleavings_are_runs cut reachable_emptyMount hsteps
  exact ⟨cut, _, rfl, rfl, ms, w, hw⟩

end Pools

/-! ## After the mount -/

/-- A request under the shared lock is made of reads. -/
theorem observes_request {q : Request Text} (hq : q.access = .shared) :
    Observes (q.exec cfg) := by
  unfold Request.exec
  rw [if_neg (by rw [hq]; decide)]
  obtain ⟨call, env⟩ := q
  cases call with
  | getxattr path attrib buf s =>
    exact .bind (observes_fuseGetxattr _ attrib buf s) fun _ => .pure _
  | listxattr path list size behind =>
    exact .bind (observes_fuseListxattr _ list size behind) fun _ => .pure _
  | openFile path => exact .bind (observes_fuseOpen _) fun _ => .pure _
  | read path size offset => exact .bind (observes_fuseRead _ size offset) fun _ => .pure _
  | getattr path => exact .bind (observes_fuseGetattr _) fun _ => .pure _
  | readdir path => exact .bind (observes_fuseReaddir _ _) fun _ => .pure _
  | _ => cases hq

theorem request_pure {q : Request Text} (hq : q.access = .none) : ∃ r, q.exec cfg = pure r := by
  unfold Request.exec
  rw [if_neg (by rw [hq]; decide)]
  obtain ⟨call, env⟩ := q
  cases call with
  | readlink path => exact ⟨.status (-ENOENT), rfl⟩
  | utimens path => exact ⟨.status 0, rfl⟩
  | _ => cases hq

/-- A request without the lock is answered as specified in any state. -/
theorem Request.answers_of_none {q : Request Text} (hq : q.access = .none) {r : Response}
    {w' : World Text} (hrun : q.exec cfg w = .ok (r, w')) :
    w' = w ∧ ∀ t, q.Answered t r t := by
  obtain ⟨call, env⟩ := q
  cases call with
  | readlink path =>
    obtain ⟨rfl, rfl⟩ := Prod.mk.inj (Except.ok.inj hrun)
    exact ⟨rfl, fun t => ⟨rfl, rfl⟩⟩
  | utimens path =>
    obtain ⟨rfl, rfl⟩ := Prod.mk.inj (Except.ok.inj hrun)
    exact ⟨rfl, fun t => ⟨rfl, rfl⟩⟩
  | _ => cases hq

/-- The calls of all threads after the load are a session with one tree of files, and there is
    no deadlock. -/
theorem served_concurrently (hL : cfg.ical.Lawful) {listing : Option (List Dirent)}
    (hload : w.Loads cfg (listing.getD [])) :
    ∃ u, loadRootNodeTree cfg listing w = .ok ((), u) ∧ ∃ h : Mounted cfg u,
      ∀ (ι : Type) [DecidableEq ι] (cut : Cut (Request.exec cfg) Request.access)
        (P : Pool Crash (World Text) Response (Request Text) ι),
        Steps cut (Request.Fair cfg) (.start u) P →
        (∃ t', Session Request.Answered h.tree P.returned t' ∧
          ((∀ i q t, P.phase i = .inside q t → q.access ≠ .exclusive) →
            ∃ h' : Mounted cfg P.state, h'.tree = t')) ∧
        ∀ i, P.phase i ≠ .idle →
          (∀ q, P.phase i = .waiting q → q.access ≠ .none → q.Fair cfg P.state) →
          ∃ j P', P.phase j ≠ .idle ∧ Step cut (Request.Fair cfg) j P P' := by
  obtain ⟨u, hrun, h⟩ := mounted_loaded hL hload
  refine ⟨u, hrun, h, fun ι _ cut P hsteps => ?_⟩
  obtain ⟨ms, s, hserial⟩ := exists_serial hsteps
  have hanswered : ∀ m ∈ ms, m.call.exec cfg m.before = .ok (m.result, m.after) → ∀ t,
      (∃ h : Mounted cfg m.before, h.tree = t) →
        ∃ t', m.call.Answered t m.result t' ∧ ∃ h' : Mounted cfg m.after, h'.tree = t' := by
    rintro m hm hmrun _ ⟨hm', rfl⟩
    by_cases hnone : m.call.access = .none
    · obtain ⟨hsame, hanswer⟩ := Request.answers_of_none hnone hmrun
      refine ⟨hm'.tree, hanswer _, ?_⟩
      rw [hsame]
      exact ⟨hm', rfl⟩
    · obtain ⟨h', hanswer⟩ :=
        Request.answered_of_run hL hm' (hserial.guarded m hm hnone) hmrun
      exact ⟨h'.tree, hanswer, h', rfl⟩
  obtain ⟨t', hsession, h', htree⟩ := hserial.calls.session
    (R := fun w t => ∃ h : Mounted cfg w, h.tree = t) hanswered ⟨h, rfl⟩
  refine ⟨⟨t', hserial.returned ▸ hsession, fun hquiet => ?_⟩, fun i hi hguard => ?_⟩
  · rw [hserial.quiet hquiet]
    exact ⟨h', htree⟩
  · refine hserial.progress (fun q _ hq => ?_) hi hguard
    obtain ⟨r, w', _, hexec, _⟩ := Request.answers hL h' hq
    exact returns_of_ok hexec

/-- The request that lists the root. -/
def listRequest : Request Icalcomponent := ⟨.readdir [], {}⟩

/-- Two threads: one is going to remove the note, the other one to list the root. -/
def twoClients (u : World Icalcomponent) :
    Pool Crash (World Icalcomponent) Response (Request Icalcomponent) Bool :=
  ((Pool.start u).set true (.waiting removeRequest)).set false (.waiting listRequest)

theorem served_concurrently_nestedNote :
    ∃ h : Mounted sampleConfig loadedNote, ∃ (cut : Cut (Request.exec sampleConfig) Request.access)
      (P : Pool Crash (World Icalcomponent) Response (Request Icalcomponent) Bool),
      Steps cut (Request.Fair sampleConfig) (twoClients loadedNote) P ∧
      ∃ r t', Session Request.Answered h.tree [(removeRequest, r)] t' ∧
        ∃ h' : Mounted sampleConfig P.state, h'.tree = t' := by
  obtain ⟨u, hrun, h, hserved⟩ := served_concurrently structuralIcal_lawful loads_nestedNote
  obtain ⟨r, hcall⟩ := removeRequest_run
  rw [loadedNote_eq hrun] at hcall ⊢
  obtain ⟨cut, _, hwhole⟩ := Cut.exists_fine (Request.exec sampleConfig)
    (fun _ ha => observes_request ha) fun _ ha => request_pure ha
  have hcalls : Steps cut (Request.Fair sampleConfig) (.start u) (twoClients u) :=
    .tail (.tail .refl ⟨true, .invoke rfl⟩) ⟨false, .invoke rfl⟩
  have hlock : Step cut (Request.Fair sampleConfig) true (twoClients u)
      ((twoClients u).set true (.inside removeRequest
        (.whole (removeRequest.exec sampleConfig)))) := by
    rw [← hwhole _ rfl]
    exact .acquire rfl (by rintro (_ | _) b t hj <;> cases hj) fun _ => fair_removeRequest u
  have hclient : Steps cut (Request.Fair sampleConfig) (twoClients u) _ :=
    .tail (.tail (.single ⟨true, hlock⟩) ⟨true, .act rfl hcall⟩) ⟨true, .release rfl⟩
  obtain ⟨⟨t', hsession, hquiet⟩, _⟩ := hserved Bool cut _ (hcalls.trans hclient)
  refine ⟨h, cut, _, hclient, r, t', hsession, hquiet ?_⟩
  rintro (_ | _) q t hj <;> cases hj

end Agendafs
