import Agendafs.Spec.DirectoryCalls
import Agendafs.Spec.LoadedNames
import Agendafs.Spec.StartUp

/-!
# Nodes with children are directories on disk

The load and the handling of an event mark the parent of a note in its file. No
step does so for a node that has its children already: when another program writes
the file of a directory without the mark, the event about it leads to that node
and to its parent, not to its children. So the nodes with children are directories
on disk along the runs in which no step cuts a mark off.

## Key results

- `handleVdirEvent_marks`, `loadRootNodeTree_marks`: events and the load
- `parents_are_directories`: the runs that spare the marks
- `not_all_parents_are_directories`: another program can take a mark away
-/

namespace Agendafs

open Icalcomponent Store

variable {Text : Type} {cfg : Config Text} {w w' v : World Text}

/-! ## Events -/

/-- What the handling of an event needs: the file that it marks has a component for the flag. -/
structure World.CanMark (cfg : Config Text) (w : World Text) (event : InotifyEvent) : Prop where
  left : w.LeavesMarks cfg True
  inside : ∀ k c, w.writtenBy cfg event = some k → w.fileComponent cfg k = some c →
    c.components ≠ []

theorem handleVdirEvent_marks (hL : cfg.ical.Lawful) (h : w.store.Sound)
    (hm : Marks cfg w.store.IsParent w) {event : InotifyEvent} (hcan : w.CanMark cfg event)
    (hrun : handleVdirEvent cfg event w = .ok ((), w')) : MarksParents cfg w w' := by
  rcases handleVdirEvent_cases h hrun with ⟨rfl, _, _⟩ | ⟨e, p, _, he, hbelow, rfl, hwritten⟩
  · exact .same hm rfl rfl
  have hlive : (w.store.upsert e).2.Live p := h.toInv.upsert.live_of_target hbelow.target
  have hmoved : Marks cfg w.store.IsParent { w with store := w.store.updated e p } :=
    hm.congr rfl fun n hn => updated_filenameVdir h.toInv hn.live
  have hsub : ∀ n, (w.store.updated e p).IsParent n → w.store.IsParent n ∨ n = p ∧
      n ≠ w.store.fuseRoot := fun n hn => isParent_updated h.toInv hlive hn
  by_cases hroot : w.parentUid cfg (event.file cfg) = none
  · -- Below the root nothing is marked.
    have hp : (w.store.upsert e).2.fuseRoot = p := by
      have htarget := hbelow.target
      rw [hroot] at htarget
      exact Option.some.inj htarget
    have hupdated : w.updated cfg e p = { w with store := w.store.updated e p } := by
      rw [← hp]
      exact updated_root h.toInv e
    rw [MarksParents, hupdated]
    refine hmoved.mono fun n hn => hn.elim id fun hn => (hsub n hn).resolve_right fun hn => ?_
    exact hn.2 (hn.1.trans (hp.symm.trans upsert_fuseRoot))
  · have htakes : World.TakesNotes cfg { w with store := w.store.updated e p } p :=
      (hbelow.takes hroot).congr (place_filenameVdir ..) rfl rfl
    have hmarked := hmoved.marked_parent hL htakes.markable
      (fun k c hk hc => hcan.inside k c (hwritten.trans hk) hc) hcan.left
    refine hmarked.mono fun n hn => hn.elim .inl fun hn => ?_
    rw [updated_store] at hn
    exact (hsub n hn).imp_right And.left

/-! ## The load -/

/-- A file that is read as a note has a component for the flag. -/
theorem components_of_loadable {k : CStr} {c : Icalcomponent}
    (h : (w.loadable cfg k).isSome = true) (hc : w.fileComponent cfg k = some c) :
    c.components ≠ [] := by
  obtain ⟨c', summary, hnote⟩ := exists_isNoteFile h
  rw [Option.some.inj (hc.symm.trans hnote.file)]
  exact fun hnil => kinds_ne_nil_of_isNote hnote.note (components_eq_nil_iff.1 hnil)

/-- What holds between two rounds of the second loop. -/
structure LoadMarks (cfg : Config Text) (u : World Text) : Prop where
  marks : Marks cfg u.store.IsParent u
  left : u.LeavesMarks cfg True
  inside : ∀ n e c, u.store.entry n = some e → u.fileComponent cfg e.filenameVdir = some c →
    c.components ≠ []

/-- The first loop gives no node a child. -/
theorem Indexed.marks {entries : List Dirent} (h : Indexed cfg w entries v)
    (hone : ∀ k c, w.fileComponent cfg k = some c → OneFlag c) (hleft : w.LeavesMarks cfg True) :
    LoadMarks cfg v := by
  have hfile : ∀ k, v.fileComponent cfg k = w.fileComponent cfg k := fun k => by
    unfold World.fileComponent
    rw [h.files]
  refine ⟨⟨fun k c ps hc hps => ?_, fun n hn => ?_⟩, ?_, fun n e c he hc => ?_⟩
  · rw [hfile] at hc
    exact (hone k c hc).flags hps
  · obtain ⟨m, rest, hcons⟩ := List.exists_cons_of_ne_nil hn.2
    have hparent := h.sound.wf.mem_children.1 (hcons ▸ List.mem_cons_self)
    exact absurd ((h.parent m).symm.trans hparent) (Option.some_ne_none n).symm
  · exact hleft.of_subset (by rw [h.env]; exact List.Subset.refl _)
  · obtain ⟨⟨_, _, _, _, _, hsome⟩, _⟩ := h.index _ n ((h.sound.index _ n).2 ⟨e, he, rfl⟩)
    rw [hfile] at hc
    exact components_of_loadable hsome hc

/-- A round of the second loop marks the parent that it hangs a note below. -/
theorem LoadMarks.attached (hL : cfg.ical.Lawful) {u u' : World Text} (h : LoadMarks cfg u)
    (hs : u.store.Sound) {k : CStr} (ha : Attached cfg u k u')
    (hmarkable : ∀ p, u.store.target (u.parentUid cfg k) = some p → p ≠ u.store.fuseRoot →
      u.Markable cfg p) : LoadMarks cfg u' := by
  cases ha with
  | orphan => exact h
  | @placed n p hn hp =>
    obtain ⟨e, he, _⟩ := (hs.index k n).1 hn
    have hlive := hs.live_of_target hp
    have hmarked : Marks cfg (fun n => u.store.IsParent n ∨ n = p ∧ n ≠ u.store.fuseRoot)
        (u.marked cfg p) := by
      by_cases hroot : p = u.store.fuseRoot
      · rw [hroot, marked_of_entry_none hs.root_entry]
        exact h.marks.mono fun n hn => hn.resolve_right fun hn => hn.2 hn.1
      · have hinside : ∀ k c, u.markedFile cfg p = some k → u.fileComponent cfg k = some c →
            c.components ≠ [] := by
          intro k c hk hc
          obtain ⟨e, _, he, rfl, _⟩ := marked_of_markedFile hk
          exact h.inside p e c he hc
        exact (h.marks.marked_parent hL (hmarkable p hp hroot) hinside h.left).mono fun n hn =>
          hn.imp_right And.left
    refine ⟨?_, h.left.marked p, fun m e' c he' hc => ?_⟩
    · have hplaced : Marks cfg _ { u.marked cfg p with
          store := u.store.place p n (u.store.placedName p n) } :=
        hmarked.congr rfl fun n _ => by rw [place_filenameVdir, marked_store]
      exact hplaced.mono fun m hm => isParent_place hs.toInv hlive (live_of_entry he) hm
    · -- The file that has been marked is still that of a note.
      have hold := place_filenameVdir u.store p n (u.store.placedName p n) m
      simp only at he'
      rw [he'] at hold
      obtain ⟨e₀, he₀, hk⟩ := Option.map_eq_some_iff.1 hold.symm
      simp only at hk
      rw [← hk] at hc
      exact components_of_marked hL h.left (fun c hc => h.inside m e₀ c he₀ hc) hc

/-- The load marks the parents it finds. -/
theorem loadRootNodeTree_marks (hL : cfg.ical.Lawful) (hstart : w.AtStart)
    {listing : Option (List Dirent)} (hlisting : ValidListing (listing.getD []))
    (hone : ∀ k c, w.fileComponent cfg k = some c → OneFlag c) (hleft : w.LeavesMarks cfg True)
    (hrun : loadRootNodeTree cfg listing w = .ok ((), w')) : Marks cfg w'.store.IsParent w' := by
  suffices hwp : Prog.wp (loadInOrder cfg id listing)
      (fun _ u => Marks cfg u.store.IsParent u) (fun _ => True) w by
    rw [loadInOrder_id] at hwp
    exact hwp.ok hrun
  refine Prog.wp_mono (wp_loadInOrder (fun _ => .rfl) hstart hlisting (fun _ _ _ => trivial)
    (fun _ u => LoadMarks cfg u) ?_ ?_) (fun _ u hu => ?_) fun _ _ => trivial
  · intro v hv
    exact hv.marks hone hleft
  · intro v pre k n u hv hinv hu hk hn
    have hround : Prog.wp (attachLoaded cfg k) _ Crash.Visible u :=
      wp_attachLoaded_markable hinv.sound.toInv hn (hinv.unattached k hk n hn)
    refine Prog.wp_mono hround (fun _ u' ha => ⟨ha.1, ?_⟩) fun _ _ => trivial
    exact hu.attached hL hinv.sound ha.1 ha.2
  · obtain ⟨v, keys, _, _, _, hu⟩ := hu
    exact hu.marks

/-! ## Runs -/

/-- A turn of the mounted program, or a write of another program. -/
inductive Turn (Text : Type)
  | change (filenameVdir : CStr) (f : File Text)
  | call (env : Environment Text) (o : Op)
  | handle (env : Environment Text) (event : InotifyEvent)

/-- What a turn does to the state and to the events that wait. Other programs write files with
    one flag at most; what the program writes itself brings events as well. -/
inductive Turn.Does (cfg : Config Text) :
    Turn Text → World Text → List InotifyEvent → World Text → List InotifyEvent → Prop
  | change {w : World Text} {queue events : List InotifyEvent} {k : CStr} {f : File Text}
      (hflat : slash ∉ k) (hone : ∀ c, cfg.ical.newFromString f.content = some c → OneFlag c)
      (hne : events ≠ [])
      (hevents : ∀ event ∈ events,
        event.name = k ∧ (event.mask = IN_CREATE ∨ event.mask = IN_MODIFY)) :
      Turn.Does cfg (.change k f) w queue (w.changed cfg k f) (queue ++ events)
  | call {w w' : World Text} {queue events : List InotifyEvent} {env : Environment Text} {o : Op}
      {status : Int} (ho : ∀ event, o ≠ .event event) (hv : o.Valid cfg (w.withEnv env))
      (hinto : (w.withEnv env).IntoDirectory cfg o)
      (hrun : exec cfg o (w.withEnv env) = .ok (status, w')) :
      Turn.Does cfg (.call env o) w queue w' (queue ++ events)
  | handle {w w' : World Text} {queue events : List InotifyEvent} {env : Environment Text}
      {event : InotifyEvent}
      (hrun : handleVdirEvent cfg event (w.withEnv env) = .ok ((), w')) :
      Turn.Does cfg (.handle env event) w (event :: queue) w' (queue ++ events)

/-- A restriction on the load and on the turns of a run, by the state before them. -/
structure TurnGuard (Text : Type) where
  load : World Text → Prop
  turn : World Text → Turn Text → Prop

/-- The states of a mount with the events that wait: the load of files that have one flag at
    most, and turns after it. -/
inductive Served (cfg : Config Text) (G : TurnGuard Text) :
    World Text → List InotifyEvent → Prop
  | load {w w' : World Text} {listing : Option (List Dirent)} (hstart : w.AtStart)
      (hlisting : ValidListing (listing.getD []))
      (hone : ∀ k c, w.fileComponent cfg k = some c → OneFlag c) (hG : G.load w)
      (hrun : loadRootNodeTree cfg listing w = .ok ((), w')) : Served cfg G w' []
  | turn {w w' : World Text} {queue queue' : List InotifyEvent} {t : Turn Text}
      (h : Served cfg G w queue) (hG : G.turn w t) (ht : t.Does cfg w queue w' queue') :
      Served cfg G w' queue'

/-- A turn that cuts off no mark. In particular another program that writes the file of a node
    with children leaves it a directory. -/
def Turn.Spares (cfg : Config Text) (w : World Text) : Turn Text → Prop
  | .change k f => ∀ n e, w.store.IsParent n → w.store.entry n = some e → e.filenameVdir = k →
      ∃ c, cfg.ical.newFromString f.content = some c ∧ isDirectoryComponent cfg.ical c = true
  | .call env o => (w.withEnv env).SparesMarks cfg o
  | .handle env event => (w.withEnv env).CanMark cfg event

/-- The runs in which no step cuts off a mark. -/
def sparingRuns (cfg : Config Text) : TurnGuard Text where
  load w := w.LeavesMarks cfg True
  turn w t := t.Spares cfg w

theorem Turn.Does.sound {t : Turn Text} {queue queue' : List InotifyEvent} (h : w.store.Sound)
    (ht : t.Does cfg w queue w' queue') : w'.store.Sound := by
  cases ht with
  | change => exact h
  | @call _ _ _ _ env _ _ _ hv _ hrun =>
    have hstore : (w.withEnv env).store.Sound := h
    exact (exec_effect hstore hv hrun).sound hstore hv
  | @handle _ _ _ _ env event hrun =>
    have hstore : (w.withEnv env).store.Sound := h
    exact ((wp_handleVdirEvent hstore event).ok hrun).1.sound hstore

theorem Served.sound {G : TurnGuard Text} {queue : List InotifyEvent}
    (h : Served cfg G w queue) : w.store.Sound := by
  induction h with
  | load hstart hlisting _ _ hrun => exact ((wp_loadRootNodeTree_sound hstart hlisting).ok hrun).1
  | turn _ _ ht ih => exact ht.sound ih

/-- A write of another program to a file that no node with children has, or of a directory. -/
theorem Marks.changed (hm : Marks cfg w.store.IsParent w) {k : CStr} {f : File Text}
    (hone : ∀ c, cfg.ical.newFromString f.content = some c → OneFlag c)
    (hspares : (Turn.change k f).Spares cfg w) :
    Marks cfg w.store.IsParent (w.changed cfg k f) := by
  have hfile : (w.changed cfg k f).fileComponent cfg k = cfg.ical.newFromString f.content := by
    have hnew : (w.changed cfg k f).files (appendPath cfg.vdir k) = some f := if_pos rfl
    rw [World.fileComponent, hnew, Option.bind_some]
  refine hm.refiled (k := k) rfl (fun k' hk' => ?_) (fun c ps hc hps => ?_) fun n e hn he hk => ?_
  · have hold : (w.changed cfg k f).files (appendPath cfg.vdir k') =
        w.files (appendPath cfg.vdir k') := if_neg fun heq => hk' (appendPath_inj.1 heq)
    rw [World.fileComponent, hold, World.fileComponent]
  · rw [hfile] at hc
    exact (hone c hc).flags hps
  · rw [hfile]
    exact hspares n e hn he hk

/-- A turn that spares the marks keeps the nodes with children directories on disk, and those
    that lose their children too. -/
theorem Turn.Does.marks (hL : cfg.ical.Lawful) {t : Turn Text} {queue queue' : List InotifyEvent}
    (h : w.store.Sound) (hm : Marks cfg w.store.IsParent w) (hspares : t.Spares cfg w)
    (ht : t.Does cfg w queue w' queue') : MarksParents cfg w w' := by
  cases ht with
  | change _ hone => exact (hm.changed hone hspares).mono fun n hn => hn.elim id id
  | @call _ _ _ _ env _ _ ho hv hinto hrun =>
    have hstore : (w.withEnv env).store.Sound := h
    have henv : Marks cfg (w.withEnv env).store.IsParent (w.withEnv env) :=
      hm.congr rfl fun _ _ => rfl
    change MarksParents cfg (w.withEnv env) w'
    exact Effect.marks hL hstore henv ho hv hinto hspares (exec_effect hstore hv hrun)
  | @handle _ _ _ _ env event hrun =>
    have hstore : (w.withEnv env).store.Sound := h
    have henv : Marks cfg (w.withEnv env).store.IsParent (w.withEnv env) :=
      hm.congr rfl fun _ _ => rfl
    change MarksParents cfg (w.withEnv env) w'
    exact handleVdirEvent_marks hL hstore henv hspares hrun

theorem Served.marks (hL : cfg.ical.Lawful) {queue : List InotifyEvent}
    (h : Served cfg (sparingRuns cfg) w queue) : Marks cfg w.store.IsParent w := by
  induction h with
  | load hstart hlisting hone hG hrun =>
    exact loadRootNodeTree_marks hL hstart hlisting hone hG hrun
  | turn h hG ht ih => exact (ht.marks hL h.sound ih hG).mono fun n hn => .inr hn

/-- In every run that spares the marks a node with children is a directory on disk; and so it
    stays after a further turn, whatever becomes of its children. -/
theorem parents_are_directories (hL : cfg.ical.Lawful) {queue : List InotifyEvent}
    (h : Served cfg (sparingRuns cfg) w queue) :
    (∀ n, w.store.IsParent n → w.IsMarked cfg n) ∧
      ∀ t w' queue', (t : Turn Text).Spares cfg w → t.Does cfg w queue w' queue' →
        ∀ n, w.store.IsParent n → w'.IsMarked cfg n := by
  have hm := h.marks hL
  refine ⟨hm.marked, fun t w' queue' hspares ht n hn => ?_⟩
  exact (ht.marks hL h.sound hm hspares).marked n (.inl hn)

instance (s : Store) (n : NodeId) : Decidable (s.IsParent n) :=
  inferInstanceAs (Decidable (_ ∧ _))

instance (n : NodeId) : Decidable (w.IsMarked cfg n) :=
  decidable_of_iff _ (Option.any_eq_true ..)

/-- A mount of a directory with a note in it, as the load leaves it. -/
def loadedNote : World Icalcomponent :=
  (loadRootNodeTree sampleConfig (sampleListing nestedNote)).final (sampleStart nestedNote)

theorem served_loadedNote {G : TurnGuard Icalcomponent} (hG : G.load (sampleStart nestedNote)) :
    Served sampleConfig G loadedNote [] := by
  obtain ⟨_, hrun, _⟩ := Prog.run_of_check
    (m := loadRootNodeTree sampleConfig (sampleListing nestedNote))
    (s := sampleStart nestedNote) (f := fun _ _ => true) (by decide +kernel)
  have hone : ∀ k c, (sampleStart nestedNote).fileComponent sampleConfig k = some c → OneFlag c :=
    oneFlag_of_check rfl (by decide +kernel)
  exact .load (fun _ => rfl) ⟨by decide, by decide⟩ hone hG hrun

/-- The call that removes the note. -/
def removeNote : Op := .unlink (bytes "/Dir/Note.txt")

/-- After its only note has been removed the directory is one still. -/
theorem parents_are_directories_removeNote :
    (∀ n, loadedNote.store.IsParent n → loadedNote.IsMarked sampleConfig n) ∧
      ((exec sampleConfig removeNote).final (loadedNote.withEnv {})).IsMarked sampleConfig 1 := by
  have h : Served sampleConfig (sparingRuns sampleConfig) loadedNote [] :=
    served_loadedNote fun left hleft => absurd hleft List.not_mem_nil
  have hrun : exec sampleConfig removeNote (loadedNote.withEnv {}) =
      .ok (0, (exec sampleConfig removeNote).final (loadedNote.withEnv {})) :=
    exec_sample (by decide +kernel)
  have hspares : (Turn.call {} removeNote).Spares sampleConfig loadedNote :=
    ⟨fun left hleft => absurd hleft List.not_mem_nil, .inl trivial⟩
  have hturn : (Turn.call {} removeNote).Does sampleConfig loadedNote []
      ((exec sampleConfig removeNote).final (loadedNote.withEnv {})) ([] ++ []) :=
    .call (fun event => by simp [removeNote]) trivial trivial hrun
  have hall := parents_are_directories structuralIcal_lawful h
  exact ⟨hall.1, hall.2 _ _ _ hspares hturn 1 (by decide +kernel)⟩

/-- The directory without its mark, as another program may write it. -/
def unmarkedFile : File Icalcomponent where
  content := sampleNote (bytes "d") (bytes "Dir") []

/-- The state after that, with an event about the file. -/
def unmarkedDirectory : World Icalcomponent :=
  loadedNote.changed sampleConfig (bytes "d.ics") unmarkedFile

/-- Without the condition a node with children need not be a directory on disk: another program
    takes the mark out of its file, and the event about it puts none back. -/
theorem not_all_parents_are_directories :
    ¬ ∀ w : World Icalcomponent, Served sampleConfig ⟨fun _ => True, fun _ _ => True⟩ w [] →
      ∀ n, w.store.IsParent n → w.IsMarked sampleConfig n := by
  intro hall
  let event : InotifyEvent := ⟨IN_MODIFY, bytes "d.ics"⟩
  have hone : ∀ c, structuralIcal.newFromString unmarkedFile.content = some c → OneFlag c := by
    have hcheck : (structuralIcal.newFromString unmarkedFile.content).all (OneFlag ·) = true := by
      decide +kernel
    intro c hc
    rw [hc] at hcheck
    exact of_decide_eq_true hcheck
  have hevents : ∀ ev ∈ [event], ev.name = bytes "d.ics" ∧
      (ev.mask = IN_CREATE ∨ ev.mask = IN_MODIFY) := by
    intro ev hev
    obtain rfl := List.mem_singleton.1 hev
    exact ⟨rfl, .inr rfl⟩
  have hload : Served sampleConfig ⟨fun _ => True, fun _ _ => True⟩ loadedNote [] :=
    served_loadedNote trivial
  have hchanged : Served sampleConfig ⟨fun _ => True, fun _ _ => True⟩ unmarkedDirectory
      ([] ++ [event]) :=
    hload.turn trivial (.change (by decide) hone (List.cons_ne_nil _ _) hevents)
  obtain ⟨_, hrun, hcheck⟩ := Prog.run_of_check
    (m := handleVdirEvent sampleConfig ⟨IN_MODIFY, bytes "d.ics"⟩)
    (s := unmarkedDirectory.withEnv {})
    (f := fun _ u => decide (u.store.IsParent 1 ∧ ¬ u.IsMarked sampleConfig 1)) (by decide +kernel)
  have hturn : (Turn.handle {} event).Does sampleConfig unmarkedDirectory [event] _ ([] ++ []) :=
    .handle hrun
  obtain ⟨hparent, hnot⟩ := of_decide_eq_true hcheck
  exact hnot (hall _ (hchanged.turn trivial hturn) 1 hparent)

end Agendafs
