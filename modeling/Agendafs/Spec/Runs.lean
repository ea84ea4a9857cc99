import Agendafs.Spec.HeldNotes
import Agendafs.Spec.LoadCorrect
import Agendafs.Spec.RenameCorrect
import Agendafs.Spec.StructuralIcal

/-!
# Runs of the program

A run is the load of VDIR followed by any number of whole calls, since each call
holds the lock, in between which other programs change the files. `Run` is
taken relative to a `Guard` that restricts the loads and calls of the run;
`Reachable` is `Run` without restriction. Every state of a run is sound.

## Key results

- `Run.sound`: tree and index keep their invariant along every run
- `tree_and_index_agree`: what this means for nodes, children and index, and for
  the pointers the calls follow
-/

namespace Agendafs

open Store

variable {Text : Type} {cfg : Config Text} {w w' : World Text}

/-! ## Runs -/

/-- A restriction on the loads and calls of a run, by the state before them. -/
structure Guard (Text : Type) where
  load : World Text → Option (List Dirent) → Prop
  call : World Text → Op → Prop

/-- The states between the calls of a run. A call that stops has no state after it. -/
inductive Run (cfg : Config Text) (G : Guard Text) : World Text → Prop
  | load {w w' : World Text} {listing : Option (List Dirent)} (hstart : w.AtStart)
      (hlisting : ValidListing (listing.getD [])) (hG : G.load w listing)
      (hrun : loadRootNodeTree cfg listing w = .ok ((), w')) : Run cfg G w'
  | external {w : World Text} (files : CStr → Option (File Text)) (env : Environment Text)
      (h : Run cfg G w) : Run cfg G { store := w.store, files := files, env := env }
  | call {w w' : World Text} {o : Op} {status : Int} (h : Run cfg G w) (hv : o.Valid cfg w)
      (hG : G.call w o) (hrun : exec cfg o w = .ok (status, w')) : Run cfg G w'

/-- The states of the runs without restriction. -/
def Reachable (cfg : Config Text) (w : World Text) : Prop :=
  Run cfg ⟨fun _ _ => True, fun _ _ => True⟩ w

/-- A load of sample files that returns is a run. -/
theorem run_sampleMount {G : Guard Icalcomponent} {files : List (CStr × Icalcomponent)}
    (env : Environment Icalcomponent) (hnodup : (files.map (·.1)).Nodup)
    (hflat : ∀ p ∈ files, slash ∉ p.1) (hG : G.load (sampleStart files) (sampleListing files))
    (hload : (loadRootNodeTree sampleConfig (sampleListing files)).check (sampleStart files)
      (fun _ _ => true) = true) : Run sampleConfig G (sampleMount files env) := by
  obtain ⟨_, hrun, _⟩ := Prog.run_of_check hload
  refine .external _ _ (.load (fun _ => rfl) ⟨?_, ?_⟩ hG hrun)
  · change ((files.map _).map _).Nodup
    rw [List.map_map]
    exact hnodup
  · intro d hd
    obtain ⟨p, hp, rfl⟩ := List.mem_map.1 hd
    exact hflat p hp

/-- A property of every entry can be tested on the nodes allocated so far. -/
theorem forall_entry_of_check {s : Store} (h : s.Inv) {P : AgendaEntry → Bool}
    (hall : ∀ n < s.nextId, (s.entry n).all P = true) {n : NodeId} {e : AgendaEntry}
    (he : s.entry n = some e) : P e = true := by
  have hn := hall n (h.lt_nextId n (live_of_entry he))
  rwa [he, Option.all_some] at hn

theorem parses_of_check {w : World Icalcomponent} (h : w.store.Inv)
    (hall : ∀ n < w.store.nextId, (w.store.entry n).all (fun e =>
      (w.files (appendPath sampleConfig.vdir e.filenameVdir)).any (·.readable) &&
        (w.fileComponent sampleConfig e.filenameVdir).isSome) = true) : w.Parses sampleConfig := by
  intro n e he
  have hn := forall_entry_of_check h hall he
  rwa [Bool.and_eq_true, Option.any_eq_true] at hn

/-- A sample call that returns, with the state it leaves. -/
theorem exec_sample {o : Op} {w : World Icalcomponent} {status : Int}
    (h : (exec sampleConfig o).check w (fun s _ => decide (s = status)) = true) :
    exec sampleConfig o w = .ok (status, (exec sampleConfig o).final w) := by
  obtain ⟨_, hrun, hstatus⟩ := Prog.run_of_check h
  rw [← of_decide_eq_true hstatus]
  exact hrun

/-- The mount of an empty directory, before the UUID `u` is given out. -/
def emptyMount : World Icalcomponent := sampleMount [] { uuid := bytes "u" }

theorem run_nestedNote {G : Guard Icalcomponent}
    (hG : G.load (sampleStart nestedNote) (sampleListing nestedNote)) :
    Run sampleConfig G (sampleMount nestedNote {}) :=
  run_sampleMount {} (by decide) (by decide) hG (by decide +kernel)

theorem reachable_nestedNote : Reachable sampleConfig (sampleMount nestedNote {}) :=
  run_nestedNote trivial

theorem reachable_emptyMount : Reachable sampleConfig emptyMount :=
  run_sampleMount _ (by decide) (by decide) trivial (by decide +kernel)

theorem valid_emptyMount (path : CStr) : (Op.create path).Valid sampleConfig emptyMount :=
  ⟨by decide, by decide +kernel, by decide +kernel⟩

/-! ## The trees that calls leave -/

/-- Creating a note places a new node. -/
theorem created_store {path : CStr} {etype : EntryType} {p : NodeId} (h : w.store.Inv) :
    (w.created cfg path etype p).store =
      (w.store.create (w.newEntry path)).place p w.store.nextId (getFilename path) := by
  refine attach_eq_place (s := w.store.create (w.newEntry path)) (e := w.newEntry path) ?_ ?_
  · rw [h.links_create]
    cases hp : w.store.links.parent w.store.nextId with
    | none => rfl
    | some q => exact absurd (live_of_parent hp) h.not_live_nextId
  · exact (create_entry ..).trans (if_pos rfl)

theorem live_newParent (h : w.store.Inv) {p : NodeId} (hp : w.store.Live p) :
    w.store.Live (w.newParent cfg p) := by
  unfold World.newParent
  split
  · exact hp
  · exact h.root_live

theorem World.FreshUuid.flat_newEntry (hfresh : w.FreshUuid cfg) (path : CStr) :
    slash ∉ (w.newEntry path).filenameVdir := by
  have hsuffix : slash ∉ bytes "-caldavfs" ∧ slash ∉ bytes ".ics" := by decide
  unfold World.newEntry World.newId createNewUniqueIcsUid
  rw [List.mem_append, List.mem_append]
  rintro ((hm | hm) | hm)
  · exact hfresh.flat hm
  · exact hsuffix.1 hm
  · exact hsuffix.2 hm

theorem Created.sound {path : CStr} {etype : EntryType} {status : Int} (h : w.store.Sound)
    (hfresh : w.FreshUuid cfg) (hc : Created cfg w path etype status w') : w'.store.Sound := by
  have hcreate : (w.store.create (w.newEntry path)).Sound :=
    h.create hfresh.not_indexed (hfresh.flat_newEntry path)
  cases hc with
  | rejected => exact h
  | noParent => exact hcreate
  | notDirectory => exact hcreate
  | created _ _ hp _ =>
    rw [created_store h.toInv]
    exact hcreate.place ((create_live ..).2 (.inr (h.live_of_lookup hp)))
      ((create_entry ..).trans (if_pos rfl))

theorem Edited.store {o : Op} {status : Int} (hc : Edited cfg w o status w') :
    w'.store = w.store := by
  cases hc <;> rfl

theorem Removed.sound {path : CStr} {status : Int} (h : w.store.Sound)
    (hc : Removed cfg w path status w') : w'.store.Sound := by
  cases hc with
  | rejected => exact h
  | failed => exact h
  | removed _ he hchildren => exact h.delete he hchildren

theorem AgendaRenamed.sound {old new : CStr} {status : Int} (h : w.store.Sound)
    (hc : AgendaRenamed cfg w old new status w') : w'.store.Sound := by
  cases hc with
  | noParent => exact h
  | moved _ hp _ he _ _ =>
    rw [moved_store]
    exact h.place (live_newParent h.toInv (h.live_of_lookup hp)) he

theorem Renamed.sound {old new : CStr} {status : Int} (h : w.store.Sound)
    (hc : Renamed cfg w old new status w') : w'.store.Sound := by
  cases hc with
  | notEmpty => exact h
  | removeFailed => exact h
  | replaced _ he hchildren _ hr => exact hr.sound (h.delete he hchildren)
  | fresh _ hr => exact hr.sound h

theorem Handled.sound {k : CStr} (h : w.store.Sound) (hc : Handled cfg w k w') :
    w'.store.Sound := by
  cases hc with
  | unchanged => exact h
  | updated _ he hp =>
    rw [updated_store]
    -- The key is the last component of a path, so it has no slash.
    have hflat := slash_not_mem_getFilename (appendPath cfg.vdir k)
    rw [← filenameVdir_of_agendaEntryOf he] at hflat
    exact (h.upsert hflat).place (h.toInv.upsert.live_of_target hp) (upsert_entry h.toInv)

/-- A call keeps the tree sound. -/
theorem Effect.sound {o : Op} {status : Int} (h : w.store.Sound) (hv : o.Valid cfg w)
    (hc : Effect cfg w o status w') : w'.store.Sound := by
  cases o with
  | create filepath => exact Created.sound h hv hc
  | mkdir filepath => exact Created.sound h hv hc
  | write path buf size offset => rw [Edited.store hc]; exact h
  | setxattr path attrib value s flags => rw [Edited.store hc]; exact h
  | removexattr path attrib => rw [Edited.store hc]; exact h
  | unlink file => exact Removed.sound h hc
  | rmdir filepath => exact Removed.sound h hc
  | rename old new flags => exact Renamed.sound h hc
  | event event => exact Handled.sound h hc.1

/-- The load leaves a sound tree, or stops visibly. -/
theorem wp_loadRootNodeTree_sound (hstart : w.AtStart) {listing : Option (List Dirent)}
    (hlisting : ValidListing (listing.getD [])) :
    Prog.wp (loadRootNodeTree cfg listing) (fun _ u => u.store.Sound ∧ u.store.UniqueNames)
      Crash.Visible w := by
  refine Prog.wp_mono (wp_loadRootNodeTree hstart hlisting (fun _ _ => True)
    (fun _ _ => trivial) fun _ _ _ _ _ _ _ _ _ _ => trivial) (fun _ u hu => ?_) fun _ hc => hc
  obtain ⟨v, keys, _, hinv, _⟩ := hu
  exact ⟨hinv.sound, hinv.unique⟩

/-- Every state of a run is sound. -/
theorem Run.sound {G : Guard Text} (h : Run cfg G w) : w.store.Sound := by
  induction h with
  | load hstart hlisting _ hrun => exact ((wp_loadRootNodeTree_sound hstart hlisting).ok hrun).1
  | external files env _ ih => exact ih
  | call _ hv _ hrun ih => exact (exec_effect ih hv hrun).sound ih hv

/-! ## The names of the notes -/

section Names

variable {P : CStr → Prop} {status : Int}

/-- A creation brings in the last component of its path. -/
theorem Created.allNames {path : CStr} {etype : EntryType} (h : w.store.Inv)
    (hs : w.store.AllNames P) (hpath : P (getFilename path))
    (hc : Created cfg w path etype status w') : w'.store.AllNames P := by
  have hallocated : (w.store.create (w.newEntry path)).AllNames P := hs.create hpath
  cases hc with
  | rejected => exact hs
  | noParent => exact hallocated
  | notDirectory => exact hallocated
  | created =>
    rw [created_store h]
    exact hallocated.place hpath

theorem Removed.allNames {path : CStr} (hs : w.store.AllNames P)
    (hc : Removed cfg w path status w') : w'.store.AllNames P := by
  cases hc with
  | rejected => exact hs
  | failed => exact hs
  | removed => exact hs.delete _

theorem AgendaRenamed.allNames {old new : CStr} (hs : w.store.AllNames P)
    (hnew : P (getFilename new)) (hc : AgendaRenamed cfg w old new status w') :
    w'.store.AllNames P := by
  cases hc with
  | noParent => exact hs
  | moved =>
    rw [moved_store]
    exact hs.place hnew

/-- A rename brings in the last component of its new path. -/
theorem Renamed.allNames {old new : CStr} (hs : w.store.AllNames P) (hnew : P (getFilename new))
    (hc : Renamed cfg w old new status w') : w'.store.AllNames P := by
  cases hc with
  | notEmpty => exact hs
  | removeFailed => exact hs
  | replaced _ _ _ _ hrest => exact hrest.allNames (hs.delete _) hnew
  | fresh _ hrest => exact hrest.allNames hs hnew

end Names

/-! ## Nodes that are freed -/

theorem AgendaRenamed.live {old new : CStr} {status : Int} {n : NodeId}
    (hc : AgendaRenamed cfg w old new status w') : w'.store.Live n ↔ w.store.Live n := by
  cases hc with
  | noParent => rfl
  | moved => rw [moved_store, place_live]

/-- A node that a call frees had no children. -/
theorem Effect.children_of_freed {o : Op} {status : Int} {n : NodeId} (h : w.store.Sound)
    (hv : o.Valid cfg w) (hc : Effect cfg w o status w') (hn : w.store.Live n)
    (hfreed : ¬ w'.store.Live n) : w.store.links.children n = [] := by
  -- Creations and edits free nothing; a removal frees the node it has found to be a leaf.
  have created : ∀ {path etype}, w.FreshUuid cfg → Created cfg w path etype status w' →
      w'.store.Live n := by
    intro path etype hfresh hc
    have hcreate : (w.store.create (w.newEntry path)).Live n := (create_live ..).2 (.inr hn)
    cases hc with
    | rejected => exact hn
    | noParent => exact hcreate
    | notDirectory => exact hcreate
    | created =>
      rw [created_store h.toInv, place_live]
      exact hcreate
  have edited : ∀ {o}, Edited cfg w o status w' → w'.store.Live n := fun hc => by
    rw [hc.store]
    exact hn
  have removed : ∀ {path}, Removed cfg w path status w' → w.store.links.children n = [] := by
    intro path hc
    cases hc with
    | rejected => exact absurd hn hfreed
    | failed => exact absurd hn hfreed
    | @removed m e hm he hchildren =>
      by_cases hmn : n = m
      · rw [hmn]
        exact hchildren
      · exact absurd ((Inv.delete_live ..).2 ⟨hmn, hn⟩) hfreed
  cases o with
  | create filepath => exact absurd (created hv hc) hfreed
  | mkdir filepath => exact absurd (created hv hc) hfreed
  | write path buf size offset => exact absurd (edited hc) hfreed
  | setxattr path attrib value s flags => exact absurd (edited hc) hfreed
  | removexattr path attrib => exact absurd (edited hc) hfreed
  | unlink file => exact removed hc
  | rmdir filepath => exact removed hc
  | rename old new flags =>
    cases hc with
    | notEmpty => exact absurd hn hfreed
    | removeFailed => exact absurd hn hfreed
    -- The rename that follows the removal of the replaced note frees nothing more.
    | @replaced m e _ _ hm he hchildren _ hr =>
      by_cases hmn : n = m
      · rw [hmn]
        exact hchildren
      · rw [hr.live] at hfreed
        exact absurd ((Inv.delete_live ..).2 ⟨hmn, hn⟩) hfreed
    | fresh _ hr =>
      rw [hr.live] at hfreed
      exact absurd hn hfreed
  | event event =>
    cases hc.1 with
    | unchanged => exact absurd hn hfreed
    | updated =>
      rw [updated_store] at hfreed
      exact absurd (place_live.2 ((upsert_live h.toInv).2 (.inr hn))) hfreed

/-- Tree and index agree in every reachable state: a node with a parent is listed once, by
    that parent only; every child has the node that lists it as its parent; the root has
    none; and the index lists exactly the nodes that are allocated, under the name of
    their file. So a call that frees a node frees one without children, and neither a
    call nor the load follows a freed pointer or misses a child it detaches. -/
theorem tree_and_index_agree :
    (∀ w : World Text, Reachable cfg w →
      (∀ n p, w.store.links.parent n = some p →
        (w.store.links.children p).count n = 1 ∧ ∀ q, q ≠ p → n ∉ w.store.links.children q) ∧
      (∀ p c, c ∈ w.store.links.children p → w.store.links.parent c = some p) ∧
      w.store.links.parent w.store.fuseRoot = none ∧
      (∀ k n, w.store.entriesVdir.get k = some n ↔
        ∃ e, w.store.entry n = some e ∧ e.filenameVdir = k) ∧
      (∀ k n, w.store.entriesVdir.get k = some n → w.store.Live n) ∧
      ∀ o : Op, o.Valid cfg w →
        (∀ c, exec cfg o w = .error c → c ≠ .childNotFound ∧ c ≠ .useAfterFree) ∧
        ∀ status w', exec cfg o w = .ok (status, w') →
          ∀ n, w.store.Live n → ¬ w'.store.Live n → w.store.links.children n = []) ∧
    ∀ (w : World Text) (listing : Option (List Dirent)), w.AtStart →
      ValidListing (listing.getD []) → ∀ c, loadRootNodeTree cfg listing w = .error c →
        c ≠ .childNotFound ∧ c ≠ .useAfterFree := by
  have visible : ∀ c : Crash, c.Visible → c ≠ .childNotFound ∧ c ≠ .useAfterFree := by
    rintro c (rfl | rfl | rfl) <;> decide
  constructor
  · intro w hw
    have hs := Run.sound hw
    refine ⟨fun n p hp => ⟨?_, fun q hq hm => ?_⟩, fun p c hc => hs.wf.mem_children.1 hc,
      hs.root_parent, hs.index, fun k n hk => hs.live_of_index hk, fun o hv => ⟨?_, ?_⟩⟩
    · exact List.count_eq_one_of_mem (hs.wf.nodup p) (hs.wf.mem_children.2 hp)
    · rw [hs.wf.mem_children, hp, Option.some.injEq] at hm
      exact hq hm.symm
    · intro c hrun
      exact visible c ((wp_exec hs hv).error hrun)
    · intro status w' hrun n hn hfreed
      exact (exec_effect hs hv hrun).children_of_freed hs hv hn hfreed
  · intro w listing hstart hlisting c hrun
    exact visible c ((wp_loadRootNodeTree_sound hstart hlisting).error hrun)

/-- A mount of a directory with a note in it, after a note has been created beside it. -/
def createdBeside : World Icalcomponent :=
  (exec sampleConfig (.create (bytes "/New.txt"))).final
    (sampleMount nestedNote { uuid := bytes "u" })

/-- The same after the new note has been moved into the directory. -/
def movedIn : World Icalcomponent :=
  (exec sampleConfig (.rename (bytes "/New.txt") (bytes "/Dir/New.txt") 0)).final createdBeside

theorem reachable_movedIn : Reachable sampleConfig movedIn := by
  have hmount : Reachable sampleConfig (sampleMount nestedNote { uuid := bytes "u" }) :=
    run_sampleMount _ (by decide) (by decide) trivial (by decide +kernel)
  have hcreate : (Op.create (bytes "/New.txt")).Valid sampleConfig
      (sampleMount nestedNote { uuid := bytes "u" }) :=
    ⟨by decide, by decide +kernel, by decide +kernel⟩
  have hcreateRun : exec sampleConfig (.create (bytes "/New.txt"))
      (sampleMount nestedNote { uuid := bytes "u" }) = .ok (0, createdBeside) :=
    exec_sample (by decide +kernel)
  have hrename : (Op.rename (bytes "/New.txt") (bytes "/Dir/New.txt") 0).Valid sampleConfig
      createdBeside := ⟨by decide +kernel, by decide, by decide⟩
  have hrenameRun : exec sampleConfig (.rename (bytes "/New.txt") (bytes "/Dir/New.txt") 0)
      createdBeside = .ok (0, movedIn) := exec_sample (by decide +kernel)
  exact .call (.call hmount hcreate trivial hcreateRun) hrename trivial hrenameRun

theorem tree_and_index_agree_sample :
    Reachable sampleConfig movedIn ∧ movedIn.store.links.parent 3 = some 1 ∧
      (movedIn.store.links.children 1).count 3 = 1 ∧
      ∃ w', exec sampleConfig (.unlink (bytes "/Dir/Note.txt")) movedIn = .ok (0, w') ∧
        ¬ w'.store.Live 2 ∧ movedIn.store.links.children 2 = [] := by
  obtain ⟨hnodes, _, _, _, _, hcalls⟩ := tree_and_index_agree.1 _ reachable_movedIn
  have hparent : movedIn.store.links.parent 3 = some 1 := by decide +kernel
  -- The note in the directory is deleted, which frees its node.
  obtain ⟨status, hrun, hcheck⟩ := Prog.run_of_check
    (m := exec sampleConfig (.unlink (bytes "/Dir/Note.txt"))) (s := movedIn)
    (f := fun status w' => decide (status = 0 ∧ movedIn.store.Live 2 ∧ ¬ w'.store.Live 2))
    (by decide +kernel)
  obtain ⟨rfl, hlive, hfreed⟩ := of_decide_eq_true hcheck
  exact ⟨reachable_movedIn, hparent, (hnodes 3 1 hparent).1, _, hrun, hfreed,
    (hcalls (.unlink (bytes "/Dir/Note.txt")) trivial).2 _ _ hrun 2 hlive hfreed⟩

end Agendafs
