import Agendafs.Spec.LoadedTree
import Agendafs.Spec.Siblings

/-!
# Which notes can be seen

A note that is indexed but not below the root is in no listing. Loading hides
the notes whose chain of parents does not end at a note without parent, an event
hides a note that it moves into its own subtree, and a failing creation hides
the note it has indexed. Nothing else does.

## Key results

- `Effect.connected`: a call that avoids the last two keeps every note visible
- `notes_stay_visible`: so every note is visible along the runs that avoid all three
-/

namespace Agendafs

open Store

variable {Text : Type} {cfg : Config Text} {w w' : World Text}

/-! ## The conditions -/

/-- The chain of parents of an accepted file, in the files as they are read first, goes
    through accepted files and ends at one without parent. -/
inductive Rooted (cfg : Config Text) (w : World Text) (listing : List Dirent) : CStr → Prop
  | top {k : CStr} (h : w.Accepts cfg listing k) (hp : w.parentUid cfg k = none) :
      Rooted cfg w listing k
  | child {k uid : CStr} (h : w.Accepts cfg listing k) (hp : w.parentUid cfg k = some uid)
      (hr : Rooted cfg w listing (uid ++ bytes ".ics")) : Rooted cfg w listing k

theorem Rooted.accepts {listing : List Dirent} {k : CStr} (h : Rooted cfg w listing k) :
    w.Accepts cfg listing k := by
  cases h <;> assumption

/-- Every accepted file is rooted, and what a write of the load that fails midway leaves behind
    names no parent. -/
structure World.LoadsVisibly (cfg : Config Text) (w : World Text)
    (listing : Option (List Dirent)) : Prop where
  rooted : ∀ k, w.Accepts cfg (listing.getD []) k → Rooted cfg w (listing.getD []) k
  left : ∀ u, loadRootNodeTree cfg listing w = .ok ((), u) →
    ∀ left, .writeFailed left ∈ w.madeWrites u → parentUidOf cfg left = none

/-- The parent of the note in the file is neither the note itself nor below it. -/
def World.MovesOut (cfg : Config Text) (w : World Text) (filenameVdir : CStr) : Prop :=
  ∀ uid, w.parentUid cfg filenameVdir = some uid → uid ++ bytes ".ics" ≠ filenameVdir ∧
    ∀ n p, w.store.entriesVdir.get filenameVdir = some n →
      w.store.entriesVdir.get (uid ++ bytes ".ics") = some p → ¬ w.store.links.Below n p

/-- The call is turned down at once, or the parent of the path is a directory. -/
def World.CreatesVisibly (cfg : Config Text) (w : World Text) (path : CStr) : Prop :=
  w.Rejects path ∨ ∃ parentPath p, getParentPath path = some parentPath ∧
    w.store.lookup parentPath = some p ∧ w.isDirectory cfg p = true

/-- The runs whose steps hide no note. -/
def visibleRuns (cfg : Config Text) : Guard Text where
  load w listing := w.LoadsVisibly cfg listing
  call w
    | .create path => w.CreatesVisibly cfg path
    | .mkdir path => w.CreatesVisibly cfg path
    | .event event => event.updates = true → (w.loadable cfg (event.file cfg)).isSome = true →
        w.MovesOut cfg (event.file cfg)
    | _ => True

/-! ## Loading -/

/-- Rooted files are loaded below the root. -/
theorem Loaded.connected {listing : List Dirent}
    {R : CStr → Option CStr → Prop} (hR : ∀ k o, R k o → o = none ∨ o = w.parentUid cfg k)
    (hrooted : ∀ k, w.Accepts cfg listing k → Rooted cfg w listing k)
    (h : Loaded cfg w listing R w') : w'.store.Connected := by
  -- Along the chain of parents of the file, which ends at the root.
  have key : ∀ k, Rooted cfg w listing k → ∀ n, w'.store.entriesVdir.get k = some n →
      w'.store.links.Below w'.store.fuseRoot n := by
    intro k hk
    induction hk with
    | top _ hp =>
      intro n hn
      obtain ⟨o, ho, hparent⟩ := h.parent _ n hn
      have hnone : o = none := (hR _ o ho).elim id fun h => h.trans hp
      rw [hnone] at hparent
      exact .step hparent .refl
    | child _ hp hr ih =>
      intro n hn
      obtain ⟨o, ho, hparent⟩ := h.parent _ n hn
      rcases hR _ o ho with rfl | rfl
      · exact .step hparent .refl
      · rw [hp] at hparent
        obtain ⟨p, hp'⟩ := (h.index _).2 hr.accepts
        exact .step (hparent.trans hp') (ih p hp')
  intro n hn
  by_cases hroot : n = w'.store.fuseRoot
  · rw [hroot]
    exact .refl
  · obtain ⟨e, he⟩ := h.sound.entry_of_live n hn hroot
    have hk := (h.sound.index e.filenameVdir n).2 ⟨e, he, rfl⟩
    exact key _ (hrooted _ ((h.index _).1 ⟨n, hk⟩)) n hk

/-! ## Calls -/

theorem Created.connected {path : CStr} {etype : EntryType} {status : Int} (h : w.store.Sound)
    (hs : w.store.Connected) (hfresh : w.FreshUuid cfg) (hcreates : w.CreatesVisibly cfg path)
    (hc : Created cfg w path etype status w') : w'.store.Connected := by
  cases hc with
  | rejected => exact hs
  | noParent hr hparent hp =>
    obtain ⟨parentPath, p, hparent', hp', _⟩ := hcreates.resolve_left hr
    rw [hparent, Option.some.injEq] at hparent'
    rw [← hparent', hp] at hp'
    exact nomatch hp'
  | notDirectory hr hparent hp hd =>
    obtain ⟨parentPath, p, hparent', hp', hd'⟩ := hcreates.resolve_left hr
    rw [hparent, Option.some.injEq] at hparent'
    rw [← hparent', hp, Option.some.injEq] at hp'
    rw [hp', hd'] at hd
    exact nomatch hd
  | @created parentPath p hr hparent hp _ =>
    have hplive := h.live_of_lookup hp
    rw [created_store h.toInv]
    refine Connected.place (h.toInv.create hfresh.not_indexed) ?_
      ((create_live ..).2 (.inr hplive)) ((create_live ..).2 (.inl rfl)) ?_ ?_
    · rw [h.links_create]
      exact hs p hplive
    · rw [h.links_create]
      exact h.not_below_nextId hplive
    · intro n hn
      rw [h.links_create]
      rcases (create_live ..).1 hn with rfl | hn
      · exact .inr .refl
      · exact .inl (hs n hn)

theorem Removed.connected {path : CStr} {status : Int} (h : w.store.Sound)
    (hs : w.store.Connected) (hc : Removed cfg w path status w') : w'.store.Connected := by
  cases hc with
  | rejected => exact hs
  | failed => exact hs
  | removed _ _ hchildren => exact hs.delete h.toInv hchildren _

/-- The new parent of a rename is not below the note that is moved: the new path goes
    through it, so through the old path if that is above it. -/
theorem not_below_newParent (h : w.store.Sound) {old new newParentPath : CStr} {p c q : NodeId}
    (hbelow : ¬ splitPath old <+: splitPath new) (hnew : getParentPath new = some newParentPath)
    (hp : w.store.lookup newParentPath = some p) (hc : w.store.lookup old = some c)
    (hq : w.store.links.parent c = some q) : ¬ w.store.links.Below c (w.newParent cfg p) := by
  unfold World.newParent
  split
  · intro hcp
    refine hbelow ((h.wf.prefix_of_below h.root_parent hc hp hcp).trans ?_)
    rw [splitPath_eq_parent hnew]
    exact List.prefix_append _ _
  · intro hcr
    rw [hcr.eq_of_parent_none h.root_parent, h.root_parent] at hq
    exact nomatch hq

theorem AgendaRenamed.connected {old new : CStr} {status : Int} (h : w.store.Sound)
    (hs : w.store.Connected) (hbelow : ¬ splitPath old <+: splitPath new)
    (hc : AgendaRenamed cfg w old new status w') : w'.store.Connected := by
  cases hc with
  | noParent => exact hs
  | @moved newParentPath p c q e ics hnew hp hc he _ hq =>
    have hplive : w.store.Live (w.newParent cfg p) :=
      live_newParent h.toInv (h.live_of_lookup hp)
    have hpc : ¬ w.store.links.Below c (w.newParent cfg p) :=
      not_below_newParent h hbelow hnew hp hc hq
    rw [moved_store]
    exact .place h.toInv (hs _ hplive) hplive (live_of_entry he) hpc fun n hn => .inl (hs n hn)

theorem Renamed.connected {old new : CStr} {status : Int} (h : w.store.Sound)
    (hs : w.store.Connected) (hbelow : ¬ splitPath old <+: splitPath new)
    (hc : Renamed cfg w old new status w') : w'.store.Connected := by
  cases hc with
  | notEmpty => exact hs
  | removeFailed => exact hs
  | replaced _ he hchildren _ hr =>
    exact hr.connected (h.delete he hchildren) (hs.delete h.toInv hchildren _) hbelow
  | fresh _ hr => exact hr.connected h hs hbelow

theorem Handled.connected {k : CStr} (h : w.store.Sound) (hs : w.store.Connected)
    (hk : slash ∉ k) (hmoves : (w.loadable cfg k).isSome = true → w.MovesOut cfg k)
    (hc : Handled cfg w k w') : w'.store.Connected := by
  cases hc with
  | unchanged => exact hs
  | @updated e c p hc he hp =>
    have hek := (filenameVdir_of_agendaEntryOf he).trans (getFilename_appendPath _ hk)
    have hmoves := hmoves (by unfold World.loadable; rw [hc, Option.bind_some, he]; rfl)
    have hparent : w.parentUid cfg k = getParentUid cfg.ical c := by
      unfold World.parentUid
      rw [hc, Option.bind_some]
    have hu : (w.store.upsert e).2.Inv := h.toInv.upsert
    have hentry := upsert_entry (e := e) h.toInv
    have hlinks := h.toInv.upsert_links (e := e)
    have hplive := hu.live_of_target hp
    have hnew : w.store.entriesVdir.get k = none → (w.store.upsert e).1 = w.store.nextId :=
      fun hnone => by rw [upsert_of_none (by rw [hek]; exact hnone)]
    have hold : ∀ n, w.store.entriesVdir.get k = some n → (w.store.upsert e).1 = n :=
      fun n hn => by rw [upsert_of_some (by rw [hek]; exact hn)]
    -- The new parent is the root, or a node that was there before.
    have hpc : ¬ w.store.links.Below (w.store.upsert e).1 p := by
      intro hbelow
      unfold Store.target at hp
      rw [← hparent] at hp
      split at hp
      · have hpr : p = w.store.fuseRoot := by
          rw [← Option.some.inj hp, upsert_fuseRoot]
        rw [hpr] at hbelow
        exact hu.ne_root hentry
          ((hbelow.eq_of_parent_none h.root_parent).trans upsert_fuseRoot.symm)
      · rename_i uid huid
        obtain ⟨hne, hmoves⟩ := hmoves uid huid
        rw [upsert_get, if_neg (by rw [hek]; exact hne)] at hp
        cases hget : w.store.entriesVdir.get k with
        | none =>
          rw [hnew hget] at hbelow
          exact h.not_below_nextId (h.live_of_index hp) hbelow
        | some n =>
          rw [hold n hget] at hbelow
          exact hmoves n p hget hp hbelow
    have hall : ∀ n, (w.store.upsert e).2.Live n →
        w.store.links.Below w.store.fuseRoot n ∨ w.store.links.Below (w.store.upsert e).1 n := by
      intro n hn
      rcases (upsert_live h.toInv).1 hn with rfl | hn
      · exact .inr .refl
      · exact .inl (hs n hn)
    rw [updated_store]
    refine .place hu ?_ hplive (live_of_entry hentry) ?_ ?_
    · rw [hlinks, upsert_fuseRoot]
      exact (hall p hplive).resolve_right hpc
    · rw [hlinks]
      exact hpc
    · rw [hlinks, upsert_fuseRoot]
      exact hall

/-- A call that meets its condition keeps every note visible. -/
theorem Effect.connected {o : Op} {status : Int} (h : w.store.Sound) (hs : w.store.Connected)
    (hv : o.Valid cfg w) (hG : (visibleRuns cfg).call w o) (hc : Effect cfg w o status w') :
    w'.store.Connected := by
  cases o with
  | create filepath => exact Created.connected h hs hv hG hc
  | mkdir filepath => exact Created.connected h hs hv hG hc
  | write path buf size offset => rw [Edited.store hc]; exact hs
  | setxattr path attrib value s flags => rw [Edited.store hc]; exact hs
  | removexattr path attrib => rw [Edited.store hc]; exact hs
  | unlink file => exact Removed.connected h hs hc
  | rmdir filepath => exact Removed.connected h hs hc
  | rename old new flags => exact Renamed.connected h hs hv.2.1 hc
  | event event =>
    cases hevent : event.updates with
    | false =>
      rw [hc.2 hevent]
      exact hs
    | true =>
      exact Handled.connected h hs (slash_not_mem_getFilename _) (hG hevent) hc.1

theorem Run.connected (hL : cfg.ical.Lawful) (h : Run cfg (visibleRuns cfg) w) :
    w.store.Connected := by
  induction h with
  | @load w w' listing hstart hlisting hG hrun =>
    have hloaded : Loaded cfg w (listing.getD []) _ w' :=
      (wp_load_parents (R := fun k o => o = none ∨ o = w.parentUid cfg k) hL hstart hlisting
        fun _ _ => .inr rfl).ok hrun fun left hl _ => .inl (hG.left _ hrun left hl)
    exact hloaded.connected (fun _ _ h => h) hG.rooted
  | external files env _ ih => exact ih
  | call h hv hG hrun ih => exact (exec_effect h.sound hv hrun).connected h.sound ih hv hG

/-- Every indexed note is reached from the root through child lists, along the runs in
    which the loaded files are rooted, events move no note into its own subtree and
    notes are created in directories. -/
theorem notes_stay_visible (hL : cfg.ical.Lawful) (h : Run cfg (visibleRuns cfg) w) (k : CStr)
    (n : NodeId) (hn : w.store.entriesVdir.get k = some n) :
    Relation.ReflTransGen (fun p c => c ∈ w.store.links.children p) w.store.fuseRoot n :=
  h.sound.wf.below_iff.1 (h.connected hL n (h.sound.live_of_index hn))

theorem notes_stay_visible_nestedNote :
    Relation.ReflTransGen (fun p c => c ∈ (sampleMount nestedNote {}).store.links.children p)
      (sampleMount nestedNote {}).store.fuseRoot 2 := by
  have hd : Rooted sampleConfig (sampleStart nestedNote) ((sampleListing nestedNote).getD [])
      (bytes "d.ics") :=
    .top ⟨⟨bytes "d.ics", .reg⟩, List.mem_cons_self, rfl, rfl, by decide, by decide +kernel⟩
      (by decide +kernel)
  have hload : (visibleRuns sampleConfig).load (sampleStart nestedNote)
      (sampleListing nestedNote) := by
    refine ⟨?_, fun _ _ left h => absurd (List.mem_of_mem_take h) List.not_mem_nil⟩
    rintro k ⟨d, hdmem, rfl, hk⟩
    rcases List.mem_cons.1 hdmem with rfl | hdmem
    · exact hd
    · rw [List.map_singleton, List.mem_singleton] at hdmem
      subst hdmem
      have huid : World.parentUid sampleConfig (sampleStart nestedNote) (bytes "n.ics") =
          some (bytes "d") := by decide +kernel
      exact .child ⟨_, List.mem_cons_of_mem _ (List.mem_singleton_self _), rfl, hk⟩ huid hd
  have h : Run sampleConfig (visibleRuns sampleConfig) (sampleMount nestedNote {}) :=
    run_nestedNote hload
  exact notes_stay_visible structuralIcal_lawful h (bytes "n.ics") 2 (by decide +kernel)

/-- A note whose parent is not in VDIR. -/
def orphanedNote : List (CStr × Icalcomponent) :=
  [(bytes "a.ics", sampleNote (bytes "a") (bytes "Note") [sampleParent (bytes "b")])]

/-- Without these conditions a note can be indexed and invisible: one whose parent is
    missing is hung nowhere by the load. -/
theorem orphaned_note_is_invisible :
    ¬ ∀ w : World Icalcomponent, Reachable sampleConfig w →
      ∀ k n, w.store.entriesVdir.get k = some n →
        Relation.ReflTransGen (fun p c => c ∈ w.store.links.children p) w.store.fuseRoot n := by
  intro hall
  have h : Reachable sampleConfig (sampleMount orphanedNote {}) :=
    run_sampleMount {} (by decide) (by decide) trivial (by decide +kernel)
  have hbelow := (Run.sound h).wf.below_iff.2 (hall _ h (bytes "a.ics") 1 (by decide +kernel))
  have hparent : (sampleMount orphanedNote {}).store.links.parent 1 = none := by decide +kernel
  exact absurd (hbelow.eq_of_parent_none hparent) (by decide +kernel)

end Agendafs
